import SlateFs.Seq.Tree
import SlateFs.Shapes.Alone

/-!
# Every operation is a sequence of transactions

Run alone, each operation reads a database that nobody else changes, so what it
checked still holds when it commits. Here that is worked out once for every
operation: whatever it does to the database between its first and its last call
is a sequence of `Txn` steps.
-/

namespace SlateFs

open FsM

/-- The operation changes the database by `Txn` steps only. -/
abbrev Keeps {α : Type} (v : Volume) (G : Guard) (M : Oracle) (p : FsM α) (db : Db) : Prop :=
  wp (M.steps (Txns v G)) (fun _ _ => True) (fun _ _ => True) p db

/-- Numbers are handed out once, and the guard agrees to them. -/
def Oracle.Fresh (M : Oracle) (G : Guard) : Prop :=
  ∀ db n, M.number db n → Unused db n ∧ G.fresh n

variable {M : Oracle} {v : Volume} {G : Guard} {db : Db}

/-! ## Creating nodes -/

variable {T : Db → Db → Prop} {E : Abort → Db → Prop} {parent ino : Ino} {dir : Inode}
  {name : Bytes} {ts : Timespec} {Q : Unit → Db → Prop} {db : Db} {d : Dirent}

lemma wp_allocIno {z : Prop} {Q : Ino → Db → Prop} (hT : ∀ e, T db { db with nextIno := e })
    (hQ : ∀ n e, M.number db n → Q n { db with nextIno := e }) :
    wp (M.watch T z) Q E allocIno db := by
  simp only [allocIno, wp_bind, wp_allocate]
  intro n renew hn
  cases renew with
  | none => exact hQ n db.nextIno hn
  | some e =>
    simp only [wp_bind, wp_putNextIno, wp_pure]
    exact ⟨.inr (hT e), hQ n e hn⟩

lemma makeNode_keeps {mk : Timespec → Inode} (hM : M.Fresh G) (target : Option Bytes)
    (hparent : db.inodes.get? parent = some dir) (hdir : dir.kind = .dir)
    (hfree : db.dirents.get? (toLex (parent, v.names.sealName parent name)) = none)
    (hmk : ∀ ts, NewNode parent (mk ts)) (hsub : ∀ ts, (mk ts).kind.isDir → G.subdir dir.nlink)
    (htarget : ∀ ts, target.isSome → (mk ts).kind = .symlink) (hid : G.entry dir.nextDirentId) :
    Keeps v G M (makeNode v parent dir name mk target) db := by
  simp only [makeNode, wp_bind]
  refine wp_allocIno (fun e => .single (.lease e)) ?_
  intro n e hn
  simp only [wp_now, insertNewNode, wp_bind, wp_reserve, wp_tryCommit, wp_pure]
  refine fun ts => ⟨fun _ ts' => ⟨.inr (.single ?_), ?_⟩, fun _ _ => trivial⟩
  · obtain ⟨hnew, hfresh⟩ := hM db n hn
    exact .insertNode target _ hparent hdir hfree { hnew with } hfresh (hmk ts) (hsub ts)
      (htarget ts) hid
  · simp only [wp_attrsInsert, wp_removeNegative]

lemma newNode_of_new {kind : FileKind} {mode uid gid : UInt32} (h : kind.isDir = false)
    {rdev size : Nat} (hsize : kind = .file → size = 0) :
    NewNode parent { Inode.new kind mode uid gid ts with rdev := rdev, size := size } :=
  ⟨by simp [Inode.new, h], rfl, by simp [Inode.new, h], le_refl _, hsize⟩

section

variable (hM : M.Fresh G) (creds : Credentials)
  (hid : ∀ i, db.inodes.get? parent = some i → G.entry i.nextDirentId)
include hM hid

lemma create_keeps (name : Bytes) (mode : UInt32) (exclusive : Bool) :
    Keeps v G M (create v creds parent name mode exclusive) db := by
  simp only [create, wp_bind, wp_ofExcept, wp_withGuards, wp_loadDir, wp_direntOf]
  refine ⟨fun _ _ => ⟨?_, fun _ _ _ => trivial, fun _ => trivial⟩, fun _ _ => trivial⟩
  intro dir hdir hisDir
  refine ⟨fun _ _ => ?_, fun _ _ => trivial⟩
  split
  · simp only [wp_ite, wp_fail, wp_bind, wp_loadInode, wp_ofExcept, wp_pure, implies_true, and_self]
  rename_i hfree
  exact makeNode_keeps hM none hdir hisDir hfree (fun ts => newNode_of_new rfl (fun _ => rfl))
    (fun ts h => absurd h (by simp [Inode.new, FileKind.isDir])) (fun _ h => absurd h (by simp))
    (hid dir hdir)

lemma mkdir_keeps (name : Bytes) (mode : UInt32)
    (hG : ∀ i, db.inodes.get? parent = some i → G.subdir i.nlink) :
    Keeps v G M (mkdir v creds parent name mode) db := by
  simp only [mkdir, wp_bind, wp_ofExcept, wp_withGuards, wp_loadDir, wp_direntOf]
  refine ⟨fun _ _ => ⟨?_, fun _ _ _ => trivial, fun _ => trivial⟩, fun _ _ => trivial⟩
  intro dir hdir hisDir
  refine ⟨fun _ _ => ?_, fun _ _ => trivial⟩
  split
  · trivial
  rename_i hfree
  exact makeNode_keeps hM none hdir hisDir hfree
    (fun ts => ⟨rfl, rfl, fun _ => rfl, le_refl _, fun _ => rfl⟩) (fun ts _ => hG dir hdir)
    (fun _ h => absurd h (by simp)) (hid dir hdir)

lemma mknod_keeps (name : Bytes) (mode : UInt32) (kind : FileKind) (rdev : Nat) :
    Keeps v G M (mknod v creds parent name mode kind rdev) db := by
  simp only [mknod, wp_bind, wp_ofExcept, wp_withGuards, wp_loadDir, wp_direntOf]
  refine ⟨fun _ _ => ⟨fun _ hallowed => ⟨?_, fun _ _ _ => trivial, fun _ => trivial⟩,
    fun _ _ => trivial⟩, fun _ _ => trivial⟩
  have hkind : kind.isDir = false := by
    cases kind <;> simp_all [mknodAllowed, FileKind.isDir]
  intro dir hdir hisDir
  refine ⟨fun _ _ => ?_, fun _ _ => trivial⟩
  split
  · trivial
  rename_i hfree
  exact makeNode_keeps hM none hdir hisDir hfree
    (fun ts => newNode_of_new hkind (fun _ => rfl))
    (fun ts h => absurd h (by simp [Inode.new, hkind])) (fun _ h => absurd h (by simp))
    (hid dir hdir)

lemma symlink_keeps (name target : Bytes) :
    Keeps v G M (symlink v creds parent name target) db := by
  simp only [symlink, wp_bind, wp_ofExcept, wp_ite, wp_fail, wp_withGuards, wp_loadDir, wp_direntOf]
  refine ⟨fun _ _ => ⟨fun _ => trivial, fun _ => ⟨?_, fun _ _ _ => trivial, fun _ => trivial⟩⟩,
    fun _ _ => trivial⟩
  intro dir hdir hisDir
  refine ⟨fun _ _ => ?_, fun _ _ => trivial⟩
  split
  · trivial
  rename_i hfree
  exact makeNode_keeps hM (some target) hdir hisDir hfree
    (fun ts => newNode_of_new rfl (fun h => by cases h))
    (fun ts h => absurd h (by simp [Inode.new, FileKind.isDir])) (fun _ _ => rfl) (hid dir hdir)

end

/-! ## Linking -/

lemma nlinkSucc_ok {n m : UInt32} (h : nlinkSucc n = .ok m) :
    n.toNat + 1 < 2 ^ 32 ∧ m = n + 1 := by
  unfold nlinkSucc at h
  split at h
  · rename_i hn
    exact ⟨hn, (Except.ok.inj h).symm⟩
  · cases h

lemma isDir_iff {k : FileKind} : k.isDir = true ↔ k = .dir := by cases k <;> decide

lemma ne_dir {k : FileKind} (h : k.isDir = false) : k ≠ .dir := by
  rintro rfl
  cases h

lemma link_keeps (creds : Credentials) (newParent : Ino) (newName : Bytes)
    (hG : ∀ i, db.inodes.get? ino = some i → G.link i)
    (hid : ∀ i, db.inodes.get? newParent = some i → G.entry i.nextDirentId) :
    Keeps v G M (link v creds ino newParent newName) db := by
  refine Track.wp_alone.mp (Track.wp_link (Track.atRest_alone fun _ => trivial)
    fun i₀ i dir ts => Track.under_alone fun hk => ?_)
  obtain ⟨nlink, hnlink, rfl⟩ := hk.linked
  obtain ⟨hroom, rfl⟩ := nlinkSucc_ok hnlink
  have hi := Track.get_of_knows hk.source
  have hdir := Track.get_of_knows hk.node
  simp only [wp_bind, wp_commit, wp_attrsInsert, wp_removeNegative, wp_pure]
  refine ⟨.inr (.single ?_), trivial⟩
  exact .link _ hi (ne_dir hk.notDir) hdir (isDir_iff.mp hk.isDir)
    (Track.get_of_knows hk.entry) hroom ⟨rfl, rfl, rfl, rfl, rfl, rfl⟩ (hG i₀ hi) (hid dir hdir)

/-! ## Unlinking -/

lemma wp_dropLink {Q : Burial → Db → Prop} {i : Inode}
    (hopen : ∀ ts', i.nlink - 1 = 0 → M.isOpen db ino true →
      Q ⟨buryOpen ino { i with nlink := i.nlink - 1 } ts', false, 0, 0⟩ db)
    (hgone : i.nlink - 1 = 0 → M.isOpen db ino false →
      Q ⟨buryGone ino { i with nlink := i.nlink - 1 }, true, -i.billedBytes.toInt64, -1⟩ db)
    (hkeep : i.nlink - 1 ≠ 0 →
      Q ⟨[.put (.inode ino) { i with nlink := i.nlink - 1, ctime := ts }], false, 0, 0⟩ db) :
    wp (M.steps T) Q E (dropLink ino i ts) db := by
  simp only [dropLink, buryInode, wp_ite, wp_bind, wp_handlesIsOpen, wp_now, wp_pure]
  refine ⟨fun h b hb => ⟨fun ho ts' => hopen ts' h (ho ▸ hb), fun ho => hgone h ?_⟩, hkeep⟩
  rwa [show b = false by simpa using ho] at hb

lemma wp_reap_keeps (fuel : Nat) (hgone : db.inodes.get? ino = none) (hQ : Q () (db.purge ino)) :
    wp (M.steps (Txns v G)) Q E (reapOrphanData fuel ino) db := by
  refine wp_reapOrphanData fuel ?_ hQ
  intro db₁ db₂ h₁ h₂
  exact h₂.txns (by rw [h₁.inodes]; exact hgone)

lemma touchMtime_alike (i : Inode) (ts : Timespec) : (i.touchMtime ts).Alike i :=
  ⟨rfl, rfl, rfl, rfl, rfl, rfl⟩

/-- A committed removal tidies up behind itself. -/
lemma wp_unlinkCommit {fuel : Nat} {b : Burial} {db₁ : Db}
    (hdb : db.apply (dropEntry v parent name d.direntId ++ [.put (.inode parent) dir] ++ b.writes) =
      db₁) (ht : T db db₁)
    (hreap : b.reap = true → wp (M.steps T) Q E (reapOrphanData fuel d.childIno) db₁)
    (hQ : Q () db₁) :
    wp (M.steps T) Q E (unlinkCommit fuel v parent dir name d b) db := by
  simp only [unlinkCommit, wp_bind, wp_commit, wp_attrsInsert, wp_attrsRemove, wp_insertNegative,
    wp_reserveQuiet, wp_ite, wp_pure, hdb]
  exact ⟨.inr ht, fun _ _ => ⟨hreap, fun _ => hQ⟩⟩

/-- What is known of a name that is about to be taken out is what is stored. -/
lemma names_of_named {child : Inode} (h : (M.track T).Named v parent name dir d child db) :
    ∃ d', Names v db parent dir name d' child ∧ d'.childIno = d.childIno ∧
      d'.direntId = d.direntId := by
  obtain ⟨d', hd', hino, hid⟩ := h.entry
  exact ⟨d', ⟨Track.get_of_knows h.node, isDir_iff.mp h.isDir, Track.get_of_knows hd',
    hino ▸ Track.get_of_knows h.childNode⟩, hino, hid⟩

lemma unlink_keeps (fuel : Nat) (creds : Credentials) (parent : Ino) (name : Bytes) :
    Keeps v G M (unlink fuel v creds parent name) db := by
  refine Track.wp_alone.mp (Track.wp_unlink (Track.atRest_alone fun _ => trivial)
    (fun fuel dir child d ts => Track.under_alone fun hk => ?_) fuel)
  obtain ⟨d2, hn, hino, hid⟩ := names_of_named hk.1
  have hfile := ne_dir hk.2
  have hdir := touchMtime_alike dir ts
  rw [wp_bind]
  refine wp_dropLink ?_ ?_ ?_
  · intro ts' hlast _
    exact wp_unlinkCommit (by rw [← hid, ← hino]) (.single (.unlinkOpen ts' hn hfile hdir hlast))
      (by simp) trivial
  · intro hlast _
    refine wp_unlinkCommit (by rw [← hid, ← hino]) (.single (.unlinkGone hn hfile hdir hlast))
      (fun _ => wp_reap_keeps fuel ?_ trivial) trivial
    simp [← hino, dropEntry, buryGone, Db.applyWrite, Db.put, Db.delete]
  · intro hlast
    have hchild : Inode.Alike { child with nlink := child.nlink - 1, ctime := ts }
        { child with nlink := child.nlink - 1 } := ⟨rfl, rfl, rfl, rfl, rfl, rfl⟩
    exact wp_unlinkCommit (by rw [← hid, ← hino]; rfl)
      (.single (.unlinkKeep hn hfile hdir hlast hchild)) (by simp) trivial

/-! ## Removing directories -/

lemma direntsOf_eq_nil {p : Ino} (h : db.direntsOf p = []) (e : Bytes) :
    db.dirents.get? (toLex (p, e)) = none :=
  OrdMap.scan_eq_nil.mp (List.map_eq_nil_iff.mp h) _ (by simp)

lemma rmdir_txns {child : Inode} (hn : Names v db parent dir name d child)
    (hkind : child.kind = .dir) (hempty : db.direntsOf d.childIno = []) (ts : Timespec) :
    Txns v G db (db.apply (rmdirBatch v parent dir name d (db.xattrsOf d.childIno) ts)) := by
  rw [apply_rmdirBatch]
  have hxattrs : Txns v G db (db.apply (deleteXattrs d.childIno
    ((db.xattrsOf d.childIno).map Prod.fst))) := chain_apply (fun _ => .dropXattr d.childIno) _ db
  refine hxattrs.tail ?_
  rw [deleteXattrs_all]
  exact .rmdir ⟨hn.hdir, hn.hisDir, hn.hentry, hn.hchild⟩ hkind (direntsOf_eq_nil hempty)
    ⟨rfl, rfl, rfl, rfl, rfl, rfl⟩ (.inl fun n => get?_filter_owner ..)

lemma rmdir_keeps (fuel : Nat) (creds : Credentials) (parent : Ino) (name : Bytes) :
    Keeps v G M (rmdir fuel v creds parent name) db := by
  refine Track.wp_alone.mp (Track.wp_rmdir (Track.atRest_alone fun _ => trivial)
    (fun dir child d xattrs ts => Track.under_alone fun hk => ?_) fuel)
  obtain ⟨d2, hn, hino, hid⟩ := names_of_named hk.toNamed
  have hempty := Except.ok.inj (Track.can_of_heard rfl hk.empty).1
  obtain rfl := Except.ok.inj (Track.can_of_heard rfl hk.attrs).1
  simp only [wp_bind, wp_commit, wp_attrsInsert, wp_attrsRemove, wp_insertNegative, wp_reserveQuiet]
  refine ⟨.inr ?_, fun _ _ => trivial⟩
  have ht := rmdir_txns (G := G) hn (isDir_iff.mp hk.childDir) (hino ▸ hempty.symm) ts
  simpa only [rmdirBatch, hino, hid] using ht

end SlateFs
