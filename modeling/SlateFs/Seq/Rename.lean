import SlateFs.Seq.Ops

/-!
# Rename

A rename that replaces its target does two things in one batch: the target goes,
as unlink or rmdir would take it, and the source moves to the name that is now
free. The batch is shown to be those two transactions one after the other.
-/

namespace SlateFs

open OrdMap FsM Db

variable {M : Oracle} {v : Volume} {G : Guard} {db : Db}

/-- The outcomes of replacing a target, with what was checked for each. -/
inductive ReplacedBy (v : Volume) (db : Db) (q : Ino) (newName : Bytes) (newDir : Inode) :
    Option Dirent → Replaced → Prop where
  | free (h : db.dirents.get? (toLex (q, v.names.sealName q newName)) = none) :
      ReplacedBy v db q newName newDir none ⟨[], newDir, none, 0, 0⟩
  | dir {d : Dirent} {target : Inode} (hn : Names v db q newDir newName d target)
      (hkind : target.kind = .dir)
      (hempty : ∀ e, db.dirents.get? (toLex (d.childIno, e)) = none) :
      ReplacedBy v db q newName newDir (some d)
        ⟨[.delete (.inode d.childIno), .mergeInodes (-1)] ++ dropEntry v q newName d.direntId,
          { newDir with nlink := newDir.nlink - 1 }, none, 0, -1⟩
  | keep {d : Dirent} {target : Inode} (ts : Timespec) (hn : Names v db q newDir newName d target)
      (hkind : target.kind ≠ .dir) (hlast : target.nlink - 1 ≠ 0) :
      ReplacedBy v db q newName newDir (some d)
        ⟨[.put (.inode d.childIno) { target with nlink := target.nlink - 1, ctime := ts }]
          ++ dropEntry v q newName d.direntId, newDir, none, 0, 0⟩
  | opened {d : Dirent} {target : Inode} (ts : Timespec)
      (hn : Names v db q newDir newName d target)
      (hkind : target.kind ≠ .dir) (hlast : target.nlink - 1 = 0) :
      ReplacedBy v db q newName newDir (some d)
        ⟨buryOpen d.childIno { target with nlink := target.nlink - 1 } ts
          ++ dropEntry v q newName d.direntId, newDir, none, 0, 0⟩
  | gone {d : Dirent} {target : Inode} (hn : Names v db q newDir newName d target)
      (hkind : target.kind ≠ .dir) (hlast : target.nlink - 1 = 0) :
      ReplacedBy v db q newName newDir (some d)
        ⟨buryGone d.childIno { target with nlink := target.nlink - 1 }
          ++ dropEntry v q newName d.direntId, newDir, some d.childIno,
          -target.billedBytes.toInt64, -1⟩

/--
The database with the target gone, before the move. It is what the first half of
the batch leaves, but for the destination directory, which the second half
rewrites anyway.
-/
structure Replaces (v : Volume) (G : Guard) (db db₁ : Db) (q : Ino) (newName : Bytes) (d : Dirent)
    (rep : Replaced) : Prop where
  txn : Txn v G db db₁
  writes : db.apply rep.writes = { db₁ with inodes := (db.apply rep.writes).inodes }
  inodes : ∀ x, x ≠ q → (db.apply rep.writes).inodes.get? x = db₁.inodes.get? x
  dirents : db₁.dirents = db.dirents.erase (toLex (q, v.names.sealName q newName))
  dir : db₁.inodes.get? q = some rep.newDir
  other : ∀ x, x ≠ q → x ≠ d.childIno → db₁.inodes.get? x = db.inodes.get? x

variable {q p : Ino} {newName oldName : Bytes} {newDir oldDir moved : Inode} {rep : Replaced}
  {src : Dirent} {crossing : Bool} {ts : Timespec} {dst : Option Dirent}

lemma ReplacedBy.replaces {d : Dirent} (h : ReplacedBy v db q newName newDir (some d) rep)
    (hne : d.childIno ≠ q)
    (hstrand : ∀ i, db.inodes.get? d.childIno = some i → i.kind = .dir →
      (∀ n, db.xattrs.get? (toLex (d.childIno, n)) = none) ∨ G.strand db d.childIno) :
    ∃ db₁, Replaces v G db db₁ q newName d rep := by
  cases h with
  | dir hn hkind hempty =>
    refine ⟨_, .rmdir hn hkind hempty ⟨rfl, rfl, rfl, rfl, rfl, rfl⟩ (hstrand _ hn.hchild hkind),
      ?_, ?_, ?_, ?_, ?_⟩
    all_goals rw [apply_dropDir]
    all_goals simp only [apply_append, apply_dropEntry, apply_cons, apply_nil,
      applyWrite, delete]
    · intro x hx
      rw [get?_insert_of_ne _ _ hx]
    · exact get?_insert_self ..
    · intro x hx hxd
      rw [get?_insert_of_ne _ _ hx, get?_erase_of_ne _ hxd]
  | @keep _ target ts hn hkind hlast =>
    have hchild' : Inode.Alike { target with nlink := target.nlink - 1, ctime := ts }
        { target with nlink := target.nlink - 1 } := ⟨rfl, rfl, rfl, rfl, rfl, rfl⟩
    refine ⟨_, .unlinkKeep hn hkind (.refl _) hlast hchild', ?_, ?_, ?_, ?_, ?_⟩
    all_goals rw [apply_unlinkKeep]
    all_goals simp only [apply_append, apply_dropEntry, apply_cons, apply_nil,
      applyWrite, put]
    · intro x hx
      rw [get?_insert, get?_insert, get?_insert_of_ne _ _ hx]
    · exact (get?_insert_of_ne _ _ hne.symm).trans (get?_insert_self ..)
    · intro x hx hxd
      exact (get?_insert_of_ne _ _ hxd).trans (get?_insert_of_ne _ _ hx)
  | @opened _ target ts hn hkind hlast =>
    refine ⟨_, .unlinkOpen ts hn hkind (.refl _) hlast, ?_, ?_, ?_, ?_, ?_⟩
    all_goals rw [apply_unlinkOpen]
    all_goals simp only [apply_append, apply_dropEntry, apply_buryOpen]
    · intro x hx
      rw [get?_insert, get?_insert, get?_insert_of_ne _ _ hx]
    · exact (get?_insert_of_ne _ _ hne.symm).trans (get?_insert_self ..)
    · intro x hx hxd
      exact (get?_insert_of_ne _ _ hxd).trans (get?_insert_of_ne _ _ hx)
  | @gone _ target hn hkind hlast =>
    refine ⟨_, .unlinkGone hn hkind (.refl _) hlast, ?_, ?_, ?_, ?_, ?_⟩
    all_goals rw [apply_unlinkGone]
    all_goals simp only [apply_append, apply_dropEntry, apply_buryGone]
    · intro x hx
      rw [get?_erase, get?_erase, get?_insert_of_ne _ _ hx]
    · exact (get?_erase_of_ne _ hne.symm).trans (get?_insert_self ..)
    · intro x hx hxd
      exact (get?_erase_of_ne _ hxd).trans (get?_insert_of_ne _ _ hx)

/-- The destination directory is rewritten last, so what it held before does not matter. -/
lemma inodesAfterMove_congr {m m' : OrdMap Ino Inode} (h : ∀ x, x ≠ q → m.get? x = m'.get? x) :
    inodesAfterMove m p q src oldDir newDir moved crossing ts =
      inodesAfterMove m' p q src oldDir newDir moved crossing ts := by
  ext x : 1
  unfold inodesAfterMove
  simp only [get?_insert]
  split
  · rfl
  · rename_i hx
    split <;> simp only [get?_insert, h x hx]

/-- **A rename over a target is a removal and a move.** -/
theorem rename_txns (hT : Tree db) (ts : Timespec) (hsrc : Names v db p oldDir oldName src moved)
    (hq : db.inodes.get? q = some newDir) (hqDir : newDir.kind = .dir)
    (hsame : p = q → newDir = oldDir) (hnames : ¬(p = q ∧ oldName = newName))
    (hchild : dst.map Dirent.childIno ≠ some src.childIno)
    (hcross : crossing = (moved.kind.isDir && p ≠ q))
    (hwalk : crossing → Forest.Avoids db.up ROOT_INO src.childIno q)
    (hrep : ReplacedBy v db q newName newDir dst rep) (hsub : crossing → G.subdir rep.newDir.nlink)
    (hstrand : ∀ d i, dst = some d → db.inodes.get? d.childIno = some i → i.kind = .dir →
      (∀ n, db.xattrs.get? (toLex (d.childIno, n)) = none) ∨ G.strand db d.childIno)
    (hid : G.entry newDir.nextDirentId) :
    Txns v G db
      (db.apply (renameBatch v p oldName q newName src oldDir moved rep crossing ts)) := by
  have hkeys : (p, v.names.sealName p oldName) ≠ (q, v.names.sealName q newName) := by
    intro he
    obtain ⟨hpq, henc⟩ := Prod.mk.inj he
    subst hpq
    exact hnames ⟨rfl, v.names.seal_inj henc⟩
  cases dst with
  | none =>
    cases hrep with
    | free hfree => exact .single (.move crossing ts hsrc hq hqDir hfree hcross hwalk hsub hid)
  | some d =>
    have hdir : rep.newDir.kind = .dir ∧ rep.newDir.parentDir = newDir.parentDir := by
      cases hrep <;> exact ⟨hqDir, rfl⟩
    have hid' : G.entry rep.newDir.nextDirentId := by cases hrep <;> exact hid
    obtain ⟨target, hn, htarget⟩ : ∃ target, Names v db q newDir newName d target ∧
        (target.kind = .dir → ∀ e, db.dirents.get? (toLex (d.childIno, e)) = none) := by
      cases hrep with
      | dir hn hkind hempty => exact ⟨_, hn, fun _ => hempty⟩
      | keep ts hn hkind hlast => exact ⟨_, hn, fun h => absurd h hkind⟩
      | opened ts hn hkind hlast => exact ⟨_, hn, fun h => absurd h hkind⟩
      | gone hn hkind hlast => exact ⟨_, hn, fun h => absurd h hkind⟩
    have hdq : d.childIno ≠ q := hT.isTree.entry_ne (hT.entry hn)
    have hsd : src.childIno ≠ d.childIno := fun h => hchild (by simp [h])
    -- the source directory is not the target: a removed directory has no entries
    have hpd : p ≠ d.childIno := by
      intro hpd
      by_cases hk : target.kind = .dir
      · have := htarget hk (v.names.sealName p oldName)
        rw [← hpd, hsrc.hentry] at this
        cases this
      · exact ne_of_dir hsrc.hdir hsrc.hisDir hn.hchild hk hpd
    have hsq : src.childIno ≠ q := by
      by_cases hpq : p = q
      · rw [← hpq]; exact hT.isTree.entry_ne (hT.entry hsrc)
      by_cases hk : moved.kind = .dir
      · exact (hwalk (by simp [hcross, isDir_of_eq hk, hpq])).ne.symm
      · exact (ne_of_dir hq hqDir hsrc.hchild hk).symm
    obtain ⟨db₁, hr⟩ := hrep.replaces hdq (fun i => hstrand d i rfl)
    have hbatch : db.apply (renameBatch v p oldName q newName src oldDir moved rep crossing ts) =
        db₁.apply (renameBatch v p oldName q newName src (if p = q then rep.newDir else oldDir)
          moved ⟨[], rep.newDir, none, 0, 0⟩ crossing ts) := by
      rw [apply_renameBatch, apply_renameBatch, inodesAfterMove_congr hr.inodes, hr.writes]
      simp only [apply_nil]
      congr 1
      unfold inodesAfterMove
      by_cases hpq : p = q <;> simp [hpq]
    rw [hbatch]
    refine (Relation.ReflTransGen.single hr.txn).tail ?_
    refine .move crossing ts ⟨?_, ?_, ?_, ?_⟩ hr.dir hdir.1 ?_ hcross ?_ hsub hid'
    · by_cases hpq : p = q
      · rw [hpq, if_pos rfl]; exact hr.dir
      · rw [if_neg hpq, hr.other p hpq hpd]; exact hsrc.hdir
    · by_cases hpq : p = q
      · rw [if_pos hpq]; exact hdir.1
      · rw [if_neg hpq]; exact hsrc.hisDir
    · rw [hr.dirents, get?_erase_of_ne _ (by simpa using hkeys)]
      exact hsrc.hentry
    · rw [hr.other _ hsq hsd]; exact hsrc.hchild
    · rw [hr.dirents, get?_erase_self]
    · intro hc
      have hqs := parent_isSome_of_dir hq hqDir
      refine (hwalk hc).congr_on
        (D := fun x => (db.dirs.parent x).isSome ∧ x ≠ d.childIno) ⟨hqs, hdq.symm⟩ ?_ ?_
      · rintro x ⟨hx, _⟩ hroot
        refine ⟨dirs_up_isSome hT.isTree hx hroot, ?_⟩
        -- nothing is below the target
        intro hup
        obtain ⟨y, hy⟩ := Option.isSome_iff_exists.mp hx
        have hy' : y = d.childIno := by
          rw [← hup, ← dirs_up hx, Dirs.IsTree.up_of_parent hy]
        obtain ⟨e, he⟩ := hT.isTree.named x y hy hroot
        have hdirT : (db.dirs.parent d.childIno).isSome := hy' ▸ hT.isTree.holder _ _ _ he
        by_cases hk : target.kind = .dir
        · rw [hy', dirs_entry, htarget hk] at he
          cases he
        · rw [dirs_parent_of_not_dir hn.hchild hk] at hdirT
          cases hdirT
      · rintro x ⟨_, hxd⟩
        unfold up
        by_cases hxq : x = q
        · rw [hxq, hr.dir, hq]; exact hdir.2
        · rw [hr.other x hxq hxd]

/-! ## The program -/

section Program

variable {T : Db → Db → Prop} {E : Abort → Db → Prop}

lemma wp_replaceTarget {creds : Credentials} {q : Ino} {newName : Bytes} {newDir moved : Inode}
    {ts : Timespec} {dst : Option Dirent} {Q : Replaced → Db → Prop}
    (hdst : db.dirents.get? (toLex (q, v.names.sealName q newName)) = dst)
    (hq : db.inodes.get? q = some newDir) (hqDir : newDir.kind = .dir) (hE : ∀ e, E e db)
    (hQ : ∀ rep, ReplacedBy v db q newName newDir dst rep →
      (moved.kind = .dir → ∀ d, dst = some d →
        rep.newDir = { newDir with nlink := newDir.nlink - 1 }) → Q rep db) :
    wp (M.steps T) Q E (replaceTarget v creds q newName newDir moved ts dst) db := by
  cases dst with
  | none => exact hQ _ (.free hdst) (fun _ d hd => by cases hd)
  | some d =>
    simp only [replaceTarget, wp_bind, wp_mapErr, wp_loadInode, wp_ofExcept]
    refine ⟨?_, fun _ => hE _⟩
    intro target htarget
    have hn : Names v db q newDir newName d target := ⟨hq, hqDir, hdst, htarget⟩
    refine ⟨fun _ _ => ?_, fun _ _ => hE _⟩
    split
    · exact hE _
    · exact hE _
    · rename_i hm ht
      simp only [wp_bind, wp_scanDirents, wp_ite, wp_fail, wp_pure]
      refine ⟨fun _ => hE _, fun hempty => ?_⟩
      exact hQ _ (.dir hn (isDir_iff.mp ht) (direntsOf_eq_nil (by simpa using hempty)))
        (fun _ _ _ => rfl)
    · rename_i hm ht
      have hkind : target.kind ≠ .dir := fun h => by rw [isDir_of_eq h] at ht; cases ht
      have hmoved : moved.kind ≠ .dir := fun h => by rw [isDir_of_eq h] at hm; cases hm
      simp only [wp_bind, wp_pure]
      refine wp_dropLink ?_ ?_ ?_
      · intro _ hlast _
        exact hQ _ (.opened _ hn hkind hlast) (fun h => absurd h hmoved)
      · intro hlast _
        exact hQ _ (.gone hn hkind hlast) (fun h => absurd h hmoved)
      · intro hlast
        exact hQ _ (.keep _ hn hkind hlast) (fun h => absurd h hmoved)

end Program

/-- A node buried for good is not in the store after the rename. -/
lemma ReplacedBy.gone_after (ts : Timespec) (hsrc : Names v db p oldDir oldName src moved)
    (hchild : dst.map Dirent.childIno ≠ some src.childIno)
    (hrep : ReplacedBy v db q newName newDir dst rep) {ino : Ino} (hreap : rep.reap = some ino) :
    (db.apply (renameBatch v p oldName q newName src oldDir moved rep crossing ts)).inodes.get? ino
      = none := by
  cases hrep with
  | @gone d target hn hkind hlast =>
    simp only [Option.some.injEq] at hreap
    subst hreap
    have hdq := hn.child_ne_parent hkind
    have hdp : d.childIno ≠ p := (ne_of_dir hsrc.hdir hsrc.hisDir hn.hchild hkind).symm
    have hds : d.childIno ≠ src.childIno := fun h => hchild (by simp [h])
    rw [apply_renameBatch]
    simp only [apply_append, apply_buryGone, apply_dropEntry, inodesAfterMove]
    rw [get?_insert_of_ne _ _ hdq]
    split
    · rw [get?_insert_of_ne _ _ hds, get?_erase_self]
    · rw [get?_insert_of_ne _ _ hdp, get?_insert_of_ne _ _ hds, get?_erase_self]
  | _ => cases hreap

lemma wp_renameCommit {fuel : Nat} {Q : Unit → Db → Prop} {db₁ : Db}
    (hdb : db.apply (renameBatch v p oldName q newName src oldDir moved rep crossing ts) = db₁)
    (ht : T db db₁)
    (hreap : ∀ ino, rep.reap = some ino → wp (M.steps T) Q E (reapOrphanData fuel ino) db₁)
    (hQ : Q () db₁) : wp (M.steps T) Q E
      (renameCommit fuel v p oldName q newName src dst oldDir moved rep crossing ts) db := by
  subst hdb
  simp only [renameCommit, wp_bind, wp_commit, wp_attrsInsert, wp_ite]
  -- whatever is cached and counted afterwards, the database stays as committed
  refine ⟨Or.inr ht, fun _ => ?_, fun _ => ?_⟩
  all_goals
    cases dst <;>
      simp only [wp_bind, wp_attrsRemove, wp_insertNegative, wp_removeNegative, wp_reserveQuiet]
  all_goals
    intro _ _
    split
    · rename_i ino hino
      exact hreap ino hino
    · exact hQ

/-- What a rename asks of the guard. -/
structure Guard.allowsRename (G : Guard) (v : Volume) (db : Db) (p : Ino) (oldName : Bytes)
    (q : Ino)
    (newName : Bytes) : Prop where
  /-- It may add a sub-directory to its destination; one that replaces another takes
  that one's place in the count. -/
  subdir : ∀ src moved newDir, db.dirents.get? (toLex (p, v.names.sealName p oldName)) = some src →
    db.inodes.get? src.childIno = some moved → moved.kind = .dir → p ≠ q →
    db.inodes.get? q = some newDir → newDir.kind = .dir →
    G.subdir (match db.dirents.get? (toLex (q, v.names.sealName q newName)) with
      | some _ => newDir.nlink - 1
      | none => newDir.nlink)
  /-- It may replace a directory that has attributes. -/
  strand : ∀ d i, db.dirents.get? (toLex (q, v.names.sealName q newName)) = some d →
    db.inodes.get? d.childIno = some i → i.kind = .dir →
    (∀ n, db.xattrs.get? (toLex (d.childIno, n)) = none) ∨ G.strand db d.childIno

lemma avoids_of_climbed {T : Db → Db → Prop} {m cursor : Ino}
    (h : (M.track T).Climbed db m cursor) :
    Forest.Avoids db.up ROOT_INO m cursor := by
  induction h with
  | root hne => exact .root hne
  | @step cursor i hne hi _ ih =>
    refine .step hne ?_
    rwa [up, show db.inodes.get? cursor = some i from Track.get_of_knows hi]

lemma entry_of_entryId {o : Option Dirent} {d : Dirent} (h : entryId o = entryId (some d)) :
    ∃ d', o = some d' ∧ d'.childIno = d.childIno ∧ d'.direntId = d.direntId := by
  cases o with
  | none => cases h
  | some d' =>
    obtain ⟨hino, hid⟩ := Prod.mk.inj (Option.some.inj h)
    exact ⟨d', rfl, hino, hid⟩

/-- Of the entries only the numbers matter. -/
lemma renameRest_congr {fuel : Nat} {creds : Credentials} {src' : Dirent} {dst' : Option Dirent}
    (hino : src'.childIno = src.childIno) (hid : src'.direntId = src.direntId)
    (hdst : entryId dst' = entryId dst) :
    Track.renameRest fuel v creds p oldName q newName src dst oldDir newDir moved ts =
      Track.renameRest fuel v creds p oldName q newName src' dst' oldDir newDir moved ts := by
  cases src
  cases src'
  subst hino hid
  cases dst with
  | none =>
    obtain rfl := Option.map_eq_none_iff.mp hdst
    rfl
  | some d =>
    obtain ⟨d', rfl, hino', hid'⟩ := entry_of_entryId hdst
    cases d
    cases d'
    subst hino' hid'
    rfl

/-- What is known of the names that a rename is about is what is stored. -/
lemma stored_of_movable {src₀ : Dirent} {dst₀ : Option Dirent} {fuel : Nat} {creds : Credentials}
    (hk : (M.track T).Movable v p oldName q newName src₀ dst₀ oldDir newDir moved db) :
    ∃ src dst, Names v db p oldDir oldName src moved ∧ src.childIno = src₀.childIno ∧
      db.dirents.get? (toLex (q, v.names.sealName q newName)) = dst ∧
      dst.map Dirent.childIno ≠ some src.childIno ∧
      Track.renameRest fuel v creds p oldName q newName src₀ dst₀ oldDir newDir moved ts =
        Track.renameRest fuel v creds p oldName q newName src dst oldDir newDir moved ts := by
  obtain ⟨o, ho, hsrc₀⟩ := hk.source
  obtain ⟨src, rfl, hino, hid⟩ := entry_of_entryId hsrc₀
  obtain ⟨(dst : Option Dirent), hdst, hdst₀⟩ := hk.target
  refine ⟨src, dst, ⟨Track.get_of_knows hk.oldNode, isDir_iff.mp hk.oldIsDir,
    Track.get_of_knows ho, hino ▸ Track.get_of_knows hk.movedNode⟩, hino, Track.get_of_knows hdst,
    ?_, renameRest_congr hino hid hdst₀⟩
  have hsame := congrArg (Option.map Prod.fst) hdst₀
  simp only [entryId, Option.map_map, Function.comp_def] at hsame
  rw [hsame, hino]
  exact hk.other

lemma rename_keeps (hT : Tree db) (fuel : Nat) (creds : Credentials)
    (hG : G.allowsRename v db p oldName q newName)
    (hid : ∀ i, db.inodes.get? q = some i → G.entry i.nextDirentId) :
    Keeps v G M (rename fuel v creds p oldName q newName) db := by
  refine Track.wp_alone.mp (Track.wp_rename (Track.atRest_alone fun _ => trivial)
    (Track.quiet_ofCalls _) trivial (fun src₀ dst₀ fuel oldDir newDir moved ts =>
      Track.under_alone fun hk => ?_) fuel)
  change (M.track _).Movable v p oldName q newName src₀ dst₀ oldDir newDir moved db at hk
  obtain ⟨src, dst, hn, hino, hdst, hchild, hrest⟩ := stored_of_movable hk
  have hnew : db.inodes.get? q = some newDir := Track.get_of_knows hk.newNode
  have hnewDir := isDir_iff.mp hk.newIsDir
  rw [hrest, Track.renameRest, wp_bind]
  refine wp_replaceTarget hdst hnew hnewDir (fun _ => trivial) fun rep hrep hnl => ?_
  refine wp_renameCommit rfl ?_ (fun ino hr =>
    wp_reap_keeps fuel (hrep.gone_after _ hn hchild hr) trivial) trivial
  refine rename_txns hT _ hn hnew hnewDir hk.same hk.apart hchild rfl
    (fun hc => hino ▸ avoids_of_climbed (hk.walked hc)) hrep ?_
    (fun d i hd => hG.strand d i (hdst.trans hd)) (hid newDir hnew)
  intro hc
  obtain ⟨hdir, hpq⟩ : moved.kind = .dir ∧ p ≠ q := by
    simpa [isDir_iff] using hc
  have hsub := hG.subdir src moved newDir hn.hentry hn.hchild hdir hpq hnew hnewDir
  rw [hdst] at hsub
  cases dst with
  | none => cases hrep; exact hsub
  | some d => rw [hnl hdir d rfl]; exact hsub

end SlateFs
