import SlateFs.Seq.Links

/-!
# Link counts of directories

A directory has two links of its own and one from each sub-directory. That the
directories form a tree holds in every run (`Tree.txn`); the count holds as long
as it fits in its 32 bits, because `mkdir` and `rename` add to it unchecked.
-/

namespace SlateFs

open OrdMap FsM

/-- The link count of a directory. -/
def dirLinks (i : Inode) : Option UInt32 := if i.kind.isDir then some i.nlink else none

def Db.dirLinks (db : Db) (x : Ino) : Option UInt32 := (db.inodes.get? x).bind SlateFs.dirLinks

/-- How many entries of a directory are for directories. -/
def Db.dirEntries (db : Db) (p : Ino) : Nat :=
  db.dirents.count (fun k d => (ofLex k).1 = p && d.kind.isDir)

/-- Every directory has two links and one for each of its sub-directories. -/
def Counted (db : Db) : Prop := ∀ x n, db.dirLinks x = some n → n.toNat = 2 + db.dirEntries x

variable {v : Volume} {G : Guard} {db db' : Db} {x : Ino}
variable {i child dir : Inode} {p : Ino} {k : FileKind} {m : OrdMap (Ino ×ₗ Bytes) Dirent}
  {d : Dirent} {n : UInt32} {name : Bytes}

lemma dirLinks_of_dir (h : i.kind = .dir) : dirLinks i = some i.nlink := by
  simp [dirLinks, isDir_of_eq h]

lemma dirLinks_of_leaf (h : i.kind ≠ .dir) : dirLinks i = none := by
  simp [dirLinks, isDir_of_ne h]

lemma dirLinks_alike {i' : Inode} (h : i'.Alike i) : dirLinks i' = dirLinks i := by
  simp [dirLinks, h.kind, h.nlink]

lemma Db.dirLinks_of_dir (hi : db.inodes.get? x = some i) (h : i.kind = .dir) :
    db.dirLinks x = some i.nlink := by
  rw [Db.dirLinks, hi, Option.bind_some, SlateFs.dirLinks_of_dir h]

/-- What an entry adds to the count of directory `x`. -/
def addsTo (x p : Ino) (k : FileKind) : Nat := if p = x ∧ k.isDir then 1 else 0

lemma addsTo_self (h : k.isDir = true) : addsTo p p k = 1 := by
  simp [addsTo, h]

lemma addsTo_leaf {x : Ino} (h : k.isDir = false) : addsTo x p k = 0 := by
  simp [addsTo, h]

lemma addsTo_ne {x : Ino} (h : x ≠ p) : addsTo x p k = 0 := by
  simp [addsTo, Ne.symm h]

lemma dirEntries_insert {e : Bytes} (d : Dirent) (h : m.get? (toLex (p, e)) = none) (x : Ino) :
    (m.insert (toLex (p, e)) d).count (fun k d => (ofLex k).1 = x && d.kind.isDir) =
      m.count (fun k d => (ofLex k).1 = x && d.kind.isDir) + addsTo x p d.kind := by
  rw [count_insert _ h]
  by_cases hp : p = x <;> simp [addsTo, hp]

lemma dirEntries_erase {e : Bytes} (h : m.get? (toLex (p, e)) = some d) (x : Ino) :
    m.count (fun k d => (ofLex k).1 = x && d.kind.isDir) =
      (m.erase (toLex (p, e))).count (fun k d => (ofLex k).1 = x && d.kind.isDir)
        + addsTo x p d.kind := by
  rw [count_erase _ h]
  by_cases hp : p = x <;> simp [addsTo, hp]

/-! ## Transactions -/

lemma Counted.congr (h : Counted db) (hl : ∀ x, db'.dirLinks x = db.dirLinks x)
    (hd : ∀ x, db'.dirEntries x = db.dirEntries x) : Counted db' := by
  intro x n hn
  rw [hd]
  exact h x n (hl x ▸ hn)

lemma Counted.rewrite (h : Counted db) {ino : Ino} {i' : Inode} (hi : db.inodes.get? ino = some i)
    (hl : dirLinks i' = dirLinks i) (hin : db'.inodes = db.inodes.insert ino i')
    (hd : db'.dirents = db.dirents) : Counted db' := by
  refine h.congr ?_ (fun x => by rw [Db.dirEntries, hd]; rfl)
  intro x
  rw [Db.dirLinks, hin, read_insert hi hl]
  rfl

lemma toNat_succ (h : n.toNat + 1 < 2 ^ 32) : (n + 1).toNat = n.toNat + 1 := by
  exact Nat.mod_eq_of_lt h

lemma toNat_pred (h : 1 ≤ n.toNat) : (n - 1).toNat = n.toNat - 1 := by
  rw [UInt32.toNat_sub_of_le]
  · rfl
  · rw [UInt32.le_iff_toNat_le]; exact h

lemma Counted.insertNode (h : Counted db) {c : Ino} {parent : Inode} (target : Option Bytes)
    (ts : Timespec) (hins : Inserts v db p parent name c child)
    (hroom : child.kind.isDir → parent.nlink.toNat + 1 < 2 ^ 32) :
    Counted (db.apply (insertNodeBatch v p parent name c child target ts)) := by
  obtain ⟨hparent, hdir, hfree, hnew, hchild⟩ := hins
  rw [apply_insertNodeBatch]
  have hc0 : db.dirEntries c = 0 := by
    refine count_eq_zero.mpr ?_
    intro k d hk
    by_cases hkc : (ofLex k).1 = c
    · have := hnew.entry (ofLex k).2
      rw [← hkc] at this
      exact nomatch this.symm.trans hk
    · simp [hkc]
  intro x n hn
  rw [Db.dirLinks, get?_insert, get?_insert] at hn
  rw [Db.dirEntries, dirEntries_insert _ hfree, ← Db.dirEntries]
  have hp := h p _ (Db.dirLinks_of_dir hparent hdir)
  split at hn
  · -- the parent
    rename_i hx
    rw [hx]
    cases hk : child.kind.isDir with
    | true =>
      have hn' : n = parent.nlink + 1 := by
        simpa [dirLinks, parentWithChild, hk, Inode.touchMtime, isDir_of_eq hdir] using hn.symm
      rw [hn', toNat_succ (hroom hk), addsTo_self hk]
      omega
    | false =>
      have hn' : n = parent.nlink := by
        simpa [dirLinks, parentWithChild, hk, Inode.touchMtime, isDir_of_eq hdir] using hn.symm
      rw [hn', addsTo_leaf hk]
      omega
  · rename_i hxp
    rw [addsTo_ne hxp, Nat.add_zero]
    split at hn
    · -- the new node has no entries yet
      rename_i hx
      have hk : child.kind.isDir = true := by
        by_contra hk
        simp [dirLinks, hk] at hn
      have hn' : n = 2 := by
        simpa [dirLinks, hk, hchild.nlink] using hn.symm
      rw [hx, hc0, hn']; rfl
    · exact h x n hn

lemma Counted.link (h : Counted db) {ino : Ino} {i' : Inode} (ts : Timespec)
    (hj : Joins v db ino i i' p dir name) :
    Counted (db.apply (linkBatch v ino i' p dir name ts)) := by
  rw [apply_linkBatch]
  have hk' : i'.kind.isDir = false := by rw [hj.hi'.kind]; exact isDir_of_ne hj.hkind
  have hil : dirLinks i' = dirLinks i := by
    rw [dirLinks_of_leaf hj.hkind, dirLinks, hk']; rfl
  have hdir' : (db.inodes.insert ino i').get? p = some dir := by
    rw [get?_insert_of_ne _ _ hj.ne]; exact hj.hdir
  have hpw : dirLinks (dirWithEntry dir ts) = dirLinks dir := rfl
  refine h.congr ?_ ?_
  · intro x
    rw [Db.dirLinks, read_insert hdir' hpw, read_insert hj.hi hil]
    rfl
  · intro x
    rw [Db.dirEntries, dirEntries_insert _ hj.hfree, addsTo_leaf hk']
    rfl

lemma Counted.unlink (h : Counted db) (hT : Tree db) (hn : Names v db p dir name d child)
    (hkind : child.kind ≠ .dir)
    (hd : db'.dirents = db.dirents.erase (toLex (p, v.names.sealName p name)))
    (hl : ∀ x, db'.dirLinks x = db.dirLinks x) : Counted db' := by
  refine h.congr hl ?_
  intro x
  have hk : d.kind.isDir = false := (hT.entry_kind hn).trans (isDir_of_ne hkind)
  rw [Db.dirEntries, hd, Db.dirEntries, dirEntries_erase hn.hentry x, addsTo_leaf hk]
  rfl

lemma Counted.rmdir (h : Counted db) (hT : Tree db) {dir' : Inode}
    (hn : Names v db p dir name d child) (hkind : child.kind = .dir)
    (hdir' : dir'.Alike { dir with nlink := dir.nlink - 1 }) :
    Counted (db.apply (dropEntry v p name d.direntId
      ++ [.delete (.inode d.childIno), .put (.inode p) dir', .mergeInodes (-1)])) := by
  rw [apply_dropDir]
  have hk : d.kind.isDir = true := (hT.entry_kind hn).trans (isDir_of_eq hkind)
  have hcount := dirEntries_erase hn.hentry
  intro x n hl
  show n.toNat = 2 + (db.dirents.erase (toLex (p, v.names.sealName p name))).count _
  have hx := hcount x
  rw [← Db.dirEntries] at hx
  rw [Db.dirLinks, get?_insert] at hl
  split at hl
  · rename_i hxp
    have hp := h p _ (Db.dirLinks_of_dir hn.hdir hn.hisDir)
    rw [hxp, addsTo_self hk] at hx
    have hn' : n = dir.nlink - 1 := by
      have hk' : dir'.kind = .dir := hdir'.kind.trans hn.hisDir
      rw [Option.bind_some, dirLinks_of_dir hk', hdir'.nlink] at hl
      exact (Option.some.inj hl).symm
    rw [hn', hxp, toNat_pred (by omega)]
    omega
  · rename_i hxp
    rw [addsTo_ne hxp] at hx
    rw [get?_erase] at hl
    split at hl
    · cases hl
    · have := h x n hl
      omega

lemma Counted.move (h : Counted db) (hT : Tree db) {q : Ino} {oldName newName : Bytes}
    {src : Dirent} {oldDir newDir moved : Inode} {crossing : Bool} (ts : Timespec)
    (hm : Moves v db p oldName q newName src oldDir newDir moved crossing)
    (hroom : crossing → newDir.nlink.toNat + 1 < 2 ^ 32) :
    Counted (db.apply (renameBatch v p oldName q newName src oldDir moved ⟨[], newDir, none, 0, 0⟩
      crossing ts)) := by
  obtain ⟨hsrc, hq, hqDir, hfree, hcross, -⟩ := hm
  rw [apply_renameBatch]
  simp only [Db.apply_nil]
  have hk : src.kind.isDir = moved.kind.isDir := hT.entry_kind hsrc
  have hget := get?_inodesAfterMove db.inodes p q src oldDir newDir moved crossing ts
  have hfree' : (db.dirents.erase (toLex (p, v.names.sealName p oldName))).get?
      (toLex (q, v.names.sealName q newName)) = none := get?_erase_none _ hfree
  have hp := h p _ (Db.dirLinks_of_dir hsrc.hdir hsrc.hisDir)
  have hqc := h q _ (Db.dirLinks_of_dir hq hqDir)
  intro x n hl
  -- one entry went and one came
  have hx := dirEntries_erase hsrc.hentry x
  rw [← Db.dirEntries] at hx
  rw [Db.dirEntries, dirEntries_insert _ hfree']
  have hadd : ∀ a b, addsTo a b src.kind = addsTo a b moved.kind := by
    intro a b; simp only [addsTo, hk]
  rw [hadd] at hx
  rw [Db.dirLinks, hget] at hl
  cases hc : crossing with
  | false =>
    -- the entry stays in its directory, or is not counted
    have hsame : addsTo x p moved.kind = addsTo x q moved.kind := by
      rw [hc] at hcross
      by_cases hpq : p = q
      · rw [hpq]
      · have hleaf : moved.kind.isDir = false := by simpa [hpq] using hcross
        rw [addsTo_leaf hleaf, addsTo_leaf hleaf]
    rw [← hsame, ← hx]
    refine h x n ?_
    rw [hc] at hl
    split at hl
    · rename_i hxq; rw [hxq, Db.dirLinks, hq]; exact hl
    split at hl
    · rename_i hxp; rw [hxp, Db.dirLinks, hsrc.hdir]; exact hl
    split at hl
    · rename_i hxs; rw [hxs, Db.dirLinks, hsrc.hchild]; exact hl
    · exact hl
  | true =>
    obtain ⟨hkm, hpq⟩ : moved.kind.isDir = true ∧ p ≠ q := by simpa [hc] using hcross.symm
    rw [hc] at hl
    split at hl
    · rename_i hxq
      have hn' : n = newDir.nlink + 1 := by
        simpa [dirLinks, newDirAfter, Inode.touchMtime, isDir_of_eq hqDir] using hl.symm
      rw [hxq, addsTo_ne (Ne.symm hpq)] at hx
      rw [hn', hxq, toNat_succ (hroom hc), addsTo_self hkm]
      omega
    · rename_i hxq
      rw [addsTo_ne hxq]
      split at hl
      · rename_i hxp
        rw [hxp, addsTo_self hkm] at hx
        have hn' : n = oldDir.nlink - 1 := by
          simpa [dirLinks, oldDirAfter, Inode.touchMtime, isDir_of_eq hsrc.hisDir] using hl.symm
        rw [hn', hxp, toNat_pred (by omega)]
        omega
      · rename_i hxp
        rw [addsTo_ne hxp] at hx
        have hxn : db.dirLinks x = some n := by
          split at hl
          · rename_i hxs; rw [hxs, Db.dirLinks, hsrc.hchild]; exact hl
          · exact hl
        have := h x n hxn
        omega

/-- **Every transaction keeps the link counts of directories**, as long as they have room. -/
theorem Counted.txn (h : Counted db) (hT : Tree db)
    (hG : ∀ n, G.subdir n → n.toNat + 1 < 2 ^ 32) (ht : Txn v G db db') : Counted db' := by
  cases ht with
  | lease n => exact h
  | touch hi hal => exact h.rewrite hi (dirLinks_alike hal) rfl rfl
  | setXattr name value hi => exact h
  | dropXattr ino name => exact h
  | insertNode target ts hparent hdir hfree hnew _ hchild hsub _ _ =>
    exact h.insertNode target ts ⟨hparent, hdir, hfree, hnew, hchild⟩ (fun hk => hG _ (hsub hk))
  | link ts hi hkind hdir hisDir hfree hroom hi' _ _ =>
    exact h.link ts ⟨hi, hkind, hdir, hisDir, hfree, hi'⟩
  | unlinkKeep hn hkind hdir' hlast hchild' =>
    have hc := dirLinks_of_leaf hkind
    exact h.unlink hT hn hkind rfl (hn.read_put (dirLinks_alike hdir') hc
      ((dirLinks_alike hchild').trans (dirLinks_of_leaf hkind)))
  | unlinkOpen ts hn hkind hdir' hlast =>
    have hc := dirLinks_of_leaf hkind
    exact h.unlink hT hn hkind rfl
      (hn.read_put (dirLinks_alike hdir') hc (dirLinks_of_leaf hkind))
  | unlinkGone hn hkind hdir' hlast =>
    exact h.unlink hT hn hkind rfl (hn.read_drop (dirLinks_alike hdir') (dirLinks_of_leaf hkind))
  | rmdir hn hkind hempty hdir' _ => exact h.rmdir hT hn hkind hdir'
  | move crossing ts hsrc hnew hnewDir hfree hcross hwalk hsub _ =>
    exact h.move hT ts ⟨hsrc, hnew, hnewDir, hfree, hcross, hwalk⟩ (fun hc => hG _ (hsub hc))
  | write hi hkind hdata hmax hi' _ =>
    rw [apply_writeBatch]
    exact h.rewrite hi ((dirLinks_alike hi').trans rfl) rfl rfl
  | truncate hi hkind hne hcs hi' _ =>
    rw [apply_truncateBatch]
    exact h.rewrite hi ((dirLinks_alike hi').trans rfl) rfl rfl
  | spill hi hidx => exact h
  | @finish ino i hi hmark =>
    refine h.congr (read_erase ?_) (fun _ => rfl)
    rw [hi, Option.bind_some, dirLinks_of_leaf (hT.marked_leaf hi hmark)]
  | reap hgone hr => cases hr <;> exact h

lemma mkfs_counted (ts : Timespec) : Counted (mkfs ts) := by
  intro x n hn
  rw [Db.dirLinks, mkfs_inodes] at hn
  split at hn
  · have : n = 2 := by simpa [dirLinks, rootInode, Inode.new, FileKind.isDir] using hn.symm
    rw [this]; rfl
  · cases hn

/-! ## Runs -/

/-- How many entries of a directory name a directory. -/
def Db.subdirs (db : Db) (p : Ino) : Nat :=
  db.dirents.count (fun k d =>
    (ofLex k).1 = p && (db.inodes.get? d.childIno).any (fun i => i.kind.isDir))

def Db.isDirectory (db : Db) (x : Ino) : Prop := ∃ i, db.inodes.get? x = some i ∧ i.kind = .dir

/-- The directories form one tree below the root, and each counts its sub-directories. -/
structure DirTree (db : Db) : Prop where
  root : db.isDirectory ROOT_INO
  /-- No entry names the root. -/
  root_unnamed : ∀ k d, db.dirents.get? k = some d → d.childIno ≠ ROOT_INO
  /-- Another directory has exactly one entry, in the directory its `parent_dir` says. -/
  named : ∀ x i, db.inodes.get? x = some i → i.kind = .dir → x ≠ ROOT_INO →
    db.isDirectory i.parentDir ∧ ∃ e d, db.dirents.get? (toLex (i.parentDir, e)) = some d
      ∧ d.childIno = x
      ∧ ∀ k d', db.dirents.get? k = some d' → d'.childIno = x → k = toLex (i.parentDir, e)
  /-- Following `parent_dir` leads through directories to the root and never repeats. -/
  path : ∀ x, db.isDirectory x → ∃ path, Forest.Path db.up ROOT_INO x path ∧ path.Nodup
    ∧ ∀ y ∈ path, db.isDirectory y
  /-- A directory has two links and one for each sub-directory. -/
  links : ∀ x i, db.inodes.get? x = some i → i.kind = .dir → i.nlink.toNat = 2 + db.subdirs x

lemma isDirectory_iff : db.isDirectory x ↔ (db.dirs.parent x).isSome := by
  constructor
  · rintro ⟨i, hi, hk⟩
    exact parent_isSome_of_dir hi hk
  intro h
  rw [dirs_parent] at h
  cases hi : db.inodes.get? x with
  | none => rw [hi] at h; cases h
  | some i =>
    refine ⟨i, hi, ?_⟩
    by_contra hk
    rw [hi, Option.bind_some, dirParent, isDir_of_ne hk] at h
    cases h

lemma kind_iff_of_isTree (hT : db.dirs.IsTree ROOT_INO) {k : Ino ×ₗ Bytes}
    (hk : db.dirents.get? k = some d) : d.kind.isDir = true ↔ db.isDirectory d.childIno := by
  have he : db.dirs.entry (ofLex k) = some (d.childIno, d.kind.isDir) := by
    rw [dirs_entry, toLex_ofLex, hk]; rfl
  rw [isDirectory_iff]
  cases hd : d.kind.isDir with
  | true =>
    have := hT.child (ofLex k).1 (ofLex k).2 _ (hd ▸ he)
    rw [this]; simp
  | false => simp [hT.leaf _ _ (hd ▸ he)]

lemma path_of_isTree (hT : db.dirs.IsTree ROOT_INO) (hx : db.isDirectory x) :
    ∃ path, Forest.Path db.up ROOT_INO x path ∧ path.Nodup ∧ ∀ y ∈ path, db.isDirectory y := by
  have hclimb : Forest.Climbs db.up ROOT_INO x := by
    refine (hT.climbs x (isDirectory_iff.mp hx)).congr_on
      (D := fun x => (db.dirs.parent x).isSome) (isDirectory_iff.mp hx) ?_ ?_
    · intro y hy hr
      rw [dirs_up hy]; exact dirs_up_isSome hT hy hr
    · intro y hy
      exact (dirs_up hy).symm
  obtain ⟨path, hpath⟩ := hclimb.path
  refine ⟨path, hpath, hpath.nodup, hpath.forall hx ?_⟩
  intro y hy hr
  exact isDirectory_iff.mpr (dirs_up_isSome hT (isDirectory_iff.mp hy) hr)

lemma dirTree_of_isTree (hT : db.dirs.IsTree ROOT_INO) (hC : Counted db) : DirTree db where
  root := isDirectory_iff.mpr hT.root_dir
  root_unnamed k d hk hd := by
    refine hT.root_unnamed (ofLex k) d.kind.isDir ?_
    rw [dirs_entry, toLex_ofLex, hk, ← hd]; rfl
  named x i hi hk hr := by
    have hp := dirs_parent_of_dir hi hk
    obtain ⟨e, he⟩ := hT.named x _ hp hr
    have hholder := hT.holder _ _ _ he
    obtain ⟨d, hd, hdx⟩ := Option.map_eq_some_iff.mp he
    obtain ⟨hdc, hdk⟩ := Prod.mk.inj hdx
    refine ⟨isDirectory_iff.mpr hholder, e, d, hd, hdc, ?_⟩
    intro k d' hk' hc
    have hdir : db.isDirectory d'.childIno := hc ▸ ⟨i, hi, hk⟩
    have he' : db.dirs.entry (ofLex k) = some (x, true) := by
      rw [dirs_entry, toLex_ofLex, hk', Option.map_some, entryOf, hc,
        (kind_iff_of_isTree hT hk').mpr hdir]
    have := hT.unique _ (i.parentDir, e) _ he' (by rw [dirs_entry]; exact he)
    rw [← this, toLex_ofLex]
  path x hx := path_of_isTree hT hx
  links x i hi hk := by
    rw [hC x _ (Db.dirLinks_of_dir hi hk), Db.dirEntries, Db.subdirs]
    congr 1
    refine count_congr ?_
    intro k d hd
    congr 1
    rw [Bool.eq_iff_iff, kind_iff_of_isTree hT hd, Db.isDirectory]
    cases db.inodes.get? d.childIno with
    | none => simp
    | some c => simp [isDir_iff]

/-- `u32::MAX` -/
def U32_MAX : UInt32 := 0xFFFFFFFF

/-- The entry, if there is one, names a directory. -/
def Db.namesDir (db : Db) (k : Ino ×ₗ Bytes) : Bool :=
  (db.dirents.get? k).any (fun d => (db.inodes.get? d.childIno).any (fun i => i.kind.isDir))

/--
The call does not give a directory with `u32::MAX` links one more sub-directory.
A directory moved over another one takes its place and adds nothing.
-/
def Op.subdirFits (v : Volume) : Op → St → Bool
  | .mkdir p _ _, s => (s.db.inodes.get? p).all (fun i => i.nlink ≠ U32_MAX)
  | .rename p n q m, s =>
    p = q || !s.db.namesDir (toLex (p, v.names.sealName p n))
    || (s.db.dirents.get? (toLex (q, v.names.sealName q m))).isSome
    || (s.db.inodes.get? q).all (fun i => i.nlink ≠ U32_MAX)
  | _, _ => true

lemma room_of_ne_max (h : n ≠ U32_MAX) : n.toNat + 1 < 2 ^ 32 := by
  have hlt := n.toNat_lt
  have hne : n.toNat ≠ 2 ^ 32 - 1 := fun h' => h (UInt32.toNat_inj.mp h')
  omega

/-- What fits by the call's own reading of the store fits by the guard's. -/
lemma Op.subdirFits_meets {s : St} {op : Op} (hC : Counted s.db) (h : op.subdirFits v s) :
    op.Meets { Guard.any with subdir := fun n => n.toNat + 1 < 2 ^ 32 } v s.db := by
  refine ⟨?_, fun _ _ _ _ => trivial⟩
  cases op with
  | mkdir p n m =>
    intro i hi
    refine room_of_ne_max ?_
    simpa [Op.subdirFits, hi] using h
  | rename p n q m =>
    refine ⟨?_, fun _ _ _ _ _ => .inr trivial⟩
    intro src moved newDir hsrc hmoved hk hpq hq hqDir
    have hdir : s.db.namesDir (toLex (p, v.names.sealName p n)) = true := by
      simp [Db.namesDir, hsrc, hmoved, isDir_of_eq hk]
    simp only [Op.subdirFits, hdir, hpq, hq, decide_false, Bool.not_true, Bool.false_or,
      Option.all_some, Bool.or_eq_true, decide_eq_true_eq] at h
    cases hdst : s.db.dirents.get? (toLex (q, v.names.sealName q m)) with
    | some d =>
      -- the replaced directory's link is taken off first
      show (newDir.nlink - 1).toNat + 1 < 2 ^ 32
      have := hC q _ (Db.dirLinks_of_dir hq hqDir)
      have := newDir.nlink.toNat_lt
      rw [toNat_pred (by omega)]
      omega
    | none =>
      rw [hdst] at h
      exact room_of_ne_max (h.resolve_left (by simp))
  | setattr => exact fun _ _ _ _ => trivial
  | write => exact fun _ _ => trivial
  | link => exact fun _ _ => trivial
  | _ => trivial

/-- **The directories form a tree and count their sub-directories** in every state of a run that
never overflows a count. -/
theorem dir_tree {v : Volume} {ts : Timespec} {limits : QuotaLimits} {s : St}
    (h : Reached v (fun op s => op.subdirFits v s) (freshVolume ts limits) s) : DirTree s.db := by
  obtain ⟨hs, hC⟩ := Reached.txns
     (freshVolume_sound ts limits)
    (mkfs_counted ts) (fun op s _ hC hop => Op.subdirFits_meets hC hop)
    (fun F db db' hT hJ ht => hJ.txn hT (fun n hn => hn) ht) h
  exact dirTree_of_isTree hs.tree.isTree hC

/-- A directory with a sub-directory is moved over an empty one. -/
theorem dir_tree_after_rename : ∃ s, Reached Volume.plain
    (fun op s => op.subdirFits Volume.plain s) (freshVolume ⟨0, 0⟩ {}) s
    ∧ s.db.subdirs 2 = 1 ∧ s.db.up 4 = 3 ∧ s.db.up 3 = 2 ∧ DirTree s.db := by
  obtain ⟨s, hs, h2, h4, h3⟩ := Rests.of_runAll Volume.plain
    (fun op s => op.subdirFits Volume.plain s) .still 9 .root
    [.mkdir 1 [97] 0o755, .mkdir 1 [98] 0o755, .mkdir 3 [99] 0o755, .mkdir 2 [100] 0o755,
      .rename 1 [98] 2 [100]] (freshVolume ⟨0, 0⟩ {})
    (fun s => s.db.subdirs 2 = 1 ∧ s.db.up 4 = 3 ∧ s.db.up 3 = 2) (by decide +kernel)
  exact ⟨s, .rest hs, h2, h4, h3, dir_tree (.rest hs)⟩

/-! ## A root with too many sub-directories -/

/-- A name of 32 letters that spells a number in binary. -/
def binName (k : Nat) : Bytes := (List.range 32).map (fun j => if k.testBit j then 98 else 97)

lemma binName_inj {a b : Nat} (ha : a < 2 ^ 32) (hb : b < 2 ^ 32)
    (h : binName a = binName b) : a = b := by
  refine Nat.eq_of_testBit_eq ?_
  intro i
  by_cases hi : i < 32
  · have hat := List.map_inj_left.mp h i (List.mem_range.mpr hi)
    cases hai : a.testBit i <;> cases hbi : b.testBit i <;> simp_all
  · have hpow : 2 ^ 32 ≤ 2 ^ i := Nat.pow_le_pow_right (by decide) (by omega)
    rw [Nat.testBit_lt_two_pow (by omega), Nat.testBit_lt_two_pow (by omega)]

lemma validateName_binName (k : Nat) : validateName (binName k) = .ok () := by
  have hlen : (binName k).length = 32 := by simp [binName]
  have hmem : ∀ b ∈ binName k, b = 98 ∨ b = 97 := by
    intro b hb
    obtain ⟨j, _, rfl⟩ := List.mem_map.mp hb
    split
    · exact .inl rfl
    · exact .inr rfl
  have h1 : ¬(binName k = [] ∨ binName k = [46] ∨ binName k = [46, 46]) := by
    rintro (h | h | h) <;> rw [h] at hlen <;> simp at hlen
  have h2 : ¬(47 ∈ binName k ∨ 0 ∈ binName k) := by
    rintro (h | h) <;> rcases hmem _ h with h | h <;> cases h
  unfold validateName
  rw [if_neg h1, if_neg (by rw [hlen]; decide), if_neg h2]

/-- The root holds the first `k` of these names. -/
structure Crowded (k : Nat) (db : Db) : Prop where
  root : ∃ i, db.inodes.get? ROOT_INO = some i ∧ i.kind = .dir ∧ i.nlink = 2 + UInt32.ofNat k
  free : ∀ j, k ≤ j → j < 2 ^ 32 → db.dirents.get? (toLex (ROOT_INO, binName j)) = none

lemma Crowded.insert {db : Db} {k : Nat} (h : Crowded k db) (hk : k < 2 ^ 32) {c : Ino}
    {ts : Timespec} (hdir : i.kind = .dir) (hn : i.nlink = 2 + UInt32.ofNat k)
    (hc : child.kind.isDir = true) :
    Crowded (k + 1)
      (db.apply (insertNodeBatch Volume.plain ROOT_INO i (binName k) c child none ts)) where
  root := by
    refine ⟨parentWithChild i child ts, ?_, ?_, ?_⟩
    · exact get?_insert_self ..
    · simp only [parentWithChild, hc, if_true]; exact hdir
    · simp only [parentWithChild, hc, if_true, Inode.touchMtime, hn]
      rw [UInt32.add_assoc, UInt32.ofNat_add]
      rfl
  free j hj hlt := by
    refine get?_insert_ne ?_ (h.free j (by omega) hlt)
    intro he
    have : binName k = binName j := (Prod.mk.inj (toLex.injective he)).2
    have := binName_inj hk hlt this
    omega

lemma mkdir_crowded {db : Db} {k : Nat} (h : Crowded k db) (hk : k < 2 ^ 32) :
    wp (Oracle.granting.watch (fun _ _ => True) False) (fun _ db' => Crowded (k + 1) db')
      (fun _ _ => False) (mkdir Volume.plain .root ROOT_INO (binName k) 0o755) db := by
  obtain ⟨i, hi, hdir, hn⟩ := h.root
  have hfree : db.dirents.get?
      (toLex (ROOT_INO, Volume.plain.names.sealName ROOT_INO (binName k))) = none :=
    h.free k (le_refl _) hk
  have haccess : ∀ a, access .root i a = .ok () := fun a => rfl
  simp only [mkdir, wp_bind, validateName_binName, wp_withGuards, wp_loadDir, wp_direntOf]
  rw [wp_ofExcept]
  refine ⟨fun _ _ => ⟨?_, ?_, ?_⟩, fun e he => by cases he⟩
  · intro dir hd _
    obtain rfl : i = dir := Option.some.inj (hi.symm.trans hd)
    rw [haccess, wp_ofExcept]
    refine ⟨fun _ _ => ?_, fun e he => by cases he⟩
    rw [hfree]
    simp only [makeNode, wp_bind]
    refine wp_allocIno (fun _ => trivial) ?_
    intro c e _
    simp only [wp_now, insertNewNode, wp_bind, wp_reserve, wp_tryCommit, wp_attrsInsert,
      wp_removeNegative, wp_pure]
    refine fun ts => ⟨fun _ ts' => ⟨.inr trivial, ?_⟩, fun _ he => by cases he⟩
    have h' : Crowded k { db with nextIno := e } := ⟨⟨i, hi, hdir, hn⟩, h.free⟩
    exact h'.insert hk hdir hn rfl
  · intro j hj hnd
    exact absurd (Option.some.inj (hi.symm.trans hj) ▸ hdir) hnd
  · intro hnone
    rw [hi] at hnone
    cases hnone

/-- The root takes any number of sub-directories, and its count goes round. -/
lemma crowded_reached (k : Nat) (hk : k < 2 ^ 32) :
    ∃ s, Rests Volume.plain (fun _ _ => True) (freshVolume ⟨0, 0⟩ {}) s ∧ Crowded k s.db
      ∧ s.mem.quota.limits = {} := by
  induction k with
  | zero => exact ⟨_, .start, ⟨⟨rootInode ⟨0, 0⟩, rfl, rfl, rfl⟩, fun _ _ _ => rfl⟩, rfl⟩
  | succ k ih =>
    obtain ⟨s, hs, hc, hl⟩ := ih (by omega)
    have hw : wp (Oracle.granting.watch (fun _ _ => True) False)
        (fun _ db' => Crowded (k + 1) db') (fun _ _ => False)
        (Op.prog Volume.plain 0 .root (.mkdir ROOT_INO (binName k) 0o755)) s.db :=
      (wp_map _ _).mpr (mkdir_crowded hc (by omega))
    obtain ⟨r, s', hr, hl', hpost⟩ := granting_returns .still hw hl
    refine ⟨s', hs.call trivial hr, ?_, hl'⟩
    cases r with
    | ok a => exact hpost
    | error e => exact hpost.elim

/--
**The link count of a directory overflows.** `mkdir` adds to the parent's count
without a check, so after 2^32 - 2 of them in the root it reads zero.
-/
theorem subdir_count_overflows : ¬∀ s, Reached Volume.plain (fun _ _ => True)
    (freshVolume ⟨0, 0⟩ {}) s → DirTree s.db := by
  intro h
  obtain ⟨s, hs, hc, _⟩ := crowded_reached (2 ^ 32 - 2) (by decide)
  obtain ⟨i, hi, hdir, hn⟩ := hc.root
  have hlinks := (h s (.rest hs)).links ROOT_INO i hi hdir
  have hzero : i.nlink.toNat = 0 := by rw [hn]; decide
  omega

end SlateFs
