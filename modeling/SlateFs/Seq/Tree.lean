import SlateFs.Lib.Dirs
import SlateFs.Seq.Reap

/-!
# The directories form a tree

The directory records and entries of a volume, read as a hierarchy
(`SlateFs.Lib.Dirs`), and the proof that every transaction leaves it a tree.
-/

namespace SlateFs

open OrdMap

/-- A node's parent, if it is a directory. -/
def dirParent (i : Inode) : Option Ino := if i.kind.isDir then some i.parentDir else none

/-- The hierarchy stored in a volume. -/
def Db.dirs (db : Db) : Dirs Ino Bytes where
  parent x := (db.inodes.get? x).bind dirParent
  entry k := (db.dirents.get? (toLex k)).map (fun d => (d.childIno, d.kind.isDir))

/-- The directories form a tree, and no directory is marked as an orphan. -/
structure Tree (db : Db) : Prop where
  isTree : db.dirs.IsTree ROOT_INO
  unmarked : ∀ x, (db.orphans.get? x).isSome → db.dirs.parent x = none

/-! ## Reading the hierarchy -/

variable {db : Db} {x ino p : Ino} {i i' child dir oldDir newDir : Inode} {m : OrdMap Ino Inode}
  {k : FileKind} {name : Bytes} {d src : Dirent} {crossing : Bool}

lemma dirs_parent_of_dir (h : db.inodes.get? x = some i) (hk : i.kind = .dir) :
    db.dirs.parent x = some i.parentDir := by
  simp [Db.dirs, h, dirParent, hk, FileKind.isDir]

lemma isDir_of_eq (h : k = .dir) : k.isDir = true := by rw [h]; rfl

lemma isDir_of_ne (h : k ≠ .dir) : k.isDir = false := by
  cases k <;> simp_all [FileKind.isDir]

lemma dirParent_of_leaf (hk : i.kind ≠ .dir) : dirParent i = none := by
  simp [dirParent, isDir_of_ne hk]

lemma dirs_parent_of_not_dir (h : db.inodes.get? x = some i) (hk : i.kind ≠ .dir) :
    db.dirs.parent x = none := by simp [Db.dirs, h, dirParent_of_leaf hk]

lemma dirs_parent_of_none (h : db.inodes.get? x = none) :
    db.dirs.parent x = none := by simp [Db.dirs, h]

lemma dirs_up (h : (db.dirs.parent x).isSome) : db.dirs.up x = db.up x := by
  unfold Dirs.up Db.up
  cases hi : db.inodes.get? x with
  | none => simp [Db.dirs, hi] at h
  | some i =>
    simp only [Db.dirs, hi, Option.bind_some, dirParent] at h ⊢
    split at h
    · simp [*]
    · simp at h

lemma dirParent_alike (h : i'.Alike i) : dirParent i' = dirParent i := by
  simp [dirParent, h.kind, h.parentDir]

variable {v : Volume} {G : Guard} {db db' : Db}

lemma read_insert {β : Type} {f : Inode → Option β} (hi : m.get? ino = some i) (h : f i' = f i)
    (x : Ino) :
    ((m.insert ino i').get? x).bind f = (m.get? x).bind f := by
  rw [get?_insert]
  split
  · rename_i hx; simp [hx, hi, h]
  · rfl

/-- Forgetting a node from which nothing is read keeps what is read from the others. -/
lemma read_erase {β : Type} {f : Inode → Option β} (h : (m.get? ino).bind f = none) (x : Ino) :
    ((m.erase ino).get? x).bind f = (m.get? x).bind f := by
  rw [get?_erase]
  split
  · rename_i hx; rw [hx, h]; rfl
  · rfl

/-! ## How the hierarchy changes under one write -/

/-- What an entry says of its child. -/
def entryOf (d : Dirent) : Ino × Bool := (d.childIno, d.kind.isDir)

lemma entry_insert (m : OrdMap (Ino ×ₗ Bytes) Dirent) (a k : Ino × Bytes) (d : Dirent) :
    ((m.insert (toLex a) d).get? (toLex k)).map entryOf =
      if k = a then some (entryOf d) else (m.get? (toLex k)).map entryOf := by
  rw [get?_insert]
  by_cases h : k = a <;> simp [h]

lemma entry_erase (m : OrdMap (Ino ×ₗ Bytes) Dirent) (a k : Ino × Bytes) :
    ((m.erase (toLex a)).get? (toLex k)).map entryOf =
      if k = a then none else (m.get? (toLex k)).map entryOf := by
  rw [get?_erase]
  by_cases h : k = a <;> simp [h]

lemma dirs_entry (db : Db) (k : Ino × Bytes) :
    db.dirs.entry k = (db.dirents.get? (toLex k)).map entryOf := rfl

lemma dirs_parent (db : Db) (x : Ino) :
    db.dirs.parent x = (db.inodes.get? x).bind dirParent := rfl

lemma parent_isSome_of_dir (h : db.inodes.get? x = some i) (hk : i.kind = .dir) :
    (db.dirs.parent x).isSome := by
  rw [dirs_parent_of_dir h hk]; rfl

/-- Entries of other kinds than directories come and go without touching the tree. -/
lemma Tree.leaves (h : Tree db) (hp : ∀ x, db'.dirs.parent x = db.dirs.parent x)
    (ho : ∀ x, (db'.orphans.get? x).isSome → (db.orphans.get? x).isSome ∨ db.dirs.parent x = none)
    (he : ∀ k, db'.dirs.entry k = db.dirs.entry k ∨ (∀ x, db.dirs.entry k ≠ some (x, true)) ∧
      ∀ x b, db'.dirs.entry k = some (x, b) →
        b = false ∧ (db.dirs.parent k.1).isSome ∧ db.dirs.parent x = none) : Tree db' where
  isTree := h.isTree.leaves hp he
  unmarked x hx := by
    rw [hp]
    rcases ho x hx with hx | hx
    · exact h.unmarked x hx
    · exact hx

/-- A change that keeps entries and directories keeps the tree. -/
lemma Tree.congr (h : Tree db) (hd : db'.dirents = db.dirents)
    (hp : ∀ x, db'.dirs.parent x = db.dirs.parent x)
    (ho : ∀ x, (db'.orphans.get? x).isSome → (db.orphans.get? x).isSome) : Tree db' :=
  h.leaves hp (fun x hx => .inl (ho x hx)) fun k => .inl (by rw [dirs_entry, hd]; rfl)

/-! ## What the transactions on names have checked -/

/-- A new node and the free name it takes. -/
structure Inserts (v : Volume) (db : Db) (p : Ino) (parent : Inode) (name : Bytes) (c : Ino)
    (child : Inode) : Prop where
  hparent : db.inodes.get? p = some parent
  hdir : parent.kind = .dir
  hfree : db.dirents.get? (toLex (p, v.names.sealName p name)) = none
  hnew : Unused db c
  hchild : NewNode p child

/-- A node that is no directory and the free name it takes besides its others. -/
structure Joins (v : Volume) (db : Db) (ino : Ino) (i i' : Inode) (p : Ino) (dir : Inode)
    (name : Bytes) : Prop where
  hi : db.inodes.get? ino = some i
  hkind : i.kind ≠ .dir
  hdir : db.inodes.get? p = some dir
  hisDir : dir.kind = .dir
  hfree : db.dirents.get? (toLex (p, v.names.sealName p name)) = none
  hi' : i'.Alike { i with nlink := i.nlink + 1 }

/-- A node, its name and the free name it moves to. -/
structure Moves (v : Volume) (db : Db) (p : Ino) (oldName : Bytes) (q : Ino) (newName : Bytes)
    (src : Dirent) (oldDir newDir moved : Inode) (crossing : Bool) : Prop where
  hsrc : Names v db p oldDir oldName src moved
  hq : db.inodes.get? q = some newDir
  hqDir : newDir.kind = .dir
  hfree : db.dirents.get? (toLex (q, v.names.sealName q newName)) = none
  hcross : crossing = (moved.kind.isDir && p ≠ q)
  hwalk : crossing → Forest.Avoids db.up ROOT_INO src.childIno q

lemma ne_of_dir (hp : db.inodes.get? p = some dir) (hdir : dir.kind = .dir)
    (hx : db.inodes.get? x = some i) (hkind : i.kind ≠ .dir) : p ≠ x := by
  rintro rfl
  rw [hx] at hp
  exact hkind (Option.some.inj hp ▸ hdir)

lemma Inserts.ne {c : Ino} {parent : Inode} (h : Inserts v db p parent name c child) : p ≠ c := by
  rintro rfl
  exact nomatch h.hnew.inode.symm.trans h.hparent

lemma Joins.ne (h : Joins v db ino i i' p dir name) : p ≠ ino :=
  ne_of_dir h.hdir h.hisDir h.hi h.hkind

/-- A node that is no directory is not the directory that names it. -/
lemma Names.child_ne_parent (hn : Names v db p dir name d child) (hkind : child.kind ≠ .dir) :
    d.childIno ≠ p :=
  (ne_of_dir hn.hdir hn.hisDir hn.hchild hkind).symm

section Read

variable {β : Type} {f : Inode → Option β} {dir' : Inode} (hn : Names v db p dir name d child)
  (hd : f dir' = f dir) (hc : f child = none)
include hn hd hc

/-- A directory and a file of it are rewritten: what is read from directories alone stays. -/
lemma Names.read_put {child' : Inode} (hc' : f child' = none) (x : Ino) :
    (((db.inodes.insert p dir').insert d.childIno child').get? x).bind f =
      (db.inodes.get? x).bind f := by
  rw [get?_insert]
  split
  · rename_i hx; rw [hx, hn.hchild, Option.bind_some, Option.bind_some, hc, hc']
  · exact read_insert hn.hdir hd x

lemma Names.read_drop (x : Ino) :
    (((db.inodes.insert p dir').erase d.childIno).get? x).bind f = (db.inodes.get? x).bind f := by
  rw [get?_erase]
  split
  · rename_i hx; rw [hx, hn.hchild, Option.bind_some, hc]; rfl
  · exact read_insert hn.hdir hd x

end Read

/-! ## Transactions -/

lemma Tree.insertNode (h : Tree db) {c : Ino} {parent : Inode} (target : Option Bytes)
    (ts : Timespec) (hins : Inserts v db p parent name c child) :
    Tree (db.apply (insertNodeBatch v p parent name c child target ts)) := by
  obtain ⟨hparent, hdir, hfree, hnew, hchild⟩ := id hins
  rw [apply_insertNodeBatch]
  have hc : db.dirs.parent c = none := dirs_parent_of_none hnew.inode
  have hp' : dirParent (parentWithChild parent child ts) = dirParent parent := by
    unfold parentWithChild dirParent Inode.touchMtime
    split <;> rfl
  have hfree' : db.dirs.entry (p, v.names.sealName p name) = none := by
    rw [dirs_entry, hfree]; rfl
  have hps := parent_isSome_of_dir hparent hdir
  have hparents : ∀ x, (((db.inodes.insert c child).insert p
      (parentWithChild parent child ts)).get? x).bind dirParent =
      if x = c then dirParent child else db.dirs.parent x := by
    intro x
    rw [read_insert (by rw [get?_insert_of_ne _ _ hins.ne]; exact hparent) hp', get?_insert]
    split <;> rfl
  cases hk : child.kind.isDir with
  | true =>
    have hcp : dirParent child = some p := by simp [dirParent, hk, hchild.parentDir hk]
    have hunnamed : ∀ k b, db.dirs.entry k ≠ some (c, b) := by
      intro k b hk
      rw [dirs_entry, Option.map_eq_some_iff] at hk
      obtain ⟨d, hd, hcd⟩ := hk
      exact hnew.named _ _ hd (congrArg Prod.fst hcd)
    refine ⟨h.isTree.addDir hps hfree' hc hunnamed ?_ ?_, ?_⟩
    · intro x; rw [dirs_parent, hparents, hcp]
    · intro k; rw [dirs_entry, entry_insert, entryOf, hk]; rfl
    intro x hx
    rw [dirs_parent, hparents]
    split
    · rename_i hxc
      rw [hxc] at hx
      rw [show db.orphans.get? c = none from hnew.orphan] at hx
      cases hx
    · exact h.unmarked x hx
  | false =>
    have hcp : dirParent child = none := by simp [dirParent, hk]
    refine h.leaves ?_ (fun x hx => .inl hx) fun k => ?_
    · intro x
      rw [dirs_parent, hparents]
      split
      · rename_i hxc; rw [hcp, hxc, hc]
      · rfl
    rw [dirs_entry, entry_insert, entryOf, hk]
    split
    · subst k
      refine .inr ⟨by simp [hfree'], ?_⟩
      rintro x b ⟨⟩
      exact ⟨rfl, hps, hc⟩
    · exact .inl rfl

lemma Tree.link (h : Tree db) (ts : Timespec) (hj : Joins v db ino i i' p dir name) :
    Tree (db.apply (linkBatch v ino i' p dir name ts)) := by
  rw [apply_linkBatch]
  have hk' : i'.kind.isDir = false := isDir_of_ne (by rw [hj.hi'.kind]; exact hj.hkind)
  refine h.leaves ?_ (fun x hx => .inl hx) fun k => ?_
  · intro x
    rw [dirs_parent, read_insert (by rw [get?_insert_of_ne _ _ hj.ne]; exact hj.hdir)
      (by rfl), read_insert hj.hi ((dirParent_alike hj.hi').trans rfl)]
    rfl
  rw [dirs_entry, entry_insert, entryOf, hk']
  split
  · subst k
    refine .inr ⟨by simp [dirs_entry, hj.hfree], ?_⟩
    rintro x b ⟨⟩
    exact ⟨rfl, parent_isSome_of_dir hj.hdir hj.hisDir, dirs_parent_of_not_dir hj.hi hj.hkind⟩
  · exact .inl rfl

lemma Tree.entry_kind (h : Tree db) (hn : Names v db p dir name d child) :
    d.kind.isDir = child.kind.isDir := by
  have he : db.dirs.entry (p, v.names.sealName p name) = some (d.childIno, d.kind.isDir) := by
    rw [dirs_entry, hn.hentry]; rfl
  cases hd : d.kind.isDir with
  | true =>
    have := h.isTree.child _ _ _ (hd ▸ he)
    cases hc : child.kind.isDir with
    | true => rfl
    | false =>
      rw [dirs_parent, hn.hchild] at this
      simp [dirParent, hc] at this
  | false =>
    have := h.isTree.leaf _ _ (hd ▸ he)
    cases hc : child.kind.isDir with
    | false => rfl
    | true =>
      rw [dirs_parent, hn.hchild] at this
      simp [dirParent, hc] at this

lemma Tree.entry (h : Tree db) (hn : Names v db p dir name d child) :
    db.dirs.entry (p, v.names.sealName p name) = some (d.childIno, child.kind.isDir) := by
  rw [dirs_entry, hn.hentry, Option.map_some, entryOf, h.entry_kind hn]

lemma Tree.marked_leaf (h : Tree db) (hi : db.inodes.get? ino = some i)
    (hmark : (db.orphans.get? ino).isSome) : i.kind ≠ .dir :=
  fun hk => nomatch (h.unmarked ino hmark).symm.trans (dirs_parent_of_dir hi hk)

/-- A name of something that is no directory goes; what happens to its node does not matter. -/
lemma Tree.unlink (h : Tree db) (hn : Names v db p dir name d child) (hkind : child.kind ≠ .dir)
    (hd : db'.dirents = db.dirents.erase (toLex (p, v.names.sealName p name)))
    (hp : ∀ x, db'.dirs.parent x = db.dirs.parent x)
    (ho : ∀ x, (db'.orphans.get? x).isSome → (db.orphans.get? x).isSome ∨ x = d.childIno) :
    Tree db' := by
  refine h.leaves hp ?_ fun k => ?_
  · intro x hx
    rcases ho x hx with hx | hx
    · exact .inl hx
    · rw [hx]; exact .inr (dirs_parent_of_not_dir hn.hchild hkind)
  rw [dirs_entry, hd, entry_erase]
  split
  · subst k
    exact .inr ⟨by simp [h.entry hn, isDir_of_ne hkind], nofun⟩
  · exact .inl rfl

lemma Tree.rmdir (h : Tree db) {dir' : Inode} (hn : Names v db p dir name d child)
    (hkind : child.kind = .dir) (hempty : ∀ e, db.dirents.get? (toLex (d.childIno, e)) = none)
    (hdir' : dir'.Alike { dir with nlink := dir.nlink - 1 })
    (hd : db'.dirents = db.dirents.erase (toLex (p, v.names.sealName p name)))
    (hi : db'.inodes = (db.inodes.erase d.childIno).insert p dir') (ho : db'.orphans = db.orphans) :
    Tree db' := by
  have he := isDir_of_eq hkind ▸ h.entry hn
  have hpc : p ≠ d.childIno := fun hpc => h.isTree.entry_ne he hpc.symm
  have hparents : ∀ x, db'.dirs.parent x = if x = d.childIno then none else db.dirs.parent x := by
    intro x
    rw [dirs_parent, hi, read_insert (i := dir)
      (by rw [get?_erase_of_ne _ hpc]; exact hn.hdir) ((dirParent_alike hdir').trans rfl),
      get?_erase]
    split <;> rfl
  refine ⟨h.isTree.dropDir he ?_ hparents ?_, ?_⟩
  · intro e; rw [dirs_entry, hempty]; rfl
  · intro k; rw [dirs_entry, hd, entry_erase]; rfl
  intro x hx
  rw [hparents]
  split
  · rfl
  · exact h.unmarked x (by rw [← ho]; exact hx)

/-- The parent pointers after a move: only a directory that changes parents moves. -/
lemma parent_move {q : Ino} (moved : Inode) (crossing : Bool) (ts : Timespec)
    (hp : m.get? p = some oldDir) (hq : m.get? q = some newDir) (hsp : src.childIno ≠ p)
    (hsq : src.childIno ≠ q) (x : Ino) :
    ((inodesAfterMove m p q src oldDir newDir moved crossing ts).get? x).bind dirParent =
      if x = src.childIno then dirParent (movedNode moved crossing q ts)
      else (m.get? x).bind dirParent := by
  rw [get?_inodesAfterMove]
  by_cases hxq : x = q
  · rw [if_pos hxq, hxq, if_neg hsq.symm, hq]; rfl
  by_cases hxp : x = p
  · rw [if_neg hxq, if_pos hxp, hxp, if_neg hsp.symm, hp]; rfl
  · rw [if_neg hxq, if_neg hxp]
    split <;> rfl

/-- Above a directory other than the root there is a directory. -/
lemma dirs_up_isSome (h : db.dirs.IsTree ROOT_INO) (hx : (db.dirs.parent x).isSome)
    (hr : x ≠ ROOT_INO) : (db.dirs.parent (db.up x)).isSome := by
  obtain ⟨y, hy⟩ := Option.isSome_iff_exists.mp hx
  rw [← dirs_up hx, Dirs.IsTree.up_of_parent hy]
  exact h.parent_isSome hy hr

section Move

variable {q : Ino} {oldName newName : Bytes} {moved : Inode}

/-- A node that moves is none of the two directories it moves between. -/
lemma Tree.moved_ne (h : Tree db)
    (hm : Moves v db p oldName q newName src oldDir newDir moved crossing) :
    src.childIno ≠ p ∧ src.childIno ≠ q := by
  have he := h.entry hm.hsrc
  have hsp : src.childIno ≠ p := h.isTree.entry_ne he
  refine ⟨hsp, ?_⟩
  by_cases hk : moved.kind = .dir
  · by_cases hpq : p = q
    · rw [← hpq]; exact hsp
    · exact (hm.hwalk (by simp [hm.hcross, isDir_of_eq hk, hpq])).ne.symm
  · exact (ne_of_dir hm.hq hm.hqDir hm.hsrc.hchild hk).symm

lemma Tree.move (h : Tree db) (ts : Timespec)
    (hm : Moves v db p oldName q newName src oldDir newDir moved crossing) :
    Tree (db.apply (renameBatch v p oldName q newName src oldDir moved ⟨[], newDir, none, 0, 0⟩
      crossing ts)) := by
  obtain ⟨hsrc, hq, hqDir, hfree, hcross, hwalk⟩ := id hm
  rw [apply_renameBatch]
  simp only [Db.apply_nil]
  have hqs := parent_isSome_of_dir hq hqDir
  have he := h.entry hsrc
  have hfree' : db.dirs.entry (q, v.names.sealName q newName) = none := by
    rw [dirs_entry, hfree]; rfl
  obtain ⟨hsp, hsq⟩ := h.moved_ne hm
  have hparents := parent_move moved crossing ts hsrc.hdir hq hsp hsq
  have hentries : ∀ k, (((db.dirents.erase (toLex (p, v.names.sealName p oldName))).insert
      (toLex (q, v.names.sealName q newName)) ⟨newName, src.childIno, moved.kind,
        newDir.nextDirentId⟩).get? (toLex k)).map entryOf =
      if k = (q, v.names.sealName q newName) then some (src.childIno, moved.kind.isDir)
      else if k = (p, v.names.sealName p oldName) then none else db.dirs.entry k := by
    intro k
    rw [entry_insert, entry_erase]
    rfl
  cases hk : moved.kind.isDir with
  | true =>
    -- its parent is rewritten only if the directory changes
    have hmoved : dirParent (movedNode moved crossing q ts) = some q := by
      by_cases hpq : p = q
      · have hpar := h.isTree.child _ _ _ (hk ▸ he)
        rw [dirs_parent, hsrc.hchild] at hpar
        have hc : crossing = false := by simp [hcross, hpq]
        rw [hc, ← hpq, ← hpar]
        simp [movedNode, dirParent]
      · have hc : crossing = true := by simp [hcross, hk, hpq]
        simp [movedNode, dirParent, hk, hc]
    refine ⟨h.isTree.moveDir (hk ▸ he) hfree' hqs ?_ ?_ ?_, ?_⟩
    · intro hpq
      exact (hwalk (by simp [hcross, hk, hpq])).congr_on
        (D := fun x => (db.dirs.parent x).isSome) hqs
        (fun _ hx hr => dirs_up_isSome h.isTree hx hr) (fun _ hx => dirs_up hx)
    · intro y; rw [dirs_parent, hparents, hmoved]; rfl
    · intro k; rw [dirs_entry, hentries, hk]
    intro x hx
    rw [dirs_parent, hparents]
    split
    · rename_i hxs
      have hx' := h.unmarked x hx
      rw [hxs, h.isTree.child _ _ _ (hk ▸ he)] at hx'
      cases hx'
    · exact h.unmarked x hx
  | false =>
    -- only entries change
    have hmoved : dirParent (movedNode moved crossing q ts) = none := by
      simp [movedNode, dirParent, hk]
    have hs := h.isTree.leaf _ _ (hk ▸ he)
    refine h.leaves ?_ (fun x hx => .inl hx) fun k => ?_
    · intro x
      rw [dirs_parent, hparents]
      split
      · rename_i hxs; rw [hmoved, hxs, hs]
      · rfl
    rw [dirs_entry, hentries, hk]
    split
    · subst k
      refine .inr ⟨by simp [hfree'], ?_⟩
      rintro x b ⟨⟩
      exact ⟨rfl, hqs, hs⟩
    split
    · subst k
      exact .inr ⟨by simp [he, hk], nofun⟩
    · exact .inl rfl

end Move

lemma orphan_insert {m : OrdMap Ino Orphan} {c : Ino} {o : Orphan}
    (h : ((m.insert c o).get? x).isSome) : (m.get? x).isSome ∨ x = c := by
  rw [get?_insert] at h
  split at h
  · exact .inr ‹_›
  · exact .inl h

/-- A node is rewritten and records outside the hierarchy change. -/
lemma Tree.rewrite (h : Tree db) (hi : db.inodes.get? ino = some i)
    (hd : dirParent i' = dirParent i) (hin : db'.inodes = db.inodes.insert ino i')
    (hde : db'.dirents = db.dirents) (ho : db'.orphans = db.orphans) : Tree db' := by
  refine h.congr hde ?_ (fun x hx => by rw [← ho]; exact hx)
  intro x
  rw [dirs_parent, hin, read_insert hi hd]
  rfl

/-- **Every transaction leaves the directories a tree.** -/
theorem Tree.txn (h : Tree db) (ht : Txn v G db db') : Tree db' := by
  cases ht with
  | lease n => exact h.congr rfl (fun _ => rfl) (fun _ hx => hx)
  | touch hi hal => exact h.rewrite hi (dirParent_alike hal) rfl rfl rfl
  | setXattr name value hi => exact h.congr rfl (fun _ => rfl) (fun _ hx => hx)
  | dropXattr ino name => exact h.congr rfl (fun _ => rfl) (fun _ hx => hx)
  | insertNode target ts hparent hdir hfree hnew hfresh hchild hsub _ _ =>
    exact h.insertNode target ts ⟨hparent, hdir, hfree, hnew, hchild⟩
  | link ts hi hkind hdir hisDir hfree hroom hi' hG _ =>
    exact h.link ts ⟨hi, hkind, hdir, hisDir, hfree, hi'⟩
  | unlinkKeep hn hkind hdir' hlast hchild' =>
    have hc := dirParent_of_leaf hkind
    exact h.unlink hn hkind rfl (hn.read_put (dirParent_alike hdir') hc
      ((dirParent_alike hchild').trans hc)) (fun x hx => .inl hx)
  | unlinkOpen ts hn hkind hdir' hlast =>
    have hc := dirParent_of_leaf hkind
    exact h.unlink hn hkind rfl (hn.read_put (dirParent_alike hdir') hc hc)
      (fun x hx => orphan_insert hx)
  | unlinkGone hn hkind hdir' hlast =>
    exact h.unlink hn hkind rfl (hn.read_drop (dirParent_alike hdir') (dirParent_of_leaf hkind))
      (fun x hx => orphan_insert hx)
  | rmdir hn hkind hempty hdir' _ =>
    exact h.rmdir hn hkind hempty hdir' rfl rfl rfl
  | move crossing ts hsrc hnew hnewDir hfree hcross hwalk hsub _ =>
    exact h.move ts ⟨hsrc, hnew, hnewDir, hfree, hcross, hwalk⟩
  | write hi hkind hdata hmax hi' hG =>
    rw [apply_writeBatch]
    exact h.rewrite hi ((dirParent_alike hi').trans rfl) rfl rfl rfl
  | truncate hi hkind hne hcs hi' hG =>
    rw [apply_truncateBatch]
    exact h.rewrite hi ((dirParent_alike hi').trans rfl) rfl rfl rfl
  | spill hi hidx => exact h.congr rfl (fun _ => rfl) (fun _ hx => hx)
  | @finish ino i hi hmark =>
    exact h.congr rfl (read_erase (h.unmarked ino hmark)) (fun _ hx => hx)
  | reap hgone hr =>
    refine h.congr hr.dirents (fun x => by rw [dirs_parent, hr.inodes]; rfl) (fun x hx => ?_)
    cases hr with
    | marker _ =>
      change ((db.orphans.erase _).get? x).isSome at hx
      rw [get?_erase] at hx
      split at hx
      · cases hx
      · exact hx
    | _ => exact hx

lemma Tree.txns (h : Tree db) (ht : Txns v G db db') : Tree db' := by
  induction ht with
  | refl => exact h
  | tail _ ht ih => exact ih.txn ht

end SlateFs
