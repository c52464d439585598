import SlateFs.Seq.Runs

/-!
# Link counts of files

Every entry names a node that exists, and the link count of a node that is no
directory is the number of entries naming it. A node without names is an orphan
waiting for its last handle, and carries a marker.

The invariant speaks about one node at a time (`LinkedAt`), and a transaction
changes it at one node only. It survives every call except one: `link` gives a
name to an orphan whose removal is already settled.
-/

namespace SlateFs

open OrdMap FsM

/-- The link count of a node that is no directory. -/
def leafLinks (i : Inode) : Option UInt32 := if i.kind.isDir then none else some i.nlink

def Db.leafLinks (db : Db) (x : Ino) : Option UInt32 := (db.inodes.get? x).bind SlateFs.leafLinks

/-- How many entries name a node. -/
def Db.names (db : Db) (x : Ino) : Nat := db.dirents.count (fun _ d => d.childIno = x)

/-- What holds between a node and the entries naming it. -/
structure LinkedAt (db : Db) (x : Ino) : Prop where
  /-- A node that is named exists. -/
  present : db.names x ≠ 0 → (db.inodes.get? x).isSome
  /-- The link count is the number of names. -/
  counted : ∀ n, db.leafLinks x = some n → n.toNat = db.names x
  /-- The nodes without names are those with a marker. -/
  marked : ∀ n, db.leafLinks x = some n → (n = 0 ↔ (db.orphans.get? x).isSome)

/-- Names and link counts agree everywhere. -/
def Linked (db : Db) : Prop := ∀ x, LinkedAt db x

variable {v : Volume} {G : Guard} {db db' : Db} {x : Ino}

/-! ## One node -/

variable {i child dir dir' : Inode} {m : OrdMap (Ino ×ₗ Bytes) Dirent} {k : Ino ×ₗ Bytes}
  {d : Dirent} {ino p : Ino} {name : Bytes}

lemma leafLinks_of_dir (h : i.kind = .dir) : leafLinks i = none := by
  simp [leafLinks, isDir_of_eq h]

lemma leafLinks_of_leaf (h : i.kind ≠ .dir) : leafLinks i = some i.nlink := by
  simp [leafLinks, isDir_of_ne h]

lemma leafLinks_alike {i' : Inode} (h : i'.Alike i) : leafLinks i' = leafLinks i := by
  simp [leafLinks, h.kind, h.nlink]

lemma Db.leafLinks_of_leaf (hi : db.inodes.get? x = some i) (h : i.kind ≠ .dir) :
    db.leafLinks x = some i.nlink := by
  rw [Db.leafLinks, hi, Option.bind_some, SlateFs.leafLinks_of_leaf h]

lemma Db.leafLinks_of_dir (hi : db.inodes.get? x = some i) (h : i.kind = .dir) :
    db.leafLinks x = none := by
  rw [Db.leafLinks, hi, Option.bind_some, SlateFs.leafLinks_of_dir h]

lemma Db.leafLinks_of_none (hi : db.inodes.get? x = none) : db.leafLinks x = none := by
  rw [Db.leafLinks, hi, Option.bind_none]

lemma LinkedAt.congr (h : LinkedAt db x) (hn : db'.names x = db.names x)
    (hi : (db.inodes.get? x).isSome → (db'.inodes.get? x).isSome)
    (hl : db'.leafLinks x = db.leafLinks x)
    (ho : (db'.orphans.get? x).isSome = (db.orphans.get? x).isSome) : LinkedAt db' x where
  present hx := hi (h.present (hn ▸ hx))
  counted n hx := by rw [hn]; exact h.counted n (hl ▸ hx)
  marked n hx := by rw [ho]; exact h.marked n (hl ▸ hx)

lemma LinkedAt.of_none (hi : (db.inodes.get? x).isSome ∨ db.names x = 0)
    (hl : db.leafLinks x = none) : LinkedAt db x where
  present hx := hi.resolve_right hx
  counted n hn := by rw [hl] at hn; cases hn
  marked n hn := by rw [hl] at hn; cases hn

lemma LinkedAt.of_leaf {n : UInt32} (hl : db.leafLinks x = some n) (hc : n.toNat = db.names x)
    (hm : n = 0 ↔ (db.orphans.get? x).isSome) : LinkedAt db x where
  present _ := by
    cases hi : db.inodes.get? x with
    | some i => rfl
    | none => rw [Db.leafLinks_of_none hi] at hl; cases hl
  counted m hm' := by rw [hl] at hm'; rw [← Option.some.inj hm']; exact hc
  marked m hm' := by rw [hl] at hm'; rw [← Option.some.inj hm']; exact hm

/-! ## Counting entries -/

lemma names_insert (d : Dirent) (h : m.get? k = none) (x : Ino) :
    (m.insert k d).count (fun _ d => d.childIno = x) =
      m.count (fun _ d => d.childIno = x) + if d.childIno = x then 1 else 0 := by
  rw [count_insert _ h]
  simp only [decide_eq_true_eq]

lemma names_erase (h : m.get? k = some d) (x : Ino) :
    m.count (fun _ d => d.childIno = x) =
      (m.erase k).count (fun _ d => d.childIno = x) + if d.childIno = x then 1 else 0 := by
  rw [count_erase _ h]
  simp only [decide_eq_true_eq]

lemma names_eq_zero : db.names x = 0 ↔ ∀ k d, db.dirents.get? k = some d → d.childIno ≠ x := by
  rw [Db.names, count_eq_zero]
  simp only [decide_eq_false_iff_not, ne_eq]

lemma Unused.names (h : Unused db x) : db.names x = 0 := names_eq_zero.mpr h.named

/-! ## Transactions -/

lemma isSome_insert {κ β : Type} [LinearOrder κ] {m : OrdMap κ β} {k : κ} (a : κ) (y : β)
    (h : (m.get? k).isSome) : ((m.insert a y).get? k).isSome := by
  rw [get?_insert]
  split
  · rfl
  · exact h

lemma Linked.congr (h : Linked db) (hi : db'.inodes = db.inodes) (hd : db'.dirents = db.dirents)
    (ho : db'.orphans = db.orphans) : Linked db' := fun x =>
  (h x).congr (by rw [Db.names, hd]; rfl) (fun hx => by rw [hi]; exact hx)
    (by rw [Db.leafLinks, hi]; rfl) (by rw [ho])

lemma Linked.rewrite (h : Linked db) {i' : Inode} (hi : db.inodes.get? ino = some i)
    (hl : leafLinks i' = leafLinks i) (hin : db'.inodes = db.inodes.insert ino i')
    (hd : db'.dirents = db.dirents) (ho : db'.orphans = db.orphans) : Linked db' := by
  intro x
  refine (h x).congr (by rw [Db.names, hd]; rfl) ?_ ?_ (by rw [ho])
  · intro hx; rw [hin]; exact isSome_insert _ _ hx
  · rw [Db.leafLinks, hin, read_insert hi hl]; rfl

lemma Linked.insertNode (h : Linked db) {c : Ino} {parent : Inode} (target : Option Bytes)
    (ts : Timespec) (hins : Inserts v db p parent name c child) :
    Linked (db.apply (insertNodeBatch v p parent name c child target ts)) := by
  have hpc := hins.ne
  obtain ⟨hparent, hdir, hfree, hnew, hchild⟩ := hins
  rw [apply_insertNodeBatch]
  have hparent' : (db.inodes.insert c child).get? p = some parent := by
    rw [get?_insert_of_ne _ _ hpc]; exact hparent
  have hpw : leafLinks (parentWithChild parent child ts) = leafLinks parent := by
    rw [leafLinks_of_dir hdir]
    refine leafLinks_of_dir ?_
    unfold parentWithChild
    split <;> exact hdir
  have hget : ((db.inodes.insert c child).insert p (parentWithChild parent child ts)).get? c =
      some child := by
    rw [get?_insert_of_ne _ _ hpc.symm, get?_insert_self]
  intro x
  by_cases hx : x = c
  · rw [hx]
    by_cases hk : child.kind = .dir
    · exact .of_none (.inl (by rw [hget]; rfl)) (Db.leafLinks_of_dir hget hk)
    have hn : child.nlink = 1 := by rw [hchild.nlink, isDir_of_ne hk]; rfl
    refine .of_leaf (Db.leafLinks_of_leaf hget hk) ?_ ?_
    · rw [hn, Db.names, names_insert _ hfree, if_pos rfl, ← Db.names, hnew.names]; rfl
    · rw [hn, show db.orphans.get? c = none from hnew.orphan]; decide
  · refine (h x).congr ?_ ?_ ?_ rfl
    · rw [Db.names, names_insert _ hfree, if_neg (Ne.symm hx)]; rfl
    · intro hs; exact isSome_insert _ _ (isSome_insert _ _ hs)
    · rw [Db.leafLinks, read_insert hparent' hpw, get?_insert_of_ne _ _ hx]; rfl

lemma Linked.link (h : Linked db) {i' : Inode} (ts : Timespec)
    (hj : Joins v db ino i i' p dir name) (hroom : i.nlink.toNat + 1 < 2 ^ 32)
    (hlive : i.nlink ≠ 0) : Linked (db.apply (linkBatch v ino i' p dir name ts)) := by
  have hpi := hj.ne
  obtain ⟨hi, hkind, hdir, hisDir, hfree, hi'⟩ := hj
  rw [apply_linkBatch]
  have hdir' : (db.inodes.insert ino i').get? p = some dir := by
    rw [get?_insert_of_ne _ _ hpi]; exact hdir
  have hpw : leafLinks (dirWithEntry dir ts) = leafLinks dir := rfl
  have hget : ((db.inodes.insert ino i').insert p (dirWithEntry dir ts)).get? ino = some i' := by
    rw [get?_insert_of_ne _ _ hpi.symm, get?_insert_self]
  intro x
  by_cases hx : x = ino
  · rw [hx]
    have hc := (h ino).counted _ (Db.leafLinks_of_leaf hi hkind)
    have hm := (h ino).marked _ (Db.leafLinks_of_leaf hi hkind)
    have hn : i'.nlink.toNat = i.nlink.toNat + 1 := by
      rw [hi'.nlink, UInt32.toNat_add]
      exact Nat.mod_eq_of_lt hroom
    refine .of_leaf (Db.leafLinks_of_leaf hget (by rw [hi'.kind]; exact hkind)) ?_ ?_
    · rw [hn, hc, Db.names, Db.names, names_insert _ hfree, if_pos rfl]
    -- the node had a name, so it has no marker; now it has one more
    refine ⟨fun h0 => ?_, fun ho => absurd (hm.mpr ho) hlive⟩
    rw [h0] at hn
    exact absurd hn (by simp)
  · refine (h x).congr ?_ ?_ ?_ rfl
    · rw [Db.names, names_insert _ hfree, if_neg (Ne.symm hx)]; rfl
    · intro hs; exact isSome_insert _ _ (isSome_insert _ _ hs)
    · rw [Db.leafLinks, read_insert hdir' hpw, get?_insert_of_ne _ _ hx]; rfl

/-- A name goes. What becomes of its node is for the caller to say. -/
lemma Linked.dropName (h : Linked db) (hn : Names v db p dir name d child)
    (hd : db'.dirents = db.dirents.erase (toLex (p, v.names.sealName p name)))
    (hi : ∀ x, x ≠ d.childIno → (db.inodes.get? x).isSome → (db'.inodes.get? x).isSome)
    (hl : ∀ x, x ≠ d.childIno → db'.leafLinks x = db.leafLinks x)
    (ho : ∀ x, x ≠ d.childIno → db'.orphans.get? x = db.orphans.get? x)
    (hc : db.names d.childIno = db'.names d.childIno + 1 → LinkedAt db' d.childIno) :
    Linked db' := by
  have hnames := names_erase hn.hentry
  intro x
  by_cases hx : x = d.childIno
  · rw [hx]
    refine hc ?_
    rw [Db.names, hnames, if_pos rfl, Db.names, hd]
  · refine (h x).congr ?_ (hi x hx) (hl x hx) (by rw [ho x hx])
    rw [Db.names, Db.names, hnames x, if_neg (Ne.symm hx), hd, Nat.add_zero]

/-- A file with one name more than it needs has at least one. -/
lemma LinkedAt.pred {n : Nat} (h : LinkedAt db x) (hi : db.inodes.get? x = some i)
    (hkind : i.kind ≠ .dir) (hn : db.names x = n + 1) : (i.nlink - 1).toNat = n := by
  have hc := h.counted _ (Db.leafLinks_of_leaf hi hkind)
  rw [UInt32.toNat_sub_of_le]
  · show i.nlink.toNat - 1 = n
    omega
  · show 1 ≤ i.nlink.toNat
    omega

/-- The node records once a directory is rewritten and a file of it changed or went. -/
lemma leafLinks_after {m : OrdMap Ino Inode} {c : Ino} (m' : OrdMap Ino Inode)
    (hdir : m.get? p = some dir) (hdir' : dir'.Alike dir)
    (hm : ∀ x, x ≠ c → m'.get? x = (m.insert p dir').get? x) :
    (∀ x, x ≠ c → (m.get? x).isSome → (m'.get? x).isSome)
    ∧ ∀ x, x ≠ c → (m'.get? x).bind leafLinks = (m.get? x).bind leafLinks := by
  refine ⟨fun x hx hs => ?_, fun x hx => ?_⟩
  · rw [hm x hx]; exact isSome_insert _ _ hs
  · rw [hm x hx, read_insert hdir (leafLinks_alike hdir')]

lemma Linked.unlinkKeep (h : Linked db) {child' : Inode} (hn : Names v db p dir name d child)
    (hkind : child.kind ≠ .dir) (hdir' : dir'.Alike dir) (hlast : child.nlink - 1 ≠ 0)
    (hchild' : child'.Alike { child with nlink := child.nlink - 1 }) :
    Linked (db.apply (dropEntry v p name d.direntId
      ++ [.put (.inode p) dir', .put (.inode d.childIno) child'])) := by
  obtain ⟨hi, hl⟩ := leafLinks_after
    ((db.inodes.insert p dir').insert d.childIno child') hn.hdir hdir'
    (fun x hx => get?_insert_of_ne _ _ hx)
  refine h.dropName hn rfl hi hl (fun _ _ => rfl) ?_
  intro hnames
  have hpred := (h _).pred hn.hchild hkind hnames
  have hm := (h _).marked _ (Db.leafLinks_of_leaf hn.hchild hkind)
  have hne : child.nlink ≠ 0 := by
    intro h0
    have hc := (h _).counted _ (Db.leafLinks_of_leaf hn.hchild hkind)
    rw [h0, hnames] at hc
    exact absurd hc (by simp)
  refine .of_leaf ?_ hpred ?_
  · refine (Db.leafLinks_of_leaf (get?_insert_self ..) ?_).trans ?_
    · rw [hchild'.kind]; exact hkind
    · rw [hchild'.nlink]
  · exact ⟨fun h0 => absurd h0 hlast, fun ho => absurd (hm.mpr ho) hne⟩

lemma Linked.unlinkOpen (h : Linked db) (ts : Timespec) (hn : Names v db p dir name d child)
    (hkind : child.kind ≠ .dir) (hdir' : dir'.Alike dir) (hlast : child.nlink - 1 = 0) :
    Linked (db.apply (dropEntry v p name d.direntId ++ [.put (.inode p) dir']
      ++ buryOpen d.childIno { child with nlink := child.nlink - 1 } ts)) := by
  rw [apply_unlinkOpen]
  obtain ⟨hi, hl⟩ := leafLinks_after
    ((db.inodes.insert p dir').insert d.childIno { child with nlink := 0, ctime := ts })
    hn.hdir hdir' (fun x hx => get?_insert_of_ne _ _ hx)
  refine h.dropName hn rfl hi hl (fun x hx => get?_insert_of_ne _ _ hx) ?_
  intro hnames
  have hpred := (h _).pred hn.hchild hkind hnames
  rw [hlast] at hpred
  refine .of_leaf ?_ hpred ?_
  · exact Db.leafLinks_of_leaf (i := { child with nlink := 0, ctime := ts })
      (get?_insert_self ..) hkind
  · exact ⟨fun _ => by rw [get?_insert_self]; rfl, fun _ => rfl⟩

lemma Linked.unlinkGone (h : Linked db) (hn : Names v db p dir name d child)
    (hkind : child.kind ≠ .dir) (hdir' : dir'.Alike dir) (hlast : child.nlink - 1 = 0) :
    Linked (db.apply (dropEntry v p name d.direntId ++ [.put (.inode p) dir']
      ++ buryGone d.childIno { child with nlink := child.nlink - 1 })) := by
  obtain ⟨hi, hl⟩ := leafLinks_after
    ((db.inodes.insert p dir').erase d.childIno) hn.hdir hdir'
    (fun x hx => get?_erase_of_ne _ hx)
  refine h.dropName hn rfl hi hl (fun x hx => get?_insert_of_ne _ _ hx) ?_
  intro hnames
  have hpred := (h _).pred hn.hchild hkind hnames
  rw [hlast] at hpred
  exact .of_none (.inr hpred.symm) (Db.leafLinks_of_none (get?_erase_self ..))

/-- A directory has one entry, so none is left once that one goes. -/
lemma Tree.names_dir (hT : Tree db) (hn : Names v db p dir name d child)
    (hkind : child.kind = .dir)
    (hd : db'.dirents = db.dirents.erase (toLex (p, v.names.sealName p name))) :
    db'.names d.childIno = 0 := by
  have he := isDir_of_eq hkind ▸ hT.entry hn
  refine names_eq_zero.mpr ?_
  intro k d' hk hc
  rw [hd, get?_erase] at hk
  split at hk
  · cases hk
  rename_i hne
  have he' : db.dirs.entry (ofLex k) = some (d.childIno, d'.kind.isDir) := by
    rw [dirs_entry, toLex_ofLex, hk, Option.map_some, entryOf, hc]
  cases hdk : d'.kind.isDir with
  | true =>
    refine hne ?_
    have hkk := hT.isTree.unique _ _ _ (hdk ▸ he') he
    rw [← hkk, toLex_ofLex]
  | false =>
    have hpar := hT.isTree.leaf _ _ (hdk ▸ he')
    rw [dirs_parent_of_dir hn.hchild hkind] at hpar
    cases hpar

lemma Linked.rmdir (h : Linked db) (hT : Tree db) (hn : Names v db p dir name d child)
    (hkind : child.kind = .dir) (hdir' : dir'.Alike { dir with nlink := dir.nlink - 1 }) :
    Linked (db.apply (dropEntry v p name d.direntId
      ++ [.delete (.inode d.childIno), .put (.inode p) dir', .mergeInodes (-1)])) := by
  rw [apply_dropDir]
  have hdl : leafLinks dir' = leafLinks dir := by
    rw [leafLinks_of_dir hn.hisDir, leafLinks_of_dir (hdir'.kind.trans hn.hisDir)]
  refine h.dropName hn rfl ?_ ?_ (fun _ _ => rfl) ?_
  · intro x hx hs
    exact isSome_insert _ _ (by rw [get?_erase_of_ne _ hx]; exact hs)
  · intro x hx
    by_cases hpc : p = d.childIno
    · rw [Db.leafLinks, get?_insert_of_ne _ _ (hpc ▸ hx), get?_erase_of_ne _ hx]; rfl
    rw [Db.leafLinks, read_insert (by
      rw [get?_erase_of_ne _ hpc]; exact hn.hdir) hdl, get?_erase_of_ne _ hx]
    rfl
  · intro _
    refine .of_none (.inr (hT.names_dir hn hkind rfl)) ?_
    rw [Db.leafLinks, get?_insert]
    split
    · rw [Option.bind_some, hdl, leafLinks_of_dir hn.hisDir]
    · rw [get?_erase_self]; rfl

lemma Linked.move (h : Linked db) (hT : Tree db) {q : Ino} {oldName newName : Bytes}
    {src : Dirent} {oldDir newDir moved : Inode} {crossing : Bool} (ts : Timespec)
    (hm : Moves v db p oldName q newName src oldDir newDir moved crossing) :
    Linked (db.apply (renameBatch v p oldName q newName src oldDir moved ⟨[], newDir, none, 0, 0⟩
      crossing ts)) := by
  obtain ⟨hsp, hsq⟩ := hT.moved_ne hm
  obtain ⟨hsrc, hq, hqDir, hfree, hcross, hwalk⟩ := hm
  rw [apply_renameBatch]
  simp only [Db.apply_nil]
  have hget := get?_inodesAfterMove db.inodes p q src oldDir newDir moved crossing ts
  intro x
  refine (h x).congr ?_ ?_ ?_ rfl
  · have hfree' : (db.dirents.erase (toLex (p, v.names.sealName p oldName))).get?
        (toLex (q, v.names.sealName q newName)) = none := get?_erase_none _ hfree
    rw [Db.names, names_insert _ hfree', Db.names, names_erase hsrc.hentry x]
  · intro hs
    rw [hget]
    split
    · rfl
    split
    · rfl
    split
    · rfl
    · exact hs
  · rw [Db.leafLinks, hget]
    split
    · rename_i hx; rw [hx, Db.leafLinks_of_dir hq hqDir]; exact leafLinks_of_dir hqDir
    split
    · rename_i hx
      rw [hx, Db.leafLinks_of_dir hsrc.hdir hsrc.hisDir]; exact leafLinks_of_dir hsrc.hisDir
    · split
      · rename_i hx; rw [hx, Db.leafLinks, hsrc.hchild]; rfl
      · rfl

lemma Linked.finish (h : Linked db) (hT : Tree db) (hi : db.inodes.get? ino = some i)
    (hmark : (db.orphans.get? ino).isSome) :
    Linked (db.apply (finishBatch ino i)) := by
  rw [apply_finishBatch]
  have hkind := hT.marked_leaf hi hmark
  intro x
  by_cases hx : x = ino
  · rw [hx]
    have hl := Db.leafLinks_of_leaf hi hkind
    have h0 := ((h ino).marked _ hl).mpr hmark
    have hc := (h ino).counted _ hl
    rw [h0] at hc
    exact .of_none (.inr hc.symm) (Db.leafLinks_of_none (get?_erase_self ..))
  · refine (h x).congr rfl ?_ ?_ rfl
    · intro hs; show ((db.inodes.erase ino).get? x).isSome
      rw [get?_erase_of_ne _ hx]; exact hs
    · rw [Db.leafLinks, get?_erase_of_ne _ hx]; rfl

lemma Linked.reap (h : Linked db) (hgone : db.inodes.get? ino = none) (hr : Reap1 ino db db') :
    Linked db' := by
  cases hr with
  | marker _ =>
    intro x
    by_cases hx : x = ino
    · rw [hx]
      refine .of_none ?_ (Db.leafLinks_of_none hgone)
      by_cases h0 : db.names ino = 0
      · exact .inr h0
      · exact .inl ((h ino).present h0)
    · refine (h x).congr rfl id rfl ?_
      show ((db.orphans.erase ino).get? x).isSome = _
      rw [get?_erase_of_ne _ hx]
  | _ => exact h.congr rfl rfl rfl

/-- **Every transaction keeps names and link counts together**, as long as no orphan is linked. -/
theorem Linked.txn (h : Linked db) (hT : Tree db) (hG : ∀ i, G.link i → i.nlink ≠ 0)
    (ht : Txn v G db db') : Linked db' := by
  cases ht with
  | lease n => exact h.congr rfl rfl rfl
  | touch hi hal => exact h.rewrite hi (leafLinks_alike hal) rfl rfl rfl
  | setXattr name value hi => exact h.congr rfl rfl rfl
  | dropXattr ino name => exact h.congr rfl rfl rfl
  | insertNode target ts hparent hdir hfree hnew _ hchild _ _ _ =>
    exact h.insertNode target ts ⟨hparent, hdir, hfree, hnew, hchild⟩
  | link ts hi hkind hdir hisDir hfree hroom hi' hl _ =>
    exact h.link ts ⟨hi, hkind, hdir, hisDir, hfree, hi'⟩ hroom (hG _ hl)
  | unlinkKeep hn hkind hdir' hlast hchild' => exact h.unlinkKeep hn hkind hdir' hlast hchild'
  | unlinkOpen ts hn hkind hdir' hlast => exact h.unlinkOpen ts hn hkind hdir' hlast
  | unlinkGone hn hkind hdir' hlast => exact h.unlinkGone hn hkind hdir' hlast
  | rmdir hn hkind hempty hdir' _ => exact h.rmdir hT hn hkind hdir'
  | move crossing ts hsrc hnew hnewDir hfree hcross hwalk _ _ =>
    exact h.move hT ts ⟨hsrc, hnew, hnewDir, hfree, hcross, hwalk⟩
  | write hi hkind hdata hmax hi' _ =>
    rw [apply_writeBatch]
    exact h.rewrite hi ((leafLinks_alike hi').trans rfl) rfl rfl rfl
  | truncate hi hkind hne hcs hi' _ =>
    rw [apply_truncateBatch]
    exact h.rewrite hi ((leafLinks_alike hi').trans rfl) rfl rfl rfl
  | spill hi hidx => exact h.congr rfl rfl rfl
  | finish hi hmark => exact h.finish hT hi hmark
  | reap hgone hr => exact h.reap hgone hr

lemma mkfs_linked (ts : Timespec) : Linked (mkfs ts) := by
  intro x
  refine .of_none (.inr (names_eq_zero.mpr fun k d h => nomatch (mkfs_dirents ts k).symm.trans h))
    ?_
  rw [Db.leafLinks, mkfs_inodes]
  split <;> rfl

/-! ## Runs -/

/-- The two sides of the name space agree. -/
structure NamesAgree (db : Db) : Prop where
  /-- Every directory entry names an existing inode record. -/
  named : ∀ k d, db.dirents.get? k = some d → (db.inodes.get? d.childIno).isSome
  /-- A file has as many links as names, or is an orphan: no links, a marker, no name. -/
  links : ∀ x i, db.inodes.get? x = some i → i.kind ≠ .dir →
    (i.nlink ≠ 0 ∧ i.nlink.toNat = db.names x)
    ∨ (i.nlink = 0 ∧ (db.orphans.get? x).isSome ∧ db.names x = 0)

lemma Linked.namesAgree (h : Linked db) : NamesAgree db where
  named k d hk := by
    refine (h d.childIno).present ?_
    intro h0
    exact names_eq_zero.mp h0 k d hk rfl
  links x i hi hkind := by
    have hl := Db.leafLinks_of_leaf hi hkind
    have hc := (h x).counted _ hl
    by_cases h0 : i.nlink = 0
    · refine .inr ⟨h0, ((h x).marked _ hl).mp h0, ?_⟩
      rw [← hc, h0]; rfl
    · exact .inl ⟨h0, hc⟩

/-- No call to link is made on an inode without links. -/
def Op.linksLive : Op → St → Bool
  | .link ino _ _, s => (s.db.inodes.get? ino).all (fun i => i.nlink ≠ 0)
  | _, _ => true

/-- **Names and link counts agree in every state of a run that never links an orphan.** -/
theorem names_agree {v : Volume} {ts : Timespec} {limits : QuotaLimits} {s : St}
    (h : Reached v (fun op s => op.linksLive s) (freshVolume ts limits) s) : NamesAgree s.db := by
  refine (Reached.txns (J := Linked) (G := { Guard.any with link := fun i => i.nlink ≠ 0 })
    (freshVolume_sound ts limits) ?_ ?_ ?_ h).2.namesAgree
  · exact (mkfs_linked ts).congr rfl rfl rfl
  · intro op s _ _ hop
    refine ⟨?_, fun _ _ _ _ => trivial⟩
    cases op with
    | link ino p n =>
      intro i hi
      simpa [Op.linksLive, hi] using hop
    | setattr => exact fun _ _ _ _ => trivial
    | write => exact fun _ _ => trivial
    | mkdir => exact fun _ _ => trivial
    | rename => exact ⟨fun _ _ _ _ _ _ _ _ _ => trivial, fun _ _ _ _ _ => Or.inr trivial⟩
    | _ => trivial
  · intro F db db' hT hJ ht
    exact hJ.txn hT (fun i hi => hi) ht

theorem names_agree_after_link : ∃ s, Reached Volume.plain (fun op s => op.linksLive s)
    (freshVolume ⟨0, 0⟩ {}) s ∧ s.db.names 2 = 2 ∧ NamesAgree s.db := by
  obtain ⟨s, hs, hn⟩ := Rests.of_runAll Volume.plain (fun op s => op.linksLive s) .still 9 .root
    [.create 1 [102] 0o644 true, .link 2 1 [103]] (freshVolume ⟨0, 0⟩ {})
    (fun s => s.db.names 2 = 2) (by decide +kernel)
  exact ⟨s, .rest hs, hn, names_agree (.rest hs)⟩

/--
**An orphan that is linked leaves a dangling name.** A file is created, opened and
unlinked, so it has no links and a marker. `link` gives it a name again, and the
last close removes its inode all the same.
-/
theorem linked_orphan_dangles : ¬∀ s, Reached Volume.plain (fun _ _ => True)
    (freshVolume ⟨0, 0⟩ {}) s → NamesAgree s.db := by
  intro h
  obtain ⟨s, hs, hd, hi⟩ := Rests.of_runAll Volume.plain (fun _ _ => True) .still 9 .root
    [.create 1 [102] 0o644 true, .openFile 2 .read, .unlink 1 [102], .link 2 1 [103], .closeFile 1]
    (freshVolume ⟨0, 0⟩ {})
    (fun s => s.db.dirents.get? (toLex (1, [103])) = some ⟨[103], 2, .file, 4⟩
      ∧ s.db.inodes.get? 2 = none) (by decide +kernel)
  have := (h s (.rest hs)).named _ _ hd
  rw [hi] at this
  cases this

end SlateFs
