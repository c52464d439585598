import SlateFs.Data.Billing
import SlateFs.Fsck.Check
import SlateFs.Seq.Subdirs

/-!
# What a report without problems means

The checker looks at local facts: each entry against the two inodes and the index
record it belongs to, each inode against the number of its entries, and one search
from the root. `Checked` collects them. Together they describe a sound
filesystem, except for what the checks leave open: an entry for the root itself,
entries for an inode that passes as unlinked, and counts beyond 32 bits.
-/

namespace SlateFs

open OrdMap

/-- The inodes the entries of a directory name. -/
def Db.children (db : Db) (p : Ino) : List Ino :=
  (db.dirents.scan (fun k => (ofLex k).1 = p)).map (fun e => e.2.childIno)

lemma Db.mem_children {db : Db} {p x : Ino} :
    x ∈ db.children p ↔ ∃ e d, db.dirents.get? (toLex (p, e)) = some d ∧ d.childIno = x := by
  rw [Db.children, List.mem_map]
  constructor
  · rintro ⟨⟨k, d⟩, hk, hx⟩
    obtain ⟨hget, hp⟩ := mem_scan.mp hk
    obtain rfl : (ofLex k).1 = p := of_decide_eq_true hp
    exact ⟨(ofLex k).2, d, hget, hx⟩
  · rintro ⟨e, d, hget, hx⟩
    exact ⟨(toLex (p, e), d), mem_scan.mpr ⟨hget, decide_eq_true rfl⟩, hx⟩

/-- Named below the root, through any number of directories. -/
def Db.Reachable (db : Db) : Ino → Prop := Worklist.Reach db.children (· = ROOT_INO)

namespace Fsck

variable {db : Db} {cs : Nat} {names : NameCodec} {x : Ino} {i : Inode}

/-! ## What the entries add up to -/

lemma getD_bump (m : OrdMap Ino UInt32) (k x : Ino) :
    ((bump m k).get? x).getD 0 = (m.get? x).getD 0 + if k = x then 1 else 0 := by
  unfold bump
  rw [get?_insert]
  by_cases h : x = k
  · simp [h]
  · rw [if_neg h, if_neg (Ne.symm h), UInt32.add_zero]

lemma ofNat_countP_cons {β : Type} (p : β → Bool) (e : β) (es : List β) :
    UInt32.ofNat ((e :: es).countP p) = (if p e then 1 else 0) + UInt32.ofNat (es.countP p) := by
  rw [List.countP_cons, Nat.add_comm, UInt32.ofNat_add]
  split <;> rfl

/-- The three collections after some entries, from any start. -/
lemma foldl_dirent (db : Db) (es : List ((Ino ×ₗ Bytes) × Dirent)) : ∀ (t : Tally) (x : Ino),
    let t' := es.foldl (fun t e => t.dirent db (ofLex e.1).1 e.2) t
    (t'.linkCounts.get? x).getD 0
        = (t.linkCounts.get? x).getD 0 + UInt32.ofNat (es.countP (fun e => e.2.childIno = x))
    ∧ (t'.childDirs.get? x).getD 0
        = (t.childDirs.get? x).getD 0 + UInt32.ofNat (es.countP (fun e =>
            (ofLex e.1).1 = x && (db.inodes.get? e.2.childIno).any (fun i => i.kind.isDir)))
    ∧ (t'.children.get? x).getD []
        = (t.children.get? x).getD []
          ++ (es.filter (fun e => (ofLex e.1).1 = x)).map (fun e => e.2.childIno) := by
  induction es with
  | nil => intro t x; simp
  | cons e es ih =>
    intro t x
    obtain ⟨h1, h2, h3⟩ := ih (t.dirent db (ofLex e.1).1 e.2) x
    refine ⟨?_, ?_, ?_⟩
    · rw [List.foldl_cons, h1, ofNat_countP_cons, ← UInt32.add_assoc]
      congr 1
      simpa [Tally.dirent] using getD_bump t.linkCounts e.2.childIno x
    · rw [List.foldl_cons, h2, ofNat_countP_cons, ← UInt32.add_assoc]
      congr 1
      unfold Tally.dirent
      cases hc : db.inodes.get? e.2.childIno with
      | none => simp
      | some c =>
        cases hd : c.kind.isDir with
        | false => simp [hd]
        | true => simpa [hd] using getD_bump t.childDirs (ofLex e.1).1 x
    · rw [List.foldl_cons, h3, Tally.dirent, get?_insert, List.filter_cons]
      by_cases hx : (ofLex e.1).1 = x
      · simp [hx]
      · simp [hx, Ne.symm hx]

lemma linkCounts_eq (db : Db) (x : Ino) :
    ((tally db).linkCounts.get? x).getD 0 = UInt32.ofNat (db.names x) := by
  have h := (foldl_dirent db db.dirents.entries ⟨∅, ∅, ∅⟩ x).1
  simpa [tally, Db.names, OrdMap.count] using h

lemma childDirs_eq (db : Db) (x : Ino) :
    ((tally db).childDirs.get? x).getD 0 = UInt32.ofNat (db.subdirs x) := by
  have h := (foldl_dirent db db.dirents.entries ⟨∅, ∅, ∅⟩ x).2.1
  simpa [tally, Db.subdirs, OrdMap.count] using h

lemma children_eq (db : Db) (x : Ino) : ((tally db).children.get? x).getD [] = db.children x := by
  have h := (foldl_dirent db db.dirents.entries ⟨∅, ∅, ∅⟩ x).2.2
  simpa [tally, Db.children, OrdMap.scan] using h

/-! ## The search from the root -/

lemma isDirIno_iff : isDirIno db x = true ↔ db.isDirectory x := by
  unfold isDirIno Db.isDirectory
  cases db.inodes.get? x with
  | none => simp
  | some i => simp [isDir_iff]

lemma reachable_sound (h : x ∈ reachable db) : db.Reachable x := by
  rw [reachable, funext (children_eq db)] at h
  exact Worklist.flood_sound _ [ROOT_INO] [ROOT_INO]
    (fun y hy => .root (List.mem_singleton.mp hy)) (fun _ hy => hy) x h

/-! ## The local facts -/

/-- What the checks say about one entry. -/
structure EntryChecked (db : Db) (p : Ino) (e : Bytes) (d : Dirent) : Prop where
  holder : ∃ h, db.inodes.get? p = some h ∧ h.kind = .dir ∧ d.direntId < h.nextDirentId
  child : ∃ c, db.inodes.get? d.childIno = some c ∧ c.kind = d.kind
    ∧ (c.kind = .dir → c.parentDir = p)
  index : db.direntIdxs.get? (toLex (p, d.direntId)) = some ⟨e, d.childIno, d.kind⟩

/-- What the checks say about one inode. -/
structure InodeChecked (db : Db) (cs : Nat) (x : Ino) (i : Inode) : Prop where
  dir : i.kind = .dir → UInt32.ofNat (db.names x) ≤ 1
    ∧ i.nlink = 2 + UInt32.ofNat (db.subdirs x)
    ∧ (x ≠ ROOT_INO → UInt32.ofNat (db.names x) ≠ 0)
  leaf : i.kind ≠ .dir → i.nlink = UInt32.ofNat (db.names x)
    ∨ i.nlink = 0 ∧ (db.orphans.get? x).isSome
  chunks : ∀ c ∈ chunksOf db x, c.2 ≤ cs
  bill : billed db cs x i = i.billedBytes
  found : x ∈ reachable db ∨ i.nlink = 0 ∧ (db.orphans.get? x).isSome

/-- What a report without problems says. -/
structure Checked (db : Db) (cs : Nat) : Prop where
  root : ∃ i, db.inodes.get? ROOT_INO = some i ∧ i.kind = .dir ∧ i.parentDir = ROOT_INO
  entry : ∀ p e d, db.dirents.get? (toLex (p, e)) = some d → EntryChecked db p e d
  indexed : ∀ p n r, db.direntIdxs.get? (toLex (p, n)) = some r →
    ∃ e d, db.dirents.get? (toLex (p, e)) = some d ∧ d.direntId = n
  inode : ∀ x i, db.inodes.get? x = some i → InodeChecked db cs x i

lemma holds_of_no_fault {β : Type} {c : Prop} [Decidable c] {f : β}
    (h : (if c then [] else [f]) = []) : c :=
  by_contra fun hc => nomatch ite_eq_left_iff.mp h hc

lemma fails_of_no_fault {β : Type} {c : Prop} [Decidable c] {f : β}
    (h : (if c then [f] else []) = []) : ¬c :=
  fun hc => nomatch ite_eq_right_iff.mp h hc

lemma rootChecked (h : rootProblems db = []) :
    ∃ i, db.inodes.get? ROOT_INO = some i ∧ i.kind = .dir ∧ i.parentDir = ROOT_INO := by
  unfold rootProblems at h
  split at h
  · cases h
  rename_i i hi
  obtain ⟨hdir, hup⟩ := List.append_eq_nil_iff.mp h
  exact ⟨i, hi, isDir_iff.mp (holds_of_no_fault hdir), holds_of_no_fault hup⟩

lemma entryChecked {p : Ino} {e : Bytes} {d : Dirent} (h : direntFaults db names p e d = []) :
    EntryChecked db p e d := by
  unfold direntFaults at h
  simp only [List.append_eq_nil_iff] at h
  obtain ⟨⟨⟨hholder, hchild⟩, hindex⟩, _⟩ := h
  refine ⟨?_, ?_, ?_⟩
  · unfold holderFaults at hholder
    split at hholder
    · cases hholder
    rename_i i hi
    split at hholder
    · cases hholder
    rename_i hd
    split at hholder
    · cases hholder
    · exact ⟨i, hi, isDir_iff.mp (by simpa using hd), by omega⟩
  · unfold childFaults at hchild
    split at hchild
    · cases hchild
    rename_i c hc
    obtain ⟨hkind, hup⟩ := List.append_eq_nil_iff.mp hchild
    refine ⟨c, hc, holds_of_no_fault hkind, fun hdir => by_contra fun hp => ?_⟩
    exact fails_of_no_fault hup (by simp [isDir_iff.mpr hdir, hp])
  · unfold indexFaults at hindex
    split at hindex
    · cases hindex
    rename_i r hr
    split at hindex
    · cases hindex
    rename_i hsame
    obtain ⟨h1, h2, h3⟩ := by simpa only [not_or, ne_eq, not_not] using hsame
    cases r
    simp_all

lemma inodeChecked (hlinks : linkFaults db (tally db) x i = []) (hbill : billFaults db cs x i = [])
    (hfound : x ∈ reachable db ∨ i.nlink = 0 ∧ (db.orphans.get? x).isSome) :
    InodeChecked db cs x i := by
  unfold linkFaults at hlinks
  simp only [linkCounts_eq, childDirs_eq] at hlinks
  obtain ⟨hsize, hbilled⟩ := List.append_eq_nil_iff.mp hbill
  refine ⟨fun hd => ?_, fun hd => ?_, fun c hc => ?_, holds_of_no_fault hbilled, hfound⟩
  · rw [if_pos (isDir_iff.mpr hd)] at hlinks
    simp only [List.append_eq_nil_iff] at hlinks
    obtain ⟨⟨h1, h2⟩, h3⟩ := hlinks
    exact ⟨UInt32.not_lt.mp (fails_of_no_fault h1), holds_of_no_fault h2,
      fun hx hc => fails_of_no_fault h3 ⟨hx, hc⟩⟩
  · rw [if_neg (fun hn => hd (isDir_iff.mp hn))] at hlinks
    by_cases heq : i.nlink = UInt32.ofNat (db.names x)
    · exact .inl heq
    have h1 := (List.append_eq_nil_iff.mp hlinks).1
    rw [if_pos heq] at h1
    exact .inr (holds_of_no_fault h1)
  · simpa using List.filter_eq_nil_iff.mp (List.map_eq_nil_iff.mp hsize) c hc

/-- A report without problems says all of it. -/
lemma checked_of_no_problems (h : (check db cs names).problems = []) : Checked db cs := by
  unfold check at h
  simp only [List.append_eq_nil_iff] at h
  obtain ⟨⟨⟨⟨⟨hroot, hdirents⟩, hindex⟩, hinodes⟩, _⟩, hreach⟩ := h
  refine ⟨rootChecked hroot, ?_, ?_, ?_⟩
  · intro p e d hd
    have := List.flatMap_eq_nil_iff.mp hdirents _ (mem_entries.mpr hd)
    exact entryChecked (List.map_eq_nil_iff.mp this)
  · intro p n r hr
    have hany := List.filter_eq_nil_iff.mp (List.map_eq_nil_iff.mp hindex) _ (mem_entries.mpr hr)
    rw [Bool.not_eq_true, Bool.not_eq_false'] at hany
    obtain ⟨⟨k, d⟩, hk, hboth⟩ := List.any_eq_true.mp hany
    obtain ⟨hp, hn⟩ := Bool.and_eq_true_iff.mp hboth
    obtain rfl : (ofLex k).1 = p := of_decide_eq_true hp
    exact ⟨(ofLex k).2, d, mem_entries.mp hk, of_decide_eq_true hn⟩
  · intro x i hi
    have hmem := mem_entries.mpr hi
    have hfaults := List.map_eq_nil_iff.mp (List.flatMap_eq_nil_iff.mp hinodes _ hmem)
    obtain ⟨hlinks, hbill⟩ := List.append_eq_nil_iff.mp hfaults
    refine inodeChecked hlinks hbill ?_
    have := List.filter_eq_nil_iff.mp (List.map_eq_nil_iff.mp hreach) _ hmem
    by_cases hr : x ∈ reachable db
    · exact .inl hr
    · refine .inr ?_
      simpa [hr, Option.isSome_iff_ne_none] using this

/-! ## The bill -/

/-- Chunk indices are `u32`: they are four bytes of the key. -/
def NarrowChunks (db : Db) : Prop := ∀ k c, db.chunks.get? k = some c → (ofLex k).2 < 2 ^ 32

lemma mem_chunksOf {c : Nat × Nat} (h : c ∈ chunksOf db x) :
    ∃ b, db.chunks.get? (toLex (x, c.1)) = some b ∧ b.length = c.2 := by
  obtain ⟨⟨k, b⟩, hk, rfl⟩ := List.mem_map.mp h
  obtain ⟨hget, hx⟩ := mem_scan.mp hk
  obtain rfl : (ofLex k).1 = x := of_decide_eq_true hx
  exact ⟨b, hget, rfl⟩

lemma billedOf_eq_sum (cs : Nat) (db : Db) (x : Ino) (size : Nat) :
    billedOf cs db x size
      = ((chunksOf db x).map (fun c => billedChunkBytes size (c.1 * cs) c.2)).sum := by
  unfold billedOf chunksOf OrdMap.sum OrdMap.scan
  induction db.chunks.entries with
  | nil => rfl
  | cons e es ih =>
    rw [List.map_cons, List.sum_cons, ih, List.filter_cons, billOf]
    by_cases hx : (ofLex e.1).1 = x <;> simp [hx]

lemma sum_ofNat {β : Type} (f : β → Nat) (cs : List β) :
    (cs.map (fun c => UInt64.ofNat (f c))).sum = UInt64.ofNat (cs.map f).sum := by
  induction cs with
  | nil => rfl
  | cons c cs ih =>
    rw [List.map_cons, List.sum_cons, ih, List.map_cons, List.sum_cons, UInt64.ofNat_add]

lemma billed_eq (hcs : cs < 2 ^ 32) (hidx : NarrowChunks db) (x : Ino) (i : Inode) :
    billed db cs x i = UInt64.ofNat (billedOf cs db x i.size) := by
  rw [billedOf_eq_sum, ← sum_ofNat, billed]
  congr 1
  refine List.map_congr_left ?_
  intro c hc
  obtain ⟨b, hb, _⟩ := mem_chunksOf hc
  have hlt : c.1 * cs < 2 ^ 64 :=
    Nat.lt_of_lt_of_le (Nat.mul_lt_mul'' (hidx _ _ hb) hcs) (by decide)
  rw [Nat.mod_eq_of_lt hlt]

/-- The bill of an inode fits: it has at most one chunk per index. -/
lemma billedOf_lt (hcs : cs < 2 ^ 32) (hidx : NarrowChunks db)
    (h : ∀ c ∈ chunksOf db x, c.2 ≤ cs) (size : Nat) : billedOf cs db x size < 2 ^ 64 := by
  have hnodup : ((chunksOf db x).map Prod.fst).Nodup := by
    unfold chunksOf
    rw [List.map_map]
    refine List.Nodup.map_on ?_ (db.chunks.nodup.filter _)
    intro a ha b hb hab
    obtain ⟨ha, hax⟩ := List.mem_filter.mp ha
    obtain ⟨hb, hbx⟩ := List.mem_filter.mp hb
    have hkey : ofLex a.1 = ofLex b.1 :=
      Prod.ext ((of_decide_eq_true hax).trans (of_decide_eq_true hbx).symm) hab
    exact eq_of_mem_of_key ha hb (ofLex.injective hkey)
  have hlen : (chunksOf db x).length ≤ 2 ^ 32 := by
    have hsub : (chunksOf db x).map Prod.fst ⊆ List.range (2 ^ 32) := by
      intro n hn
      obtain ⟨c, hc, rfl⟩ := List.mem_map.mp hn
      obtain ⟨b, hb, _⟩ := mem_chunksOf hc
      exact List.mem_range.mpr (hidx _ _ hb)
    have := (hnodup.subperm hsub).length_le
    rwa [List.length_map, List.length_range] at this
  rw [billedOf_eq_sum]
  calc ((chunksOf db x).map (fun c => billedChunkBytes size (c.1 * cs) c.2)).sum
      ≤ (chunksOf db x).length * cs := by
        refine Nat.le_trans (List.sum_le_card_nsmul _ cs ?_) (by simp)
        intro n hn
        obtain ⟨c, hc, rfl⟩ := List.mem_map.mp hn
        exact Nat.le_trans (Nat.min_le_left _ _) (h c hc)
    _ ≤ 2 ^ 32 * cs := Nat.mul_le_mul_right _ hlen
    _ < 2 ^ 64 := by omega

/-! ## A sound filesystem -/

/-- The records describe a sound filesystem. -/
structure Sound (cs : Nat) (db : Db) : Prop where
  /-- The directories form one tree, with exact `parent_dir` and link counts. -/
  dirs : DirTree db
  root_up : ∀ i, db.inodes.get? ROOT_INO = some i → i.parentDir = ROOT_INO
  /-- Entries are held by directories. -/
  held : ∀ p e d, db.dirents.get? (toLex (p, e)) = some d → db.isDirectory p
  /-- Entries name inodes, and the links of the others are their entries. -/
  names : NamesAgree db
  /-- Each entry has an index record under its id. -/
  index : ∀ p e d, db.dirents.get? (toLex (p, e)) = some d →
    db.direntIdxs.get? (toLex (p, d.direntId)) = some ⟨e, d.childIno, d.kind⟩
  /-- Each index record has an entry with its id. -/
  entry : ∀ p n r, db.direntIdxs.get? (toLex (p, n)) = some r →
    ∃ d, db.dirents.get? (toLex (p, r.encName)) = some d ∧ d.direntId = n
      ∧ d.childIno = r.childIno ∧ d.kind = r.kind
  /-- Every inode that is not an orphan is reachable. -/
  reachable : ∀ x i, db.inodes.get? x = some i →
    db.Reachable x ∨ i.nlink = 0 ∧ (db.orphans.get? x).isSome
  billed : ∀ x i, db.inodes.get? x = some i → i.billedBytes.toNat = billedOf cs db x i.size

/-- What the checks do not look at. -/
structure NoGap (db : Db) : Prop where
  /-- No entry names the root. -/
  root_unnamed : db.names ROOT_INO = 0
  /-- No entry names a file without links that has an orphan marker. -/
  orphan_unnamed : ∀ x i, db.inodes.get? x = some i → i.kind ≠ .dir → i.nlink = 0 →
    (db.orphans.get? x).isSome → db.names x = 0
  /-- No inode has `2 ^ 32` entries. -/
  names_fit : ∀ x, (db.inodes.get? x).isSome → db.names x < 2 ^ 32
  /-- No directory has `2 ^ 32 - 2` sub-directories. -/
  subdirs_fit : ∀ x, db.isDirectory x → 2 + db.subdirs x < 2 ^ 32

lemma exists_entry_of_names (hx : db.names x ≠ 0) :
    ∃ p e d, db.dirents.get? (toLex (p, e)) = some d ∧ d.childIno = x := by
  by_contra hno
  refine hx (names_eq_zero.mpr ?_)
  intro k d hk hd
  exact hno ⟨(ofLex k).1, (ofLex k).2, d, hk, hd⟩

namespace Checked

variable (hc : Checked db cs)
include hc

lemma isDir_entry {p : Ino} {e : Bytes} {d : Dirent}
    (hd : db.dirents.get? (toLex (p, e)) = some d) :
    d.kind.isDir = true ↔ db.isDirectory d.childIno := by
  obtain ⟨c, hget, hkind, _⟩ := (hc.entry p e d hd).child
  rw [isDir_iff, ← hkind]
  constructor
  · intro h
    exact ⟨c, hget, h⟩
  · rintro ⟨c', hget', hdir⟩
    rw [hget] at hget'
    cases hget'
    exact hdir

/-- What the search finds among the directories climbs to the root. -/
lemma climbs (hx : db.Reachable x) (hdir : db.isDirectory x) :
    Forest.Climbs db.dirs.up ROOT_INO x := by
  induction hx with
  | root h => rw [h]; exact .root
  | @step p y _ hy ih =>
    obtain ⟨e, d, hd, rfl⟩ := Db.mem_children.mp hy
    have hentry := hc.entry p e d hd
    obtain ⟨h, hget, hkind, _⟩ := hentry.holder
    obtain ⟨c, hchild, _, hup⟩ := hentry.child
    obtain ⟨c', hchild', hdir'⟩ := hdir
    rw [hchild] at hchild'
    cases hchild'
    refine .step ?_
    rw [Dirs.IsTree.up_of_parent (dirs_parent_of_dir hchild hdir'), hup hdir']
    exact ih ⟨h, hget, hkind⟩

lemma dir_links (hg : NoGap db) (hi : db.inodes.get? x = some i) (hk : i.kind = .dir) :
    i.nlink.toNat = 2 + db.subdirs x := by
  have hfit := hg.subdirs_fit x ⟨i, hi, hk⟩
  have h2 : (2 : UInt32).toNat = 2 := rfl
  rw [((hc.inode x i hi).dir hk).2.1, UInt32.toNat_add,
    UInt32.toNat_ofNat_of_lt' (show _ < 2 ^ 32 by omega), h2, Nat.mod_eq_of_lt hfit]

lemma isTree (hg : NoGap db) : db.dirs.IsTree ROOT_INO where
  root_dir := by
    obtain ⟨i, hi, hk, _⟩ := hc.root
    exact parent_isSome_of_dir hi hk
  root_unnamed k b h := by
    obtain ⟨d, hd, hroot⟩ := Option.map_eq_some_iff.mp h
    exact names_eq_zero.mp hg.root_unnamed _ d hd (congrArg Prod.fst hroot)
  holder p e c h := by
    obtain ⟨d, hd, _⟩ := Option.map_eq_some_iff.mp h
    obtain ⟨i, hi, hk, _⟩ := (hc.entry p e d hd).holder
    exact parent_isSome_of_dir hi hk
  child p e x h := by
    obtain ⟨d, hd, hx⟩ := Option.map_eq_some_iff.mp h
    obtain ⟨rfl, hdir⟩ := Prod.mk.inj hx
    obtain ⟨c, hget, hkind, hup⟩ := (hc.entry p e d hd).child
    have hk : c.kind = .dir := hkind.trans (isDir_iff.mp hdir)
    rw [dirs_parent_of_dir hget hk, hup hk]
  leaf k x h := by
    obtain ⟨d, hd, hx⟩ := Option.map_eq_some_iff.mp h
    obtain ⟨rfl, hdir⟩ := Prod.mk.inj hx
    obtain ⟨c, hget, hkind, _⟩ := (hc.entry k.1 k.2 d hd).child
    refine dirs_parent_of_not_dir hget ?_
    intro hk
    rw [isDir_iff.mpr (hkind.symm.trans hk)] at hdir
    cases hdir
  named x p h hx := by
    obtain ⟨i, hi, hk⟩ := isDirectory_iff.mpr (by rw [h]; rfl)
    obtain ⟨_, _, hlinks⟩ := (hc.inode x i hi).dir hk
    have hne : db.names x ≠ 0 := by
      intro h0
      rw [h0] at hlinks
      exact hlinks hx rfl
    obtain ⟨q, e, d, hd, rfl⟩ := exists_entry_of_names hne
    obtain ⟨c, hget, _, hup⟩ := (hc.entry q e d hd).child
    rw [hi] at hget
    cases hget
    rw [dirs_parent_of_dir hi hk, hup hk] at h
    cases h
    refine ⟨e, ?_⟩
    rw [dirs_entry, hd, Option.map_some, entryOf, (hc.isDir_entry hd).mpr ⟨i, hi, hk⟩]
  unique k k' x h h' := by
    obtain ⟨d, hd, hx⟩ := Option.map_eq_some_iff.mp h
    obtain ⟨d', hd', hx'⟩ := Option.map_eq_some_iff.mp h'
    obtain ⟨hdx, hdir⟩ := Prod.mk.inj hx
    obtain ⟨hdx', _⟩ := Prod.mk.inj hx'
    obtain ⟨i, hi, hk⟩ := hdx ▸ (hc.isDir_entry hd).mp hdir
    have hle := ((hc.inode x i hi).dir hk).1
    rw [UInt32.le_iff_toNat_le, UInt32.toNat_ofNat_of_lt' (hg.names_fit x (by rw [hi]; rfl))] at hle
    exact toLex.injective (eq_of_count_le_one hle hd hd' (decide_eq_true hdx) (decide_eq_true hdx'))
  climbs x h := by
    obtain ⟨i, hi, hk⟩ := isDirectory_iff.mpr h
    refine hc.climbs ?_ ⟨i, hi, hk⟩
    rcases (hc.inode x i hi).found with hr | ⟨h0, _⟩
    · exact reachable_sound hr
    -- only a directory whose link count has wrapped could pass as an orphan
    have hlinks := hc.dir_links hg hi hk
    have hzero : (0 : UInt32).toNat = 0 := rfl
    rw [h0, hzero] at hlinks
    omega

lemma dirTree (hg : NoGap db) : DirTree db := by
  refine dirTree_of_isTree (hc.isTree hg) ?_
  intro x n hn
  obtain ⟨i, hi, hlinks⟩ := Option.bind_eq_some_iff.mp hn
  have hk : i.kind = .dir := by
    by_contra hk
    rw [dirLinks_of_leaf hk] at hlinks
    cases hlinks
  rw [dirLinks_of_dir hk] at hlinks
  cases hlinks
  rw [hc.dir_links hg hi hk, Db.dirEntries, Db.subdirs]
  congr 1
  refine count_congr ?_
  intro k d hd
  congr 1
  rw [Bool.eq_iff_iff, hc.isDir_entry hd]
  exact isDirIno_iff

lemma namesAgree (hg : NoGap db) : NamesAgree db where
  named k d hd := by
    obtain ⟨c, hget, _⟩ := (hc.entry (ofLex k).1 (ofLex k).2 d hd).child
    rw [hget]; rfl
  links x i hi hk := by
    have hfit := hg.names_fit x (by rw [hi]; rfl)
    by_cases h0 : i.nlink = 0
    · -- without links: the search does not find it, so it has a marker
      have hnames : db.names x = 0 := by
        rcases (hc.inode x i hi).leaf hk with h | ⟨_, ho⟩
        · have := congrArg UInt32.toNat (h0.symm.trans h)
          rw [UInt32.toNat_ofNat_of_lt' hfit] at this
          exact this.symm
        · exact hg.orphan_unnamed x i hi hk h0 ho
      refine .inr ⟨h0, ?_, hnames⟩
      rcases (hc.inode x i hi).found with hr | ⟨_, ho⟩
      · cases reachable_sound hr with
        | root hx =>
          obtain ⟨r, hr, hdir, _⟩ := hc.root
          rw [hx, hr] at hi
          cases hi
          exact absurd hdir hk
        | step _ hy =>
          obtain ⟨e, d, hd, hx⟩ := Db.mem_children.mp hy
          exact absurd hx (names_eq_zero.mp hnames _ d hd)
      · exact ho
    · refine .inl ⟨h0, ?_⟩
      rcases (hc.inode x i hi).leaf hk with h | ⟨h, _⟩
      · rw [h, UInt32.toNat_ofNat_of_lt' hfit]
      · exact absurd h h0

/-- With the gaps closed, what is checked is sound. -/
lemma sound (hcs : cs < 2 ^ 32) (hidx : NarrowChunks db) (hg : NoGap db) : Sound cs db where
  dirs := hc.dirTree hg
  root_up i hi := by
    obtain ⟨r, hr, _, hup⟩ := hc.root
    rw [hr] at hi
    cases hi
    exact hup
  held p e d hd := by
    obtain ⟨h, hget, hk, _⟩ := (hc.entry p e d hd).holder
    exact ⟨h, hget, hk⟩
  names := hc.namesAgree hg
  index p e d hd := (hc.entry p e d hd).index
  entry p n r hr := by
    obtain ⟨e, d, hd, rfl⟩ := hc.indexed p n r hr
    have := (hc.entry p e d hd).index
    rw [hr] at this
    cases this
    exact ⟨d, hd, rfl, rfl, rfl⟩
  reachable x i hi := (hc.inode x i hi).found.imp_left reachable_sound
  billed x i hi := by
    have hi := hc.inode x i hi
    rw [← hi.bill, billed_eq hcs hidx, UInt64.toNat_ofNat',
      Nat.mod_eq_of_lt (billedOf_lt hcs hidx hi.chunks i.size)]

end Checked

lemma Sound.noGap (h : Sound cs db) : NoGap db where
  root_unnamed := names_eq_zero.mpr h.dirs.root_unnamed
  orphan_unnamed x i hi hk h0 _ := by
    rcases h.names.links x i hi hk with ⟨hne, _⟩ | ⟨_, _, hnames⟩
    · exact absurd h0 hne
    · exact hnames
  names_fit x hx := by
    obtain ⟨i, hi⟩ := Option.isSome_iff_exists.mp hx
    by_cases hk : i.kind = .dir
    · have : db.names x ≤ 1 := by
        by_cases hroot : x = ROOT_INO
        · rw [hroot, names_eq_zero.mpr h.dirs.root_unnamed]
          exact Nat.zero_le 1
        · obtain ⟨_, e, d, hd, hx, honly⟩ := h.dirs.named x i hi hk hroot
          refine count_le_one ?_
          intro k k' d d' hk hk' hp hp'
          rw [honly k d hk (of_decide_eq_true hp), honly k' d' hk' (of_decide_eq_true hp')]
      omega
    · rcases h.names.links x i hi hk with ⟨_, hnames⟩ | ⟨_, _, hnames⟩
      · rw [← hnames]
        exact i.nlink.toNat_lt
      · rw [hnames]
        decide
  subdirs_fit x hx := by
    obtain ⟨i, hi, hk⟩ := hx
    rw [← h.dirs.links x i hi hk]
    exact i.nlink.toNat_lt

end Fsck

end SlateFs
