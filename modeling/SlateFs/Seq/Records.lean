import SlateFs.Seq.Nodes
import SlateFs.Seq.Runs

/-!
# Every record has an owner

Chunks, extended attributes and link targets are stored under the number of the
node they belong to. When a node goes, its records must go with it or a marker must
stay behind to have them reaped. That holds as long as no rename replaces a
directory that has extended attributes: `rmdir` deletes them, a rename over the
directory does not.
-/

namespace SlateFs

open OrdMap

variable {v : Volume} {G : Guard} {db db' : Db} {n : Ino} {P : FileKind → Prop}

/-- A node of a suitable kind, or a marker, stands for the number. -/
def Db.Owned (db : Db) (n : Ino) (P : FileKind → Prop) : Prop :=
  (∃ i, db.inodes.get? n = some i ∧ P i.kind) ∨ (db.orphans.get? n).isSome

/-- The records under one number have an owner, of the kind that has such records. -/
structure OwnedAt (db : Db) (n : Ino) : Prop where
  chunk : ∀ i, (db.chunks.get? (toLex (n, i))).isSome → db.Owned n (· = .file)
  xattr : ∀ x, (db.xattrs.get? (toLex (n, x))).isSome → db.Owned n (fun _ => True)
  symlink : (db.symlinks.get? n).isSome → db.Owned n (· = .symlink)

def AllOwned (db : Db) : Prop := ∀ n, OwnedAt db n

/-! ## Owners through a transaction -/

/-- The records under a number after a change were there before, or have an owner now. -/
structure Sheds (db db' : Db) (n : Ino) : Prop where
  chunk : ∀ i, (db'.chunks.get? (toLex (n, i))).isSome →
    (db.chunks.get? (toLex (n, i))).isSome ∨ db'.Owned n (· = .file)
  xattr : ∀ x, (db'.xattrs.get? (toLex (n, x))).isSome →
    (db.xattrs.get? (toLex (n, x))).isSome ∨ db'.Owned n (fun _ => True)
  symlink : (db'.symlinks.get? n).isSome → (db.symlinks.get? n).isSome ∨ db'.Owned n (· = .symlink)

lemma OwnedAt.sheds (h : OwnedAt db n) (hr : Sheds db db' n)
    (ho : ∀ P, db.Owned n P → db'.Owned n P) : OwnedAt db' n where
  chunk i hi := (hr.chunk i hi).elim (fun hc => ho _ (h.chunk i hc)) id
  xattr x hx := (hr.xattr x hx).elim (fun hx => ho _ (h.xattr x hx)) id
  symlink hs := (hr.symlink hs).elim (fun hs => ho _ (h.symlink hs)) id

lemma Bare.sheds (h : Bare db n) (hr : Sheds db db' n) : OwnedAt db' n where
  chunk i hi := (hr.chunk i hi).resolve_left (by simp [h.chunk])
  xattr x hx := (hr.xattr x hx).resolve_left (by simp [h.xattr])
  symlink hs := (hr.symlink hs).resolve_left (by simp [h.symlink])

/-- A directory stores nothing but attributes. -/
lemma OwnedAt.bare_dir (h : OwnedAt db n) (hT : Tree db) {i : Inode}
    (hi : db.inodes.get? n = some i) (hkind : i.kind = .dir)
    (hx : ∀ x, db.xattrs.get? (toLex (n, x)) = none) : Bare db n := by
  have hno : ∀ k : FileKind, k ≠ .dir → ¬db.Owned n (· = k) := by
    intro k hk ho
    rcases ho with ⟨j, hj, hjk⟩ | ho
    · rw [hi] at hj
      exact hk (by rw [← hjk, ← Option.some.inj hj, hkind])
    · have := hT.unmarked n ho
      rw [dirs_parent_of_dir hi hkind] at this
      cases this
  refine ⟨fun j => ?_, hx, ?_⟩
  · by_contra hc
    exact hno .file (by decide) (h.chunk j (Option.isSome_iff_ne_none.mpr hc))
  · by_contra hc
    exact hno .symlink (by decide) (h.symlink (Option.isSome_iff_ne_none.mpr hc))

/--
A transaction that adds no records under the number and takes no marker away from
it leaves its records owned.
-/
lemma OwnedAt.txn_sheds (h : OwnedAt db n) (hT : Tree db) (hG : ¬G.strand db n)
    (ht : Txn v G db db') (hr : Sheds db db' n)
    (ho : (db.orphans.get? n).isSome → (db'.orphans.get? n).isSome) : OwnedAt db' n := by
  have hkeep : ∀ i', db'.inodes.get? n = some i' →
      (∀ i, db.inodes.get? n = some i → i'.kind = i.kind) → OwnedAt db' n := by
    intro i' hi' hk
    refine h.sheds hr ?_
    rintro P (⟨i, hi, hP⟩ | hm)
    · exact .inl ⟨i', hi', by rw [hk i hi]; exact hP⟩
    · exact .inr (ho hm)
  have hnode := ht.node n
  cases hn : db'.inodes.get? n with
  | some i' =>
    rw [hn] at hnode
    exact hkeep i' hn (fun i hi => hnode.kind hi)
  | none =>
    rw [hn] at hnode
    generalize hnone : (none : Option Inode) = o at hnode
    cases hnode with
    | same =>
      refine h.sheds hr ?_
      rintro P (⟨i, hi, hP⟩ | hm)
      · rw [hi] at hnone; cases hnone
      · exact .inr (ho hm)
    | gone hi hleft =>
      rcases hleft with hm | ⟨hkind, hx | hs⟩
      · exact h.sheds hr (fun _ _ => .inr hm)
      · exact (h.bare_dir hT hi hkind hx).sheds hr
      · exact absurd hs hG
    | _ => cases hnone

/-! ## Which transactions add records -/

lemma Sheds.of_eq (hc : db'.chunks = db.chunks) (hx : db'.xattrs = db.xattrs)
    (hs : db'.symlinks = db.symlinks) : Sheds db db' n where
  chunk _ h := .inl (hc ▸ h)
  xattr _ h := .inl (hx ▸ h)
  symlink h := .inl (hs ▸ h)

lemma tailBinding_eq (ino : Ino) (tail : Option (Nat × Bytes)) :
    tailBinding ino tail = tail.toList.map (fun p => (toLex (ino, p.1), p.2)) := by
  cases tail <;> rfl

lemma isSome_of_eraseAll {κ β : Type} [LinearOrder κ] {m : OrdMap κ β} {ks : List κ} {k : κ}
    (h : ((m.eraseAll ks).get? k).isSome) : (m.get? k).isSome := by
  rw [get?_eraseAll] at h
  split at h
  · cases h
  · exact h

lemma isSome_of_erase {κ β : Type} [LinearOrder κ] {m : OrdMap κ β} {a k : κ}
    (h : ((m.erase a).get? k).isSome) : (m.get? k).isSome := by
  rw [get?_erase] at h
  split at h
  · cases h
  · exact h

/-- Chunks put under one number are that number's. -/
lemma isSome_putChunks {m : OrdMap (Ino ×ₗ Nat) Bytes} {ino : Ino} {i : Nat}
    {puts : List (Nat × Bytes)}
    (h : ((m.insertAll (puts.map (fun p => (toLex (ino, p.1), p.2)))).get? (toLex (n, i))).isSome) :
    (m.get? (toLex (n, i))).isSome ∨ n = ino := by
  induction puts generalizing m with
  | nil => exact .inl h
  | cons p rest ih =>
    rcases ih h with hi | hi
    · rw [get?_insert] at hi
      split at hi
      · rename_i he
        exact .inr (Prod.mk.inj (toLex.injective he)).1
      · exact .inl hi
    · exact .inr hi

/-- A file that was rewritten stands for its number. -/
lemma Db.Owned.file {ino : Ino} {i : Inode} (hi : db'.inodes = db.inodes.insert ino i)
    (hkind : i.kind = .file) : db'.Owned ino (· = .file) :=
  .inl ⟨i, by rw [hi, get?_insert_self], hkind⟩

lemma Txn.sheds (ht : Txn v G db db') (n : Ino) : Sheds db db' n := by
  cases ht with
  | lease m => exact .of_eq rfl rfl rfl
  | touch hi h => exact .of_eq rfl rfl rfl
  | @setXattr ino i name value hi =>
    refine ⟨fun _ h => .inl h, fun x hx => ?_, fun h => .inl h⟩
    change ((db.xattrs.insert _ _).get? _).isSome at hx
    rw [get?_insert] at hx
    split at hx
    · rename_i he
      obtain rfl := (Prod.mk.inj (toLex.injective he)).1
      exact .inr (.inl ⟨i, hi, trivial⟩)
    · exact .inl hx
  | dropXattr ino name =>
    exact ⟨fun _ h => .inl h, fun _ h => .inl (isSome_of_erase h), fun h => .inl h⟩
  | @insertNode p parent name c child target ts hparent hdir hfree hnew hfresh hchild _ htarget _ =>
    rw [apply_insertNodeBatch]
    refine ⟨fun _ h => .inl h, fun _ h => .inl h, fun h => ?_⟩
    cases target with
    | none => exact .inl h
    | some t =>
      rw [get?_insert] at h
      split at h
      · rename_i hc
        subst hc
        have hpc : n ≠ p := (hnew.ne hparent).symm
        refine .inr (.inl ⟨child, ?_, htarget rfl⟩)
        exact (get?_insert_of_ne _ _ hpc).trans (get?_insert_self ..)
      · exact .inl h
  | link => exact .of_eq rfl rfl rfl
  | unlinkKeep => exact .of_eq rfl rfl rfl
  | unlinkOpen => exact .of_eq rfl rfl rfl
  | unlinkGone => rw [apply_unlinkGone]; exact .of_eq rfl rfl rfl
  | rmdir => rw [apply_dropDir]; exact .of_eq rfl rfl rfl
  | move => rw [apply_renameBatch]; exact .of_eq rfl rfl rfl
  | write hi hkind hdata hmax hi' hG =>
    rw [apply_writeBatch]
    refine ⟨fun i h => ?_, fun _ h => .inl h, fun h => .inl h⟩
    refine (isSome_putChunks h).imp_right ?_
    rintro rfl
    exact .file rfl (hi'.kind.trans hkind)
  | @truncate ino i i' newSize hi hkind hne hcs hi' hG =>
    rw [apply_truncateBatch]
    refine ⟨fun j h => ?_, fun _ h => .inl h, fun h => .inl h⟩
    -- beside what is erased, the last chunk is cut
    have hput := isSome_of_eraseAll h
    rw [tailBinding_eq] at hput
    refine (isSome_putChunks hput).imp_right ?_
    rintro rfl
    exact .file rfl (hi'.kind.trans hkind)
  | spill hi hidx =>
    exact ⟨fun _ h => .inl (isSome_of_erase h), fun _ h => .inl h, fun h => .inl h⟩
  | finish hi hmark => exact .of_eq rfl rfl rfl
  | reap hgone hr =>
    cases hr with
    | chunk idx =>
      exact ⟨fun _ h => .inl (isSome_of_erase h), fun _ h => .inl h, fun h => .inl h⟩
    | xattr name =>
      exact ⟨fun _ h => .inl h, fun _ h => .inl (isSome_of_erase h), fun h => .inl h⟩
    | symlink =>
      exact ⟨fun _ h => .inl h, fun _ h => .inl h, fun h => .inl (isSome_of_erase h)⟩
    | marker _ => exact .of_eq rfl rfl rfl

/-- Only the reaper takes a marker away, and only from a number with no records left. -/
lemma Txn.unmark (ht : Txn v G db db') (n : Ino) :
    ((db.orphans.get? n).isSome → (db'.orphans.get? n).isSome) ∨ Bare db' n := by
  have hinsert : ∀ (c : Ino) (o : Orphan), (db.orphans.get? n).isSome →
      ((db.orphans.insert c o).get? n).isSome := by
    intro c o h
    rw [get?_insert]
    split
    · rfl
    · exact h
  cases ht with
  | unlinkOpen => exact .inl (hinsert _ _)
  | unlinkGone => rw [apply_unlinkGone]; exact .inl (hinsert _ _)
  | insertNode => rw [apply_insertNodeBatch]; exact .inl id
  | rmdir => rw [apply_dropDir]; exact .inl id
  | move => rw [apply_renameBatch]; exact .inl id
  | write => rw [apply_writeBatch]; exact .inl id
  | truncate => rw [apply_truncateBatch]; exact .inl id
  | @reap ino _ hgone hr =>
    cases hr with
    | marker hb =>
      by_cases hn : n = ino
      · exact .inr ⟨hn ▸ hb.chunk, hn ▸ hb.xattr, hn ▸ hb.symlink⟩
      refine .inl (fun h => ?_)
      show ((db.orphans.erase ino).get? n).isSome
      rwa [get?_erase_of_ne _ hn]
    | _ => exact .inl id
  | _ => exact .inl id

/-- **Every transaction leaves the records owned.** -/
theorem AllOwned.txn (h : AllOwned db) (hT : Tree db) (hG : ∀ n, ¬G.strand db n)
    (ht : Txn v G db db') : AllOwned db' := by
  intro n
  rcases ht.unmark n with ho | hb
  · exact (h n).txn_sheds hT (hG n) ht (ht.sheds n) ho
  · exact ⟨fun i hi => by simp [hb.chunk] at hi, fun x hx => by simp [hb.xattr] at hx,
      fun hs => by simp [hb.symlink] at hs⟩

/-! ## Runs -/

/-- Some record stands for the number: its node, or a marker. -/
def Db.Known (db : Db) (n : Ino) : Prop := (db.inodes.get? n).isSome ∨ (db.orphans.get? n).isSome

/-- **No record is left behind**: each belongs to a number with a node or a marker. -/
structure NoneLeft (db : Db) : Prop where
  xattr : ∀ n x, (db.xattrs.get? (toLex (n, x))).isSome → db.Known n
  symlink : ∀ n, (db.symlinks.get? n).isSome → db.Known n
  chunk : ∀ n i, (db.chunks.get? (toLex (n, i))).isSome → db.Known n

lemma Db.Owned.known (h : db.Owned n P) : db.Known n := by
  rcases h with ⟨i, hi, _⟩ | ho
  · exact .inl (by rw [hi]; rfl)
  · exact .inr ho

/-- No rename is made onto a directory that has extended attributes. -/
def Op.replacesPlain (v : Volume) : Op → St → Bool
  | .rename _ _ q newName, s =>
    (s.db.dirents.get? (toLex (q, v.names.sealName q newName))).all (fun d =>
      (s.db.inodes.get? d.childIno).all (fun i =>
        !i.kind.isDir || (s.db.xattrsOf d.childIno).isEmpty))
  | _, _ => true

lemma Op.replacesPlain_meets {s : St} {op : Op} (h : op.replacesPlain v s) :
    op.Meets { Guard.any with strand := fun _ _ => False } v s.db := by
  refine ⟨?_, fun _ _ _ _ => trivial⟩
  cases op with
  | rename p n q m =>
    refine ⟨fun _ _ _ _ _ _ _ _ _ => trivial, fun d i hd hi hkind => .inl fun x => ?_⟩
    have hnil : s.db.xattrsOf d.childIno = [] := by
      simpa [Op.replacesPlain, hd, hi, isDir_of_eq hkind] using h
    exact scan_eq_nil.mp (List.map_eq_nil_iff.mp hnil) _ (by simp)
  | setattr => exact fun _ _ _ _ => trivial
  | write => exact fun _ _ => trivial
  | mkdir => exact fun _ _ => trivial
  | link => exact fun _ _ => trivial
  | _ => trivial

/-- **Records have owners in every state of a run that never renames onto a directory
with attributes.** -/
theorem none_left_behind {v : Volume} {ts : Timespec} {limits : QuotaLimits} {s : St}
    (h : Reached v (fun op s => op.replacesPlain v s) (freshVolume ts limits) s) :
    NoneLeft s.db := by
  suffices hall : AllOwned s.db from ⟨fun n x hx => ((hall n).xattr x hx).known,
    fun n hs => ((hall n).symlink hs).known, fun n i hi => ((hall n).chunk i hi).known⟩
  refine (Reached.txns (J := AllOwned) (G := { Guard.any with strand := fun _ _ => False })
    (freshVolume_sound ts limits) ?_ ?_ ?_ h).2
  · exact fun n => ⟨fun _ h => (nomatch h), fun _ h => (nomatch h), fun h => (nomatch h)⟩
  · exact fun op s _ _ hop => op.replacesPlain_meets hop
  · exact fun F db db' hT hJ ht => hJ.txn hT (fun _ h => h) ht

theorem none_left_after_rmdir :
    ∃ s, Reached Volume.plain (fun op s => op.replacesPlain Volume.plain s)
    (freshVolume ⟨0, 0⟩ {}) s ∧ s.db.inodes.get? 2 = none ∧ NoneLeft s.db := by
  obtain ⟨s, hs, hn⟩ := Rests.of_runAll Volume.plain
    (fun op s => op.replacesPlain Volume.plain s) .still 9 .root
    [.mkdir 1 [97] 0o755, .setxattr 2 [117, 115, 101, 114, 46, 120] [1],
      .rmdir 1 [97]] (freshVolume ⟨0, 0⟩ {})
    (fun s => s.db.inodes.get? 2 = none) (by decide +kernel)
  exact ⟨s, .rest hs, hn, none_left_behind (.rest hs)⟩

/--
**A rename onto an empty directory leaves its attributes behind.** The directory's
inode and entry go, nothing marks the number, and `rmdir` would have deleted the
attribute.
-/
theorem replaced_dir_leaves_xattr : ¬∀ s, Reached Volume.plain (fun _ _ => True)
    (freshVolume ⟨0, 0⟩ {}) s → NoneLeft s.db := by
  intro h
  obtain ⟨s, hs, hx, hi, ho⟩ := Rests.of_runAll Volume.plain (fun _ _ => True) .still 9 .root
    [.mkdir 1 [97] 0o755, .mkdir 1 [98] 0o755, .setxattr 3 [117, 115, 101, 114, 46, 120] [1],
      .rename 1 [97] 1 [98]] (freshVolume ⟨0, 0⟩ {})
    (fun s => (s.db.xattrs.get? (toLex (3, [117, 115, 101, 114, 46, 120]))).isSome
      ∧ s.db.inodes.get? 3 = none ∧ s.db.orphans.get? 3 = none) (by decide +kernel)
  rcases (h s (.rest hs)).xattr _ _ hx with hk | hk
  · rw [hi] at hk; cases hk
  · rw [ho] at hk; cases hk

end SlateFs
