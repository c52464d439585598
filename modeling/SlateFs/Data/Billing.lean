import SlateFs.Data.Writes

/-!
# What a file is billed

A file is billed the bytes its chunks hold below its end. The planner computes
how a write changes that, chunk by chunk and in 64-bit arithmetic; here its delta
is shown to be the exact change of the total.
-/

namespace SlateFs

/-! ## 64-bit counters -/

lemma sum_ofInt {β : Type} (xs : List β) (f : β → ℤ) :
    (xs.map (fun x => Int64.ofInt (f x))).sum = Int64.ofInt (xs.map f).sum := by
  induction xs with
  | nil => rfl
  | cons x xs ih =>
    rw [List.map_cons, List.sum_cons, ih, List.map_cons, List.sum_cons, Int64.ofInt_add]

/-! ## The bill -/

/-- What one chunk of the store adds to a file's bill. -/
def billOf (cs : Nat) (ino : Ino) (size : Nat) (k : Ino ×ₗ Nat) (c : Bytes) : Nat :=
  if (ofLex k).1 = ino then billedChunkBytes size ((ofLex k).2 * cs) c.length else 0

/-- What a file of this size is billed for its chunks. -/
def billedOf (cs : Nat) (db : Db) (ino : Ino) (size : Nat) : Nat :=
  db.chunks.sum (billOf cs ino size)

variable {cs : Nat} {db db' : Db} {ino : Ino} {size newSize : Nat}

lemma billedOf_cast (cs : Nat) (db : Db) (ino : Ino) (size : Nat) :
    (billedOf cs db ino size : ℤ) = db.chunks.sum (fun k c => (billOf cs ino size k c : ℤ)) :=
  OrdMap.sum_natCast _ _

/-- What an index of the file adds to its bill. -/
def partBill (cs : Nat) (db : Db) (ino : Ino) (size idx : Nat) : ℤ :=
  OrdMap.part (fun _ c => (billedChunkBytes size (idx * cs) c.length : ℤ)) idx
    (db.chunks.get? (toLex (ino, idx)))

lemma part_billOf (cs : Nat) (db : Db) (ino : Ino) (size idx : Nat) :
    OrdMap.part (fun k c => (billOf cs ino size k c : ℤ)) (toLex (ino, idx))
      (db.chunks.get? (toLex (ino, idx))) = partBill cs db ino size idx := by
  unfold partBill
  cases db.chunks.get? (toLex (ino, idx)) with
  | none => rfl
  | some c => simp [billOf]

variable {R : List Nat} {idx : Nat}

/-- A bill moves by what some indices come to add. -/
lemma billedOf_update (hR : R.Nodup)
    (hother : ∀ x idx, x ≠ ino → db'.chunks.get? (toLex (x, idx)) = db.chunks.get? (toLex (x, idx)))
    (h : ∀ idx, idx ∉ R → partBill cs db' ino newSize idx = partBill cs db ino size idx) :
    (billedOf cs db' ino newSize : ℤ) = billedOf cs db ino size
      + (R.map (fun idx => partBill cs db' ino newSize idx - partBill cs db ino size idx)).sum := by
  rw [billedOf_cast, billedOf_cast]
  have hnodup : (R.map (fun idx => toLex (ino, idx))).Nodup :=
    hR.map (fun a b hab => (Prod.mk.inj (toLex.injective hab)).2)
  refine (OrdMap.sum_update hnodup (m := db.chunks)
    (f := fun k c => (billOf cs ino size k c : ℤ)) ?_).trans ?_
  · intro k hk
    obtain ⟨⟨x, idx⟩, rfl⟩ := toLex.surjective k
    by_cases hx : x = ino
    · rw [hx, part_billOf, part_billOf]
      refine h idx (fun hin => hk ?_)
      rw [hx]
      exact List.mem_map.mpr ⟨idx, hin, rfl⟩
    · rw [hother x idx hx]
      cases db.chunks.get? (toLex (x, idx)) with
      | none => rfl
      | some c => simp [billOf, hx]
  · rw [List.map_map]
    simp only [Function.comp_def, part_billOf]

/-- A chunk inside a file is billed in full at every size from there on. -/
lemma billedChunkBytes_full {s start len : Nat} (h : start + len ≤ s) :
    billedChunkBytes s start len = len := by
  unfold billedChunkBytes; omega

lemma billedChunkBytes_beyond {s start : Nat} (h : s ≤ start) (len : Nat) :
    billedChunkBytes s start len = 0 := by
  unfold billedChunkBytes; omega

lemma partBill_of_some {c : Bytes} (h : db.chunks.get? (toLex (ino, idx)) = some c) :
    partBill cs db ino size idx = (billedChunkBytes size (idx * cs) c.length : ℤ) := by
  rw [partBill, h]; rfl

lemma partBill_of_none (h : db.chunks.get? (toLex (ino, idx)) = none) :
    partBill cs db ino size idx = 0 := by
  rw [partBill, h]; rfl

/-- Where no chunk changes and none comes to light, nothing is billed differently. -/
lemma partBill_grow (h : FileRep cs db ino size) (hle : size ≤ newSize)
    (hclear : Clear cs db ino size newSize R) (hR : idx ∉ R)
    (hc : db'.chunks.get? (toLex (ino, idx)) = db.chunks.get? (toLex (ino, idx))) :
    partBill cs db' ino newSize idx = partBill cs db ino size idx := by
  cases hg : db.chunks.get? (toLex (ino, idx)) with
  | none => rw [partBill_of_none (hc.trans hg), partBill_of_none hg]
  | some c =>
    rw [partBill_of_some (hc.trans hg), partBill_of_some hg]
    by_cases hs : idx * cs < size
    · have hin := h.inside idx c hg hs
      rw [billedChunkBytes_full hin, billedChunkBytes_full (le_trans hin hle)]
    · have hbeyond : newSize ≤ idx * cs := by
        by_contra hlt
        exact hR (hclear idx c hg (by omega) (by omega))
      rw [billedChunkBytes_beyond hbeyond, billedChunkBytes_beyond (by omega)]

/-! ## Writes -/

section Write

variable {off : Nat} {data : Bytes}

/-- What a chunk was billed is what the planner takes it to have been billed. -/
lemma oldBilled_eq (idx : Nat) :
    (oldBilled size (idx * cs) (oldChunkOf cs db ino size idx) : ℤ) =
      partBill cs db ino size idx := by
  rw [oldChunkOf]
  by_cases hge : idx * cs ≥ size
  · rw [if_pos hge]
    cases hg : db.chunks.get? (toLex (ino, idx)) with
    | none => rw [partBill_of_none hg]; rfl
    | some c => rw [partBill_of_some hg, billedChunkBytes_beyond hge]; rfl
  · rw [if_neg hge]
    cases hg : db.chunks.get? (toLex (ino, idx)) with
    | none => rw [partBill_of_none hg]; rfl
    | some c => rw [partBill_of_some hg]; rfl

/-- **A write's delta is the change of the file's bill.** -/
theorem billed_write (h : FileRep cs db ino size)
    (hclear : Clear cs db ino size (off + data.length) (writtenRange cs off data.length))
    {db' : Db} (hw : Wrote cs db ino size off data db') :
    ∃ d : ℤ, (writePlanOf cs db ino size off data).billedDelta = Int64.ofInt d
      ∧ (billedOf cs db ino size : ℤ) + d = billedOf cs db' ino (max size (off + data.length)) := by
  refine ⟨_, ?_, (billedOf_update (nodup_writtenRange cs off data.length) ?_ ?_).symm⟩
  · -- chunk by chunk, the planner's delta is the difference of the two bills
    rw [← sum_ofInt]
    show ((writtenRange cs off data.length).map _).sum = _
    congr 1
    refine List.map_congr_left ?_
    intro idx hidx
    have hc : db'.chunks.get? (toLex (ino, idx)) =
        some (newChunkOf cs db ino size off data idx) := by
      rw [hw, if_pos ⟨rfl, hidx⟩]
    rw [chunkDelta, partBill_of_some hc, ← oldBilled_eq, Int64.ofInt_sub, Int64.ofInt_eq_ofNat,
      Int64.ofInt_eq_ofNat]
  · intro x idx hx
    rw [hw, if_neg (fun hr => hx hr.1)]
  · intro idx hidx
    have hclear' : Clear cs db ino size (max size (off + data.length))
        (writtenRange cs off data.length) := by
      intro j c hj hge hlt
      exact hclear j c hj hge (by omega)
    refine partBill_grow h (by omega) hclear' hidx ?_
    rw [hw, if_neg (fun hr => hidx hr.2)]

end Write

/-! ## Truncates -/

end SlateFs
