import SlateFs.Data.Chunks

/-!
# What a write does to a file

`FileRep` says how a file of a given size may be stored: a chunk that starts
inside the file ends inside it. A chunk may also lie wholly beyond the end, left
there by a truncate that has not finished. Such a chunk is invisible as long as
the file does not grow over it, which is what `Clear` asks of a growing file.
-/

namespace SlateFs

/-- How a file of this size may be stored. -/
structure FileRep (cs : Nat) (db : Db) (ino : Ino) (size : Nat) : Prop where
  /-- A chunk holds something. -/
  nonempty : ∀ idx c, db.chunks.get? (toLex (ino, idx)) = some c → 0 < c.length
  /-- A chunk holds no more than a chunk's worth. -/
  short : Short cs db ino
  /-- Chunk indices have 32 bits. -/
  idx32 : ∀ idx c, db.chunks.get? (toLex (ino, idx)) = some c → idx < 2 ^ 32
  /-- A chunk that starts inside the file ends inside it. -/
  inside : ∀ idx c, db.chunks.get? (toLex (ino, idx)) = some c → idx * cs < size →
    idx * cs + c.length ≤ size

/-- Growing to `newSize` uncovers no chunk, but for those in `R`. -/
def Clear (cs : Nat) (db : Db) (ino : Ino) (size newSize : Nat) (R : List Nat) : Prop :=
  ∀ idx c, db.chunks.get? (toLex (ino, idx)) = some c → size ≤ idx * cs → idx * cs < newSize →
    idx ∈ R

variable {cs : Nat} {db : Db} {ino : Ino} {size : Nat}

/-- Beyond the end of a chunk inside the file there are zeroes. -/
lemma FileRep.byteAt_beyond (h : FileRep cs db ino size) {p newSize : Nat} {R : List Nat}
    (hclear : Clear cs db ino size newSize R) (hR : p / cs ∉ R) (hp : size ≤ p)
    (hlt : p < newSize) : byteAt cs db ino p = 0 := by
  rw [byteAt]
  cases hc : db.chunks.get? (toLex (ino, p / cs)) with
  | none => rfl
  | some c =>
    have hcs : cs ≠ 0 := by
      have := h.nonempty _ _ hc
      have := h.short _ _ hc
      omega
    obtain ⟨hle, hup⟩ := (div_eq_iff hcs).mp (rfl : p / cs = p / cs)
    by_cases hs : p / cs * cs < size
    · have := h.inside _ _ hc hs
      rw [Option.getD_some, mod_eq_sub, getD_of_length_le (by omega)]
    · exact absurd (hclear _ _ hc (by omega) (by omega)) hR

section Write

variable {off : Nat} {data : Bytes}
variable {idx : Nat} {db' : Db}

lemma mem_writtenRange (hcs : cs ≠ 0) (hdata : data ≠ [])
    (hmax : off + data.length ≤ cs * 2 ^ 32) :
    idx ∈ writtenRange cs off data.length ↔ idx * cs < off + data.length ∧ off < idx * cs + cs := by
  have hlen : 0 < data.length := List.length_pos_of_ne_nil hdata
  have hpos := Nat.pos_of_ne_zero hcs
  rw [writtenRange, mem_chunkRange, Nat.mod_eq_of_lt (Nat.div_lt_of_lt_mul (by omega)),
    Nat.mod_eq_of_lt (Nat.div_lt_of_lt_mul (by omega)), Nat.le_div_iff_mul_le hpos,
    ← Nat.lt_succ_iff, Nat.div_lt_iff_lt_mul hpos, Nat.succ_mul]
  omega

lemma nodup_writtenRange (cs off len : Nat) : (writtenRange cs off len).Nodup :=
  nodup_chunkRange _ _

/-- The chunks of `db'` are those of `db` after a write. -/
def Wrote (cs : Nat) (db : Db) (ino : Ino) (size off : Nat) (data : Bytes) (db' : Db) : Prop :=
  ∀ x idx, db'.chunks.get? (toLex (x, idx)) =
    if x = ino ∧ idx ∈ writtenRange cs off data.length
    then some (newChunkOf cs db ino size off data idx)
    else db.chunks.get? (toLex (x, idx))

lemma Wrote.of_puts
    (h : db'.chunks = db.chunks.insertAll ((writePlanOf cs db ino size off data).puts.map (fun p =>
      (toLex (ino, p.1), p.2)))) :
    Wrote cs db ino size off data db' := by
  intro x idx
  rw [h]
  simp only [writePlanOf, List.map_map]
  split
  · rename_i h
    obtain ⟨rfl, hidx⟩ := h
    refine OrdMap.get?_insertAll_of_mem _ ?_ (List.mem_map.mpr ⟨idx, hidx, rfl⟩)
    rw [List.map_map]
    refine (nodup_writtenRange cs off data.length).map ?_
    intro a b hab
    exact (Prod.mk.inj (toLex.injective hab)).2
  · rename_i h
    refine OrdMap.get?_insertAll_of_not_mem _ ?_
    intro hmem
    rw [List.map_map, List.mem_map] at hmem
    obtain ⟨j, hj, hje⟩ := hmem
    obtain ⟨rfl, rfl⟩ := Prod.mk.inj (toLex.injective hje)
    exact h ⟨rfl, hj⟩

lemma oldChunk_getD (h : FileRep cs db ino size) {q : Nat} (hq : q < cs) :
    ((oldChunkOf cs db ino size idx).getD []).getD q 0 =
      if idx * cs + q < size then byteAt cs db ino (idx * cs + q) else 0 := by
  rw [byteAt_mul_add hq, oldChunkOf]
  by_cases hge : idx * cs ≥ size
  · rw [if_pos hge, if_neg (by omega)]; rfl
  rw [if_neg hge]
  cases hc : db.chunks.get? (toLex (ino, idx)) with
  | none => simp
  | some c =>
    have := h.inside idx c hc (by omega)
    split
    · rfl
    · rw [Option.getD_some, getD_of_length_le (by omega)]

/-- The chunk a write starts from lies inside the file. -/
lemma oldChunk_length (h : FileRep cs db ino size) (idx : Nat) :
    ((oldChunkOf cs db ino size idx).getD []).length ≤ cs
    ∧ (((oldChunkOf cs db ino size idx).getD []).length ≠ 0 →
      idx * cs + ((oldChunkOf cs db ino size idx).getD []).length ≤ size) := by
  rw [oldChunkOf]
  by_cases hge : idx * cs ≥ size
  · rw [if_pos hge]; exact ⟨Nat.zero_le _, fun h => absurd rfl h⟩
  rw [if_neg hge]
  cases hc : db.chunks.get? (toLex (ino, idx)) with
  | none => exact ⟨Nat.zero_le _, fun h => absurd rfl h⟩
  | some c => exact ⟨h.short idx c hc, fun _ => h.inside idx c hc (by omega)⟩

lemma newChunk_length (hidx : idx * cs < off + data.length ∧ off < idx * cs + cs)
    (hdata : data ≠ []) :
    (newChunkOf cs db ino size off data idx).length =
      max ((oldChunkOf cs db ino size idx).getD []).length
        (min (off + data.length) (idx * cs + cs) - idx * cs) := by
  have hlen : 0 < data.length := List.length_pos_of_ne_nil hdata
  simp only [newChunkOf, writtenChunk]
  rw [splice_length, growTo_length]
  rw [growTo_length, List.length_take, List.length_drop]
  omega

lemma newChunk_getD (h : FileRep cs db ino size) {q : Nat}
    (hidx : idx * cs < off + data.length ∧ off < idx * cs + cs) (hdata : data ≠ []) (hq : q < cs) :
    (newChunkOf cs db ino size off data idx).getD q 0 =
      if off ≤ idx * cs + q ∧ idx * cs + q < off + data.length
      then data.getD (idx * cs + q - off) 0
      else if idx * cs + q < size then byteAt cs db ino (idx * cs + q) else 0 := by
  have hlen : 0 < data.length := List.length_pos_of_ne_nil hdata
  simp only [newChunkOf, writtenChunk]
  rw [splice_getD _ (by rw [growTo_length]; omega), growTo_getD, oldChunk_getD h hq,
    List.length_take, List.length_drop]
  by_cases hin : off ≤ idx * cs + q ∧ idx * cs + q < off + data.length
  · rw [if_pos hin, if_pos (by omega), getD_take, if_pos (by omega), getD_drop]
    congr 1
    omega
  · rw [if_neg hin, if_neg (by omega)]

variable (h : FileRep cs db ino size) (hcs : cs ≠ 0) (hdata : data ≠ [])
  (hmax : off + data.length ≤ cs * 2 ^ 32)
  (hclear : Clear cs db ino size (off + data.length) (writtenRange cs off data.length))
  (hw : Wrote cs db ino size off data db')
include h hcs hdata hmax hclear hw

/-- **A write replaces the bytes of its range** and leaves the others, the gap up to it zeroed. -/
theorem byteAt_write {p : Nat} (hp : p < max size (off + data.length)) :
    byteAt cs db' ino p =
      if off ≤ p ∧ p < off + data.length then data.getD (p - off) 0
      else if p < size then byteAt cs db ino p else 0 := by
  obtain ⟨hle, hup⟩ := (div_eq_iff hcs).mp (rfl : p / cs = p / cs)
  have hmem : p / cs ∈ writtenRange cs off data.length ↔ _ := mem_writtenRange hcs hdata hmax
  have hsplit : p / cs * cs + p % cs = p := by rw [mod_eq_sub]; omega
  have hmod : p % cs < cs := Nat.mod_lt _ (Nat.pos_of_ne_zero hcs)
  rw [byteAt, hw]
  by_cases hin : p / cs ∈ writtenRange cs off data.length
  · rw [if_pos ⟨rfl, hin⟩, Option.getD_some, newChunk_getD h (hmem.mp hin) hdata hmod, hsplit]
  have hout : ¬(off ≤ p ∧ p < off + data.length) :=
    fun hr => hin (hmem.mpr ⟨by omega, by omega⟩)
  rw [if_neg (fun hr => hin hr.2), if_neg hout, ← byteAt]
  split
  · rfl
  · exact h.byteAt_beyond hclear hin (by omega) (by omega)

/-- A write leaves the file well stored at its new size. -/
lemma FileRep.write : FileRep cs db' ino (max size (off + data.length)) := by
  have hnew : ∀ idx, idx ∈ writtenRange cs off data.length →
      0 < (newChunkOf cs db ino size off data idx).length
      ∧ (newChunkOf cs db ino size off data idx).length ≤ cs
      ∧ idx < 2 ^ 32
      ∧ idx * cs + (newChunkOf cs db ino size off data idx).length
        ≤ max size (off + data.length) := by
    intro idx hin
    have hidx := (mem_writtenRange hcs hdata hmax).mp hin
    obtain ⟨ho1, ho2⟩ := oldChunk_length h idx
    rw [newChunk_length hidx hdata]
    refine ⟨by omega, by omega, ?_, by omega⟩
    have : idx ≤ (off + data.length - 1) / cs :=
      (Nat.le_div_iff_mul_le (Nat.pos_of_ne_zero hcs)).mpr (by omega)
    exact lt_of_le_of_lt this (Nat.div_lt_of_lt_mul (by omega))
  have hcases : ∀ idx c, db'.chunks.get? (toLex (ino, idx)) = some c →
      (idx ∈ writtenRange cs off data.length ∧ c = newChunkOf cs db ino size off data idx)
      ∨ (idx ∉ writtenRange cs off data.length ∧ db.chunks.get? (toLex (ino, idx)) = some c) := by
    intro idx c hc
    rw [hw] at hc
    by_cases hin : idx ∈ writtenRange cs off data.length
    · rw [if_pos ⟨rfl, hin⟩] at hc
      exact Or.inl ⟨hin, (Option.some.inj hc).symm⟩
    · rw [if_neg (fun hr => hin hr.2)] at hc
      exact Or.inr ⟨hin, hc⟩
  refine ⟨?_, ?_, ?_, ?_⟩
  · intro idx c hc
    rcases hcases idx c hc with ⟨hin, rfl⟩ | ⟨_, hc⟩
    · exact (hnew idx hin).1
    · exact h.nonempty idx c hc
  · intro idx c hc
    rcases hcases idx c hc with ⟨hin, rfl⟩ | ⟨_, hc⟩
    · exact (hnew idx hin).2.1
    · exact h.short idx c hc
  · intro idx c hc
    rcases hcases idx c hc with ⟨hin, rfl⟩ | ⟨_, hc⟩
    · exact (hnew idx hin).2.2.1
    · exact h.idx32 idx c hc
  · intro idx c hc hlt
    rcases hcases idx c hc with ⟨hin, rfl⟩ | ⟨hout, hc⟩
    · exact (hnew idx hin).2.2.2
    -- a chunk that comes to lie inside the file was inside it before
    have hs : idx * cs < size := by
      by_contra hge
      exact hout (hclear idx c hc (by omega) (by omega))
    have := h.inside idx c hc hs
    omega

end Write

end SlateFs
