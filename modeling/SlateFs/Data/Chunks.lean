import Mathlib.Data.List.GetD
import SlateFs.Data.Plan

/-!
# Bytes of a file

A file is stored as chunks, absent ones reading as zeroes and short ones as
zeroes beyond their end. `byteAt` is the byte at a position. Everything here is
said position by position: what a rewritten chunk holds, what a copy out of a
chunk yields, and what a range read returns.
-/

namespace SlateFs

/-! ## Lists of bytes -/

lemma getD_append (a b : Bytes) (q : Nat) :
    (a ++ b).getD q 0 = if q < a.length then a.getD q 0 else b.getD (q - a.length) 0 := by
  simp only [List.getD_eq_getElem?_getD, List.getElem?_append]
  split <;> rfl

lemma getD_of_length_le {a : Bytes} {q : Nat} (h : a.length ≤ q) : a.getD q 0 = 0 :=
  List.getD_eq_default _ _ h

lemma getD_take (a : Bytes) (n q : Nat) :
    (a.take n).getD q 0 = if q < n then a.getD q 0 else 0 := by
  simp only [List.getD_eq_getElem?_getD, List.getElem?_take]
  split <;> rfl

lemma getD_drop (a : Bytes) (n q : Nat) : (a.drop n).getD q 0 = a.getD (n + q) 0 := by
  simp only [List.getD_eq_getElem?_getD, List.getElem?_drop]

lemma getD_zeroes (n q : Nat) : (List.replicate n (0 : UInt8)).getD q 0 = 0 := by
  simp only [List.getD_eq_getElem?_getD, List.getElem?_replicate]
  split <;> rfl

/-- Two lists of one length with the same bytes are the same. -/
lemma bytes_ext {a b : Bytes} (hl : a.length = b.length)
    (h : ∀ q, q < a.length → a.getD q 0 = b.getD q 0) : a = b := by
  refine List.ext_getElem hl ?_
  intro q ha hb
  have := h q ha
  rwa [List.getD_eq_getElem _ _ ha, List.getD_eq_getElem _ _ hb] at this

lemma growTo_length (buf : Bytes) (n : Nat) : (growTo buf n).length = max buf.length n := by
  unfold growTo
  split
  · rw [List.length_append, List.length_replicate]; omega
  · omega

lemma growTo_getD (buf : Bytes) (n q : Nat) : (growTo buf n).getD q 0 = buf.getD q 0 := by
  unfold growTo
  split
  · rw [getD_append, getD_zeroes]
    split
    · rfl
    · rw [getD_of_length_le (by omega)]
  · rfl

lemma splice_length {buf : Bytes} {pos : Nat} {src : Bytes} (h : pos + src.length ≤ buf.length) :
    (splice buf pos src).length = buf.length := by
  simp only [splice, List.length_append, List.length_take, List.length_drop]
  omega

lemma splice_getD {buf : Bytes} {pos : Nat} (src : Bytes) (h : pos ≤ buf.length) (q : Nat) :
    (splice buf pos src).getD q 0 =
      if pos ≤ q ∧ q < pos + src.length then src.getD (q - pos) 0 else buf.getD q 0 := by
  have hlen : (buf.take pos).length = pos := by rw [List.length_take]; omega
  unfold splice
  rw [getD_append, getD_append, List.length_append, hlen, getD_take, getD_drop]
  by_cases h1 : q < pos
  · rw [if_pos (by omega), if_pos h1, if_pos h1, if_neg (by omega)]
  by_cases h2 : q < pos + src.length
  · rw [if_pos h2, if_neg h1, if_pos (by omega)]
  rw [if_neg h2, if_neg (by omega)]
  congr 1
  omega

/-! ## The byte at a position -/

/-- The byte stored at a position of a file. -/
def byteAt (cs : Nat) (db : Db) (ino : Ino) (p : Nat) : UInt8 :=
  ((db.chunks.get? (toLex (ino, p / cs))).getD []).getD (p % cs) 0

/-- The first `size` bytes of a file. -/
def contents (cs : Nat) (db : Db) (ino : Ino) (size : Nat) : Bytes :=
  (List.range size).map (byteAt cs db ino)

lemma contents_length (cs : Nat) (db : Db) (ino : Ino) (size : Nat) :
    (contents cs db ino size).length = size := by
  rw [contents, List.length_map, List.length_range]

variable {cs size idx off len : Nat} {db : Db} {ino : Ino} {out : Bytes}

lemma contents_getD {q : Nat} (h : q < size) :
    (contents cs db ino size).getD q 0 = byteAt cs db ino q := by
  rw [contents, List.getD_eq_getElem _ _ (by rw [List.length_map, List.length_range]; exact h),
    List.getElem_map, List.getElem_range]

/-- Chunks are no longer than the chunk size. -/
def Short (cs : Nat) (db : Db) (ino : Ino) : Prop :=
  ∀ idx c, db.chunks.get? (toLex (ino, idx)) = some c → c.length ≤ cs

lemma div_eq_iff {p : Nat} (h : cs ≠ 0) : p / cs = idx ↔ idx * cs ≤ p ∧ p < idx * cs + cs := by
  rw [Nat.div_eq_iff (Nat.pos_of_ne_zero h)]
  omega

lemma mod_eq_sub {p : Nat} : p % cs = p - p / cs * cs := by
  have := Nat.div_add_mod p cs
  rw [Nat.mul_comm] at this
  omega

lemma byteAt_mul_add {q : Nat} (hq : q < cs) :
    byteAt cs db ino (idx * cs + q) = ((db.chunks.get? (toLex (ino, idx))).getD []).getD q 0 := by
  have hcs : cs ≠ 0 := by omega
  have hdiv : (idx * cs + q) / cs = idx := (div_eq_iff hcs).mpr ⟨by omega, by omega⟩
  rw [byteAt, mod_eq_sub, hdiv]
  congr 1
  omega

/-! ## Reading a range -/

lemma copyFromChunk_getD {chunk : Bytes} (q : Nat) (hq : q < out.length)
    (h64 : off + out.length < 2 ^ 64) :
    (copyFromChunk out off idx chunk cs).getD q 0 =
      if idx * cs ≤ off + q ∧ off + q < idx * cs + chunk.length
      then chunk.getD (off + q - idx * cs) 0 else out.getD q 0 := by
  have hstop : addU64 off out.length = off + out.length := Nat.mod_eq_of_lt h64
  simp only [copyFromChunk, hstop]
  split
  · rename_i hge
    rw [if_neg (by omega)]
  rename_i hlt
  rw [splice_getD _ (by omega), List.length_take, List.length_drop]
  by_cases hin : idx * cs ≤ off + q ∧ off + q < idx * cs + chunk.length
  · rw [if_pos hin, if_pos (by omega), getD_take, if_pos (by omega), getD_drop]
    congr 1
    omega
  · rw [if_neg hin, if_neg (by omega)]

lemma copyFromChunk_length {chunk : Bytes} (h64 : off + out.length < 2 ^ 64) :
    (copyFromChunk out off idx chunk cs).length = out.length := by
  have hstop : addU64 off out.length = off + out.length := Nat.mod_eq_of_lt h64
  simp only [copyFromChunk, hstop]
  split
  · rfl
  rw [splice_length]
  rw [List.length_take, List.length_drop]
  omega

lemma copyChunk_length (h64 : off + out.length < 2 ^ 64) (cs idx : Nat) (c : Option Bytes) :
    (copyChunk cs off idx out c).length = out.length := by
  cases c with
  | none => rfl
  | some c => exact copyFromChunk_length h64

/-- One step of a range read: the chunk, if there is one, is copied in. -/
lemma copyChunk_getD (hshort : Short cs db ino) (hcs : cs ≠ 0) (idx : Nat)
    (h64 : off + out.length < 2 ^ 64) (q : Nat) (hq : q < out.length)
    (hout : (off + q) / cs = idx → out.getD q 0 = 0) :
    (copyChunk cs off idx out (db.chunks.get? (toLex (ino, idx)))).getD q 0 =
      if (off + q) / cs = idx then byteAt cs db ino (off + q) else out.getD q 0 := by
  cases hc : db.chunks.get? (toLex (ino, idx)) with
  | none =>
    show out.getD q 0 = _
    split
    · rename_i hdiv
      rw [byteAt, hdiv, hc, hout hdiv]
      rfl
    · rfl
  | some c =>
    have hlen := hshort idx c hc
    rw [copyChunk, copyFromChunk_getD q hq h64]
    by_cases hdiv : (off + q) / cs = idx
    · have hb := (div_eq_iff hcs).mp hdiv
      rw [if_pos hdiv, byteAt, hdiv, hc, mod_eq_sub, hdiv]
      split
      · rfl
      · rw [hout hdiv, Option.getD_some, getD_of_length_le (by omega)]
    · rw [if_neg hdiv, if_neg]
      intro hin
      exact hdiv ((div_eq_iff hcs).mpr ⟨hin.1, by omega⟩)

lemma copyChunks_getD (hshort : Short cs db ino) (hcs : cs ≠ 0) (idxs : List Nat)
    (hnodup : idxs.Nodup) (out : Bytes) (h64 : off + out.length < 2 ^ 64) (q : Nat)
    (hq : q < out.length) (hout : (off + q) / cs ∈ idxs → out.getD q 0 = 0) :
    (copyChunks db cs ino off idxs out).length = out.length ∧
    (copyChunks db cs ino off idxs out).getD q 0 =
      if (off + q) / cs ∈ idxs then byteAt cs db ino (off + q) else out.getD q 0 := by
  induction idxs generalizing out with
  | nil => exact ⟨rfl, by simp [copyChunks]⟩
  | cons idx rest ih =>
    obtain ⟨hnot, hrest⟩ := List.nodup_cons.mp hnodup
    rw [copyChunks, show db.get (.chunk ino idx) = db.chunks.get? (toLex (ino, idx)) from rfl]
    have hlen := copyChunk_length h64 cs idx (db.chunks.get? (toLex (ino, idx)))
    have hstep := copyChunk_getD hshort hcs idx h64 q hq
      (fun h => hout (by rw [h]; exact List.mem_cons_self ..))
    obtain ⟨hl, hg⟩ := ih hrest _ (by rw [hlen]; exact h64) (by rw [hlen]; exact hq) (by
      intro hin
      rw [hstep, if_neg (fun h => hnot (by rw [← h]; exact hin))]
      exact hout (List.mem_cons_of_mem _ hin))
    refine ⟨hl.trans hlen, ?_⟩
    rw [hg, hstep]
    by_cases h1 : (off + q) / cs = idx
    · rw [if_neg (fun h => hnot (by rw [← h1]; exact h)), if_pos h1,
        if_pos (by rw [h1]; exact List.mem_cons_self ..)]
    · by_cases h2 : (off + q) / cs ∈ rest
      · rw [if_pos h2, if_pos (List.mem_cons_of_mem _ h2)]
      · rw [if_neg h2, if_neg h1, if_neg (by simp [h1, h2])]

/-- The requested range of a file of this size. -/
def sliceOf (cs : Nat) (db : Db) (ino : Ino) (size off len : Nat) : Bytes :=
  ((contents cs db ino size).drop off).take len

lemma sliceOf_length (cs : Nat) (db : Db) (ino : Ino) (size off len : Nat) :
    (sliceOf cs db ino size off len).length = min size (off + len) - off := by
  rw [sliceOf, List.length_take, List.length_drop, contents_length]
  omega

/-- A buffer filled with the bytes at its positions is the range. -/
lemma eq_sliceOf (hl : out.length = min size (off + len) - off)
    (h : ∀ q, q < out.length → out.getD q 0 = byteAt cs db ino (off + q)) :
    out = sliceOf cs db ino size off len := by
  refine bytes_ext (hl.trans (sliceOf_length ..).symm) ?_
  intro q hq
  rw [h q hq, sliceOf, getD_take, if_pos (by omega), getD_drop, contents_getD (by omega)]

/-- What a range read computes from the chunks it is given. -/
def rangeOf (cs : Nat) (db : Db) (ino : Ino) (size off len : Nat) : Bytes :=
  let stop := min size (addU64 off len)
  let out := List.replicate (subU64 stop off) 0
  if off / cs % 2 ^ 32 = subU64 stop 1 / cs % 2 ^ 32 then
    copyChunk cs off (off / cs % 2 ^ 32) out (db.chunks.get? (toLex (ino, off / cs % 2 ^ 32)))
  else
    copyChunks db cs ino off (chunkRange (off / cs % 2 ^ 32) (subU64 stop 1 / cs % 2 ^ 32)) out

lemma mem_chunkRange {a b : Nat} : idx ∈ chunkRange a b ↔ a ≤ idx ∧ idx ≤ b := by
  rw [chunkRange, List.mem_range'_1]
  omega

lemma nodup_chunkRange (a b : Nat) : (chunkRange a b).Nodup := List.nodup_range' ..

/-- **A range read returns the range.** -/
theorem rangeOf_eq (hcs : cs ≠ 0) (hshort : Short cs db ino) (hoff : off < size) (hlen : len ≠ 0)
    (hsize : size ≤ cs * 2 ^ 32) (h64 : off + len < 2 ^ 64) :
    rangeOf cs db ino size off len = sliceOf cs db ino size off len := by
  have hadd : addU64 off len = off + len := Nat.mod_eq_of_lt h64
  have hs64 : min size (off + len) < 2 ^ 64 := by omega
  have hsub : subU64 (min size (off + len)) off = min size (off + len) - off := by
    unfold subU64; omega
  have hsub1 : subU64 (min size (off + len)) 1 = min size (off + len) - 1 := by
    unfold subU64; omega
  have hfirst : off / cs % 2 ^ 32 = off / cs :=
    Nat.mod_eq_of_lt (Nat.div_lt_of_lt_mul (by omega))
  have hlast : (min size (off + len) - 1) / cs % 2 ^ 32 = (min size (off + len) - 1) / cs :=
    Nat.mod_eq_of_lt (Nat.div_lt_of_lt_mul (by omega))
  simp only [rangeOf, hadd, hsub, hsub1, hfirst, hlast]
  have hrep : (List.replicate (min size (off + len) - off) (0 : UInt8)).length =
      min size (off + len) - off := List.length_replicate
  have hr64 : off + (List.replicate (min size (off + len) - off) (0 : UInt8)).length < 2 ^ 64 := by
    rw [hrep]; omega
  -- every position read lies in one of the chunks from first to last
  have hmem : ∀ q, q < min size (off + len) - off →
      off / cs ≤ (off + q) / cs ∧ (off + q) / cs ≤ (min size (off + len) - 1) / cs := by
    intro q hq
    exact ⟨Nat.div_le_div_right (by omega), Nat.div_le_div_right (by omega)⟩
  split
  · rename_i hone
    refine eq_sliceOf ((copyChunk_length hr64 ..).trans hrep) ?_
    intro q hq
    rw [copyChunk_length hr64, hrep] at hq
    have hq' := hmem q hq
    rw [copyChunk_getD hshort hcs _ hr64 q (by omega) (fun _ => getD_zeroes ..), if_pos (by omega)]
  · have hget := fun q hq => copyChunks_getD hshort hcs
      (chunkRange (off / cs) ((min size (off + len) - 1) / cs)) (nodup_chunkRange _ _) _ hr64 q hq
      (fun _ => getD_zeroes ..)
    have hl := (hget 0 (by rw [hrep]; omega)).1
    refine eq_sliceOf (hl.trans hrep) ?_
    intro q hq
    rw [hl] at hq
    rw [(hget q hq).2, if_pos]
    rw [hrep] at hq
    exact mem_chunkRange.mpr (hmem q hq)

/-- A read of a range computes it from what it finds. -/
lemma FsM.wp_readRange {M : Oracle} {T : Db → Db → Prop} {z : Prop} {E : Abort → Db → Prop}
    {Q : Bytes → Db → Prop} :
    wp (M.watch T z) Q E (readRange cs ino size off len) db ↔
      (off ≥ size ∨ len = 0 → Q [] db)
      ∧ (¬(off ≥ size ∨ len = 0) → (cs = 0 → E .panic db)
        ∧ (cs ≠ 0 → Q (rangeOf cs db ino size off len) db)) := by
  have hget : ∀ idx, db.get (.chunk ino idx) = db.chunks.get? (toLex (ino, idx)) := fun _ => rfl
  simp only [readRange, wp_ite, wp_pure, wp_bind, wp_chunkOf, wp_dbGet, wp_snapshot, rangeOf, hget]
  by_cases hcs : cs = 0
  · simp [hcs]
  simp only [hcs, false_implies, true_and, not_false_eq_true, true_implies, ne_eq]
  refine and_congr_right fun _ => imp_congr_right fun _ => ?_
  by_cases hone : off / cs % 2 ^ 32 = subU64 (min size (addU64 off len)) 1 / cs % 2 ^ 32
  · simp only [hone, true_implies, not_true_eq_false, false_implies, and_true, if_true]
  · simp only [hone, true_implies, not_false_eq_true, false_implies, true_and, if_false]

lemma sliceOf_empty (h : off ≥ size ∨ len = 0) : sliceOf cs db ino size off len = [] := by
  refine List.eq_nil_of_length_eq_zero ?_
  rw [sliceOf_length]
  omega

end SlateFs
