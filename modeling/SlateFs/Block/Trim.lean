import SlateFs.Block.Calls

/-!
# Trim

The loop of trim scans the chunks its range covers and deletes them 1024 at a time.
Every round deletes what it scanned, so the rounds end when nothing covered is left,
and a batch takes away too little for its delta to leave the range of `i64`.
-/

namespace SlateFs

open FsM

namespace BlockVolume

variable {g : BlockVolume} {M : Oracle} {z : Prop} {E : Abort → Db → Prop} {db db' db₁ : Db}
  {off stop : Nat} {range : Option (Nat × Nat)} {idxs : List Nat}

/-! ## The chunks a trim covers -/

/-- The index lies in an inclusive range. -/
def InRange (range : Option (Nat × Nat)) (idx : Nat) : Prop :=
  ∃ a b, range = some (a, b) ∧ a ≤ idx ∧ idx ≤ b

/-- The stored chunks of a range. -/
def coveredOf (db : Db) : Option (Nat × Nat) → List (Nat × Bytes)
  | none => []
  | some (a, b) => (db.chunksFrom BLOCK_INO a).takeWhile (fun kv => kv.1 ≤ b)

lemma chunksFrom_sorted (db : Db) (ino : Ino) (first : Nat) :
    (db.chunksFrom ino first).Pairwise (fun x y => x.1 < y.1) := by
  unfold Db.chunksFrom
  rw [List.pairwise_map]
  refine (OrdMap.scan_sorted db.chunks _).imp_of_mem ?_
  intro x y hx hy hlt
  have hx' := (OrdMap.mem_scan.mp hx).2
  have hy' := (OrdMap.mem_scan.mp hy).2
  simp only [Bool.decide_and, Bool.and_eq_true, decide_eq_true_eq] at hx' hy'
  rcases Prod.Lex.lt_iff.mp hlt with h | h
  · rw [hx'.1, hy'.1] at h
    exact absurd h (lt_irrefl _)
  · exact h.2

/-- On a sorted list, stopping at the first key above a bound misses no key below it. -/
lemma mem_takeWhile_sorted {β : Type} {kvs : List (Nat × β)}
    (hs : kvs.Pairwise (fun x y => x.1 < y.1)) (b : Nat) {kv : Nat × β} :
    kv ∈ kvs.takeWhile (fun kv => kv.1 ≤ b) ↔ kv ∈ kvs ∧ kv.1 ≤ b := by
  induction kvs with
  | nil => simp
  | cons x kvs ih =>
    obtain ⟨hx, hs'⟩ := List.pairwise_cons.mp hs
    by_cases hle : x.1 ≤ b
    · rw [List.takeWhile_cons_of_pos (by simpa using hle), List.mem_cons, ih hs', List.mem_cons]
      constructor
      · rintro (rfl | h)
        · exact ⟨.inl rfl, hle⟩
        · exact ⟨.inr h.1, h.2⟩
      · rintro ⟨rfl | h, hb⟩
        · exact .inl rfl
        · exact .inr ⟨h, hb⟩
    · rw [List.takeWhile_cons_of_neg (by simpa using hle)]
      refine ⟨fun h => absurd h List.not_mem_nil, ?_⟩
      rintro ⟨h, hb⟩
      rcases List.mem_cons.mp h with rfl | h
      · exact absurd hb hle
      · exact absurd (hx kv h) (by omega)

variable {idx : Nat} {Q : Unit → Db → Prop}

lemma mem_coveredOf {c : Bytes} :
    (idx, c) ∈ coveredOf db range ↔
      db.chunks.get? (toLex (BLOCK_INO, idx)) = some c ∧ InRange range idx := by
  cases range with
  | none => exact ⟨fun h => absurd h List.not_mem_nil, fun ⟨_, _, _, h, _⟩ => nomatch h⟩
  | some r =>
    obtain ⟨a, b⟩ := r
    show (idx, c) ∈ (db.chunksFrom BLOCK_INO a).takeWhile (fun kv => kv.1 ≤ b) ↔ _
    rw [mem_takeWhile_sorted (chunksFrom_sorted db BLOCK_INO a), mem_chunksFrom]
    constructor
    · rintro ⟨⟨hc, ha⟩, hb⟩
      exact ⟨hc, a, b, rfl, ha, hb⟩
    · rintro ⟨hc, a', b', hab, ha, hb⟩
      obtain ⟨rfl, rfl⟩ := Prod.mk.inj (Option.some.inj hab)
      exact ⟨⟨hc, ha⟩, hb⟩

lemma nodup_coveredOf (db : Db) (range : Option (Nat × Nat)) :
    ((coveredOf db range).map Prod.fst).Nodup := by
  cases range with
  | none => exact List.nodup_nil
  | some r =>
    exact (nodup_chunksFrom db BLOCK_INO r.1).sublist ((List.takeWhile_sublist _).map _)

/-- What one round takes. -/
abbrev roundOf (db : Db) (range : Option (Nat × Nat)) : List (Nat × Bytes) :=
  (coveredOf db range).take TRIM_BATCH

lemma wp_scanFull {T : Db → Db → Prop} {Q : List (Nat × Bytes) → Db → Prop} :
    wp (M.watch T z) Q E (scanFull range) db ↔ Q (roundOf db range) db := by
  cases range with
  | none => rfl
  | some r => simp only [scanFull, wp_bind, wp_scanChunks, wp_pure]; rfl

/-- A scanned chunk that the range covers is staged as zeroing stages it. -/
lemma staged_covered (hcov : ∀ idx, InRange range idx →
      off ≤ idx * g.chunkSize ∧ (g.chunkBounds idx).2 ≤ stop) {kvs : List (Nat × Bytes)}
    (hkvs : ∀ kv ∈ kvs, kv ∈ coveredOf db range) :
    kvs.map g.stagedDelete = g.stagedOf db off stop (kvs.map Prod.fst) := by
  induction kvs with
  | nil => rfl
  | cons kv kvs ih =>
    obtain ⟨hc, hr⟩ := mem_coveredOf.mp (hkvs kv List.mem_cons_self)
    have hz : g.zeroedChunk kv.1 off stop kv.2 = some (g.stagedDelete kv) := if_pos (hcov kv.1 hr)
    rw [List.map_cons, List.map_cons, stagedOf_cons, hc, Option.bind_some, hz,
      ih (fun x hx => hkvs x (List.mem_cons_of_mem _ hx))]
    rfl

lemma stagedOf_append (g : BlockVolume) (db : Db) (off stop : Nat) (xs ys : List Nat) :
    g.stagedOf db off stop (xs ++ ys) =
      g.stagedOf db off stop xs ++ g.stagedOf db off stop ys := List.flatMap_append

/-! ## The delta of a batch -/

/-- One chunk has no more to give than a chunk's worth. -/
lemma Stored.zeroDelta_ge (h : g.Stored db) (off stop idx : Nat) :
    -(2 ^ 32 : ℤ) ≤ g.zeroDelta db off stop idx := by
  have hcs := g.chunk_lt
  unfold zeroDelta
  cases hc : db.chunks.get? (toLex (BLOCK_INO, idx)) with
  | none =>
    simp only [lengthOf, Option.getD_none, List.length_nil]
    omega
  | some c =>
    have := h.short idx c hc
    simp only [lengthOf, Option.getD_some]
    omega

lemma Stored.sum_zeroDelta_ge (h : g.Stored db) (off stop : Nat) (idxs : List Nat) :
    -(2 ^ 32 * idxs.length : ℤ) ≤ (idxs.map (g.zeroDelta db off stop)).sum := by
  induction idxs with
  | nil => simp
  | cons idx idxs ih =>
    have h1 := h.zeroDelta_ge off stop idx
    rw [List.map_cons, List.sum_cons, List.length_cons]
    push_cast
    omega

/-- A delta in range keeps its sign. -/
lemma ofInt_nonpos {d : ℤ} (hlo : -(2 ^ 63) ≤ d) (hhi : d ≤ 0) : ¬0 < Int64.ofInt d := by
  have hsize : (Int64.size : ℤ) = 2 ^ 64 := rfl
  rw [Int64.lt_iff_toInt_lt, Int64.toInt_ofInt,
    Int.bmod_eq_of_le (by rw [hsize]; omega) (by rw [hsize]; omega)]
  simpa using hhi

/-! ## The loop -/

/-- What a trim leaves: the staged chunks zeroed in the range, the covered ones gone. -/
structure Trimmed (g : BlockVolume) (db : Db) (off stop : Nat) (idxs : List Nat)
    (range : Option (Nat × Nat)) (db' : Db) : Prop where
  stored : g.Stored db'
  outside : ∀ p, ¬(off ≤ p ∧ p < stop) →
    byteAt g.chunkSize db' BLOCK_INO p = byteAt g.chunkSize db BLOCK_INO p
  /-- A byte is as it was or zero. -/
  kept : ∀ p, byteAt g.chunkSize db' BLOCK_INO p = byteAt g.chunkSize db BLOCK_INO p
    ∨ byteAt g.chunkSize db' BLOCK_INO p = 0
  edges : ∀ p, p / g.chunkSize ∈ idxs → off ≤ p → p < stop →
    byteAt g.chunkSize db' BLOCK_INO p = 0
  gone : ∀ idx, InRange range idx → db'.chunks.get? (toLex (BLOCK_INO, idx)) = none

lemma Zeroed.trimmed (hz : g.Zeroed db off stop (idxs ++ (roundOf db range).map Prod.fst) db₁)
    (h : g.Stored db) (hcov : ∀ idx, InRange range idx →
      off ≤ idx * g.chunkSize ∧ (g.chunkBounds idx).2 ≤ stop)
    (hall : range.isNone ∨ (roundOf db range).length < TRIM_BATCH) :
    g.Trimmed db off stop idxs range db₁ := by
  refine ⟨hz.stored h, ?_, ?_, ?_, ?_⟩
  · intro p hp
    rw [hz.byteAt h, if_neg (fun hr => hp hr.2)]
  · intro p
    rw [hz.byteAt h]
    split
    · exact .inr rfl
    · exact .inl rfl
  · intro p hp hlo hhi
    rw [hz.byteAt h, if_pos ⟨List.mem_append_left _ hp, hlo, hhi⟩]
  · intro idx hr
    have hfull : roundOf db range = coveredOf db range := by
      rcases hall with hnone | hlt
      · cases range with
        | none => rfl
        | some r => cases hnone
      · refine List.take_of_length_le ?_
        rw [List.length_take] at hlt
        omega
    rw [hz.chunks, hfull]
    cases hc : db.chunks.get? (toLex (BLOCK_INO, idx)) with
    | none => split <;> simp [zeroedOf, hc]
    | some c =>
      have hmem : idx ∈ (coveredOf db range).map Prod.fst :=
        List.mem_map.mpr ⟨(idx, c), mem_coveredOf.mpr ⟨hc, hr⟩, rfl⟩
      rw [if_pos ⟨rfl, List.mem_append_right _ hmem⟩, zeroedOf, hc, Option.bind_some]
      exact if_pos (hcov idx hr)

lemma Trimmed.after {idxs' : List Nat} (ht : g.Trimmed db₁ off stop [] range db')
    (hz : g.Zeroed db off stop idxs' db₁) (h : g.Stored db) (hsub : ∀ idx ∈ idxs, idx ∈ idxs') :
    g.Trimmed db off stop idxs range db' := by
  refine ⟨ht.stored, ?_, ?_, ?_, ht.gone⟩
  · intro p hp
    rw [ht.outside p hp, hz.byteAt h, if_neg (fun hr => hp hr.2)]
  · intro p
    rcases ht.kept p with hk | hk
    · rw [hk, hz.byteAt h]
      split
      · exact .inr rfl
      · exact .inl rfl
    · exact .inr hk
  · intro p hp hlo hhi
    rcases ht.kept p with hk | hk
    · rw [hk, hz.byteAt h, if_pos ⟨hsub _ hp, hlo, hhi⟩]
    · exact hk

/-- A full round leaves fewer covered chunks. -/
lemma Zeroed.covered_length
    (hz : g.Zeroed db off stop (idxs ++ (roundOf db range).map Prod.fst) db₁)
    (hcov : ∀ idx, InRange range idx → off ≤ idx * g.chunkSize ∧ (g.chunkBounds idx).2 ≤ stop) :
    (coveredOf db₁ range).length ≤ (coveredOf db range).length - TRIM_BATCH := by
  have hsub : (coveredOf db₁ range).map Prod.fst ⊆
      ((coveredOf db range).drop TRIM_BATCH).map Prod.fst := by
    intro idx hidx
    obtain ⟨⟨j, c⟩, hjc, rfl⟩ := List.mem_map.mp hidx
    obtain ⟨hc, hr⟩ := mem_coveredOf.mp hjc
    obtain ⟨c₀, hc₀, _, _⟩ := hz.of_some hc
    -- the chunk is still there, so this round did not take it
    have hmem : (j, c₀) ∈ (coveredOf db range).take TRIM_BATCH
        ++ (coveredOf db range).drop TRIM_BATCH := by
      rw [List.take_append_drop]
      exact mem_coveredOf.mpr ⟨hc₀, hr⟩
    rcases List.mem_append.mp hmem with htake | hdrop
    · exfalso
      have hin : j ∈ idxs ++ (roundOf db range).map Prod.fst :=
        List.mem_append_right _ (List.mem_map.mpr ⟨_, htake, rfl⟩)
      have hgone : g.zeroOf off stop j c₀ = none := if_pos (hcov j hr)
      rw [hz.chunks, if_pos ⟨rfl, hin⟩, zeroedOf, hc₀, Option.bind_some, hgone] at hc
      cases hc
    · exact List.mem_map.mpr ⟨_, hdrop, rfl⟩
  have := ((nodup_coveredOf db₁ range).subperm hsub).length_le
  rw [List.length_map, List.length_map, List.length_drop] at this
  exact this

lemma wp_trimLoop
    (hcov : ∀ idx, InRange range idx → off ≤ idx * g.chunkSize ∧ (g.chunkBounds idx).2 ≤ stop)
    (hM : ∀ d e, M.reserve d 0 (.error e) → 0 < d) (fuel : Nat) (h : g.Stored db) (hn : idxs.Nodup)
    (hout : ∀ idx ∈ idxs, ¬InRange range idx) (hlen : idxs.length ≤ 2)
    (hfuel : z ∨ (coveredOf db range).length < fuel)
    (hQ : ∀ db', g.Trimmed db off stop idxs range db' → Q () db') :
    wp (M.watch g.ZeroTxn z) Q E (g.trimLoop range fuel (g.stagedOf db off stop idxs)) db := by
  induction fuel generalizing db idxs with
  | zero => exact hfuel.resolve_right (Nat.not_lt_zero _)
  | succ fuel ih =>
    have hround : ∀ kv ∈ roundOf db range, kv ∈ coveredOf db range :=
      fun _ hkv => List.mem_of_mem_take hkv
    have hn' : (idxs ++ (roundOf db range).map Prod.fst).Nodup := by
      refine List.nodup_append.mpr ⟨hn, ?_, ?_⟩
      · exact (nodup_coveredOf db range).sublist ((List.take_sublist ..).map _)
      rintro idx hidx _ hj rfl
      obtain ⟨⟨j, c⟩, hjc, rfl⟩ := List.mem_map.mp hj
      exact hout j hidx (mem_coveredOf.mp (hround _ hjc)).2
    have hz := h.zeroed off stop hn'
    simp only [trimLoop, wp_bind, wp_scanFull, wp_ite, wp_pure, wp_blockCommit,
      staged_covered hcov hround, ← stagedOf_append]
    refine ⟨fun hnil => ?_, fun _ => ⟨fun _ => ⟨.inr ⟨_, _, _, hn', hz⟩, ?_⟩, ?_⟩⟩
    · -- nothing is staged, so nothing is covered and the edges are zero already
      rw [hnil] at hz
      have hnone : (roundOf db range).length < TRIM_BATCH := by
        rw [stagedOf_append, ← staged_covered hcov hround] at hnil
        have := (List.append_eq_nil_iff.mp hnil).2
        rw [List.map_eq_nil_iff.mp this]
        decide
      exact hQ db (hz.trimmed h hcov (.inr hnone))
    · refine ⟨fun hlast => hQ _ (hz.trimmed h hcov (by simpa using hlast)), fun hmore => ?_⟩
      have hbatch : TRIM_BATCH ≤ (coveredOf db range).length := by
        simp only [Bool.or_eq_true, decide_eq_true_eq, not_or, Nat.not_lt,
          List.length_take] at hmore
        omega
      have hshrink := hz.covered_length hcov
      refine ih (hz.stored h) (List.nodup_nil : ([] : List Nat).Nodup) (fun _ hx => by cases hx)
        (Nat.zero_le _) ?_ ?_
      · refine hfuel.imp_right fun hlt => ?_
        have : 0 < TRIM_BATCH := by decide
        omega
      · exact fun db' ht => hQ db' (ht.after hz h (fun _ => List.mem_append_left _))
    · -- too few chunks for the delta to wrap
      intro e he
      have hpos := hM _ e he
      rw [(h.staged off stop hn').1] at hpos
      have hlo := h.sum_zeroDelta_ge off stop (idxs ++ (roundOf db range).map Prod.fst)
      have hcount : (idxs ++ (roundOf db range).map Prod.fst).length ≤ 2 + TRIM_BATCH := by
        rw [List.length_append, List.length_map, List.length_take]
        omega
      refine absurd hpos (ofInt_nonpos ?_ (g.sum_zeroDelta_nonpos ..))
      have : (2 + TRIM_BATCH : ℤ) = 1026 := by decide
      have : ((idxs ++ (roundOf db range).map Prod.fst).length : ℤ) ≤ 1026 := by
        exact_mod_cast le_trans hcount (by decide)
      omega

/-! ## The whole call -/

lemma chunkFullyCovered_iff :
    g.chunkFullyCovered idx off stop = true ↔
      off ≤ idx * g.chunkSize ∧ (g.chunkBounds idx).2 ≤ stop := by
  rw [chunkFullyCovered, Bool.and_eq_true, decide_eq_true_eq, decide_eq_true_eq]
  rfl

/-- A chunk strictly between the first and the last is covered. -/
lemma covered_between (hlo : off / g.chunkSize < idx) (hhi : idx < (stop - 1) / g.chunkSize) :
    g.chunkFullyCovered idx off stop = true := by
  have hpos := Nat.pos_of_ne_zero g.chunkSize_ne
  have h1 : off < idx * g.chunkSize := (Nat.div_lt_iff_lt_mul hpos).mp hlo
  have h2 : (idx + 1) * g.chunkSize ≤ stop - 1 := Nat.mul_le_of_le_div _ _ _ hhi
  rw [Nat.succ_mul] at h2
  exact chunkFullyCovered_iff.mpr ⟨by omega, by simp only [chunkBounds]; omega⟩

lemma inRange_ite {a b : Nat} :
    InRange (if a ≤ b then some (a, b) else none) idx ↔ a ≤ idx ∧ idx ≤ b := by
  constructor
  · rintro ⟨a', b', hab, ha, hb⟩
    split at hab
    · obtain ⟨rfl, rfl⟩ := Prod.mk.inj (Option.some.inj hab)
      exact ⟨ha, hb⟩
    · cases hab
  · rintro ⟨ha, hb⟩
    exact ⟨a, b, if_pos (le_trans ha hb), ha, hb⟩

/-- The range goes from the first to the last chunk, without an end that is not covered. -/
lemma inRange_iff {first last : Nat} (hle : first ≤ last) (h32 : last < 2 ^ 32) :
    InRange (g.fullRange first last off stop) idx ↔ (first ≤ idx ∧ idx ≤ last) ∧
      (idx = first → g.chunkFullyCovered first off stop = true) ∧
      (idx = last → g.chunkFullyCovered last off stop = true) := by
  unfold fullRange
  cases hf : g.chunkFullyCovered first off stop <;> cases hl : g.chunkFullyCovered last off stop <;>
    simp only [Bool.false_eq_true, if_true, if_false, imp_false, implies_true, and_true, true_and]
  · by_cases h0 : last = 0
    · rw [if_pos h0]
      exact ⟨fun ⟨_, _, h, _⟩ => (nomatch h), fun h => by omega⟩
    · rw [if_neg h0, inRange_ite]
      omega
  · have hne : first ≠ last := fun h => by rw [h, hl] at hf; cases hf
    rw [inRange_ite]
    omega
  · by_cases h0 : last = 0
    · rw [if_pos h0]
      exact ⟨fun ⟨_, _, h, _⟩ => (nomatch h), fun h => by omega⟩
    · rw [if_neg h0, inRange_ite]
      omega
  · rw [inRange_ite]

/-- The range scanned for whole chunks holds exactly the covered ones. -/
lemma inRange_fullRange (hle : off / g.chunkSize ≤ (stop - 1) / g.chunkSize)
    (h32 : (stop - 1) / g.chunkSize < 2 ^ 32) (idx : Nat) :
    InRange (g.fullRange (off / g.chunkSize) ((stop - 1) / g.chunkSize) off stop) idx ↔
      off / g.chunkSize ≤ idx ∧ idx ≤ (stop - 1) / g.chunkSize
      ∧ g.chunkFullyCovered idx off stop = true := by
  rw [inRange_iff hle h32]
  constructor
  · rintro ⟨⟨h1, h2⟩, hfirst, hlast⟩
    refine ⟨h1, h2, ?_⟩
    by_cases he : idx = off / g.chunkSize
    · rw [he, hfirst he]
    by_cases he' : idx = (stop - 1) / g.chunkSize
    · rw [he', hlast he']
    · exact covered_between (by omega) (by omega)
  · rintro ⟨h1, h2, hc⟩
    exact ⟨⟨h1, h2⟩, fun he => he ▸ hc, fun he => he ▸ hc⟩

lemma mem_edges {first last : Nat} :
    idx ∈ g.edges first last off stop ↔
      (idx = first ∨ idx = last) ∧ g.chunkFullyCovered idx off stop = false := by
  unfold edges
  split
  · rename_i h
    simp [h]
  · simp

lemma edges_nodup (first last off stop : Nat) : (g.edges first last off stop).Nodup := by
  refine List.Nodup.filter _ ?_
  split
  · exact List.nodup_singleton _
  · rename_i h
    simp [h]

lemma edges_length (first last off stop : Nat) : (g.edges first last off stop).length ≤ 2 := by
  refine le_trans (List.length_filter_le _ _) ?_
  split
  · exact Nat.le_succ 1
  · exact le_refl 2

/-- What is left once an extent is trimmed. -/
structure Cleared (g : BlockVolume) (db : Db) (off stop : Nat) (db' : Db) : Prop where
  stored : g.Stored db'
  byteAt : ∀ p, SlateFs.byteAt g.chunkSize db' BLOCK_INO p =
    if off ≤ p ∧ p < stop then 0 else SlateFs.byteAt g.chunkSize db BLOCK_INO p
  /-- No stored chunk is covered by the extent. -/
  gone : ∀ idx c, db'.chunks.get? (toLex (BLOCK_INO, idx)) = some c →
    ¬(off ≤ idx * g.chunkSize ∧ (g.chunkBounds idx).2 ≤ stop)

lemma Trimmed.cleared (hlt : off < stop) (hfit : stop ≤ g.sizeBytes)
    (ht : g.Trimmed db off stop
      (g.edges (off / g.chunkSize) ((stop - 1) / g.chunkSize) off stop)
      (g.fullRange (off / g.chunkSize) ((stop - 1) / g.chunkSize) off stop) db') :
    g.Cleared db off stop db' := by
  have hpos := Nat.pos_of_ne_zero g.chunkSize_ne
  have hle : off / g.chunkSize ≤ (stop - 1) / g.chunkSize := Nat.div_le_div_right (by omega)
  have hrange := inRange_fullRange hle (g.div_lt (by omega))
  refine ⟨ht.stored, fun p => ?_, ?_⟩
  · split
    · rename_i hp
      have h1 : off / g.chunkSize ≤ p / g.chunkSize := Nat.div_le_div_right hp.1
      have h2 : p / g.chunkSize ≤ (stop - 1) / g.chunkSize := Nat.div_le_div_right (by omega)
      cases hc : g.chunkFullyCovered (p / g.chunkSize) off stop with
      | true =>
        rw [SlateFs.byteAt, ht.gone _ ((hrange _).mpr ⟨h1, h2, hc⟩)]
        rfl
      | false =>
        refine ht.edges p (mem_edges.mpr ⟨?_, hc⟩) hp.1 hp.2
        by_contra hne
        rw [covered_between (by omega) (by omega)] at hc
        cases hc
    · rename_i hp
      exact ht.outside p hp
  · rintro idx c hc ⟨hlo, hhi⟩
    have hin := ht.stored.inside idx c hc
    have hne := ht.stored.nonempty idx c hc
    simp only [chunkBounds] at hhi
    have h1 : off / g.chunkSize ≤ idx := Nat.div_le_of_le_mul (by rw [Nat.mul_comm]; exact hlo)
    have h2 : idx ≤ (stop - 1) / g.chunkSize := (Nat.le_div_iff_mul_le hpos).mpr (by omega)
    rw [ht.gone idx ((hrange idx).mpr ⟨h1, h2, chunkFullyCovered_iff.mpr ⟨hlo, hhi⟩⟩)] at hc
    cases hc

/-- **Trim returns, is never refused, and clears its extent.** -/
theorem wp_trim {len : Nat} (h : g.Stored db) (hM : ∀ d e, M.reserve d 0 (.error e) → 0 < d)
    (fuel : Nat) (hfuel : z ∨ ∀ range, (coveredOf db range).length < fuel)
    (hbad : g.sizeBytes < off + len → E (.err .invalid) db)
    (hnone : off + len ≤ g.sizeBytes → len = 0 → Q () db)
    (hdone : ∀ db', off + len ≤ g.sizeBytes → len ≠ 0 → g.Cleared db off (off + len) db' →
      Q () db') :
    wp (M.watch g.ZeroTxn z) Q E (g.trim fuel off len) db := by
  simp only [BlockVolume.trim, wp_bind, wp_chunkRange]
  refine ⟨fun hfit he => by simpa using hnone hfit he, fun hfit hne => ?_, hbad⟩
  simp only [wp_withGuards, wp_bind, wp_stageAll]
  have hle : off / g.chunkSize ≤ (off + len - 1) / g.chunkSize := Nat.div_le_div_right (by omega)
  have hrange := inRange_fullRange hle (g.div_lt (by omega))
  refine wp_trimLoop ?_ hM fuel h (edges_nodup ..) ?_ (edges_length ..)
    (hfuel.imp_right fun hf => hf _) ?_
  · exact fun idx hr => chunkFullyCovered_iff.mp ((hrange idx).mp hr).2.2
  · intro idx hidx hr
    have := ((hrange idx).mp hr).2.2
    rw [(mem_edges.mp hidx).2] at this
    cases this
  · exact fun db' ht => hdone db' hfit hne (ht.cleared (by omega) hfit)

end BlockVolume

end SlateFs
