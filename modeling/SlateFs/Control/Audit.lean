import SlateFs.Control.Records
import SlateFs.Lib.Digits

/-!
# Appending to the audit log

A record is stored under its time and a sequence number (`control.rs`). The search for a
free key asks the store, and a batch is written only when all its keys are found: a later
record of the batch does not see the keys that the earlier ones found. It may find the same
key, and then replaces the earlier record. This happens when the earlier search skips stored
keys as far as the number where the later one starts.
-/

namespace SlateFs.Audit

open Digits (digits length_digits digits_inj)

/-- `audit_key` -/
def auditKey (k : UInt64 × UInt32) : Bytes :=
  [97, 47] ++ digits 256 UInt8.ofNat 8 k.1.toNat ++ [47] ++ digits 256 UInt8.ofNat 4 k.2.toNat

/-- `audit_id` -/
def auditId (k : UInt64 × UInt32) : String := String.ofList
  (digits 16 Nat.digitChar 16 k.1.toNat ++ '.' :: digits 16 Nat.digitChar 8 k.2.toNat)

lemma auditKey_injective : Function.Injective auditKey := by
  rintro ⟨t, s⟩ ⟨t', s'⟩ h
  have hbyte : ∀ i < 256, ∀ j < 256, UInt8.ofNat i = UInt8.ofNat j → i = j := by
    intro i hi j hj h
    have hval := congrArg UInt8.toNat h
    rwa [UInt8.toNat_ofNat_of_lt' hi, UInt8.toNat_ofNat_of_lt' hj] at hval
  obtain ⟨hleft, hs⟩ := List.append_inj h (by simp [length_digits])
  obtain ⟨hleft, -⟩ := List.append_inj hleft (by simp [length_digits])
  obtain ⟨-, ht⟩ := List.append_inj hleft rfl
  exact Prod.ext (UInt64.toNat_inj.mp (digits_inj hbyte (by decide) t.toNat_lt t'.toNat_lt ht))
    (UInt32.toNat_inj.mp (digits_inj hbyte (by decide) s.toNat_lt s'.toNat_lt hs))

lemma auditId_injective : Function.Injective auditId := by
  rintro ⟨t, s⟩ ⟨t', s'⟩ h
  have hchar : ∀ i < 16, ∀ j < 16, Nat.digitChar i = Nat.digitChar j → i = j := by decide
  obtain ⟨ht, hs⟩ := List.append_inj (String.ofList_injective h) (by simp [length_digits])
  exact Prod.ext (UInt64.toNat_inj.mp (digits_inj hchar (by decide) t.toNat_lt t'.toNat_lt ht))
    (UInt32.toNat_inj.mp
      (digits_inj hchar (by decide) s.toNat_lt s'.toNat_lt (List.cons.inj hs).2))

/-- Who did what, where, and with which details is left open. -/
structure AuditRecord (β : Type) where
  id : String
  time : UInt64
  body : β
  deriving DecidableEq

variable {β : Type} (log : OrdMap Bytes (AuditRecord β))

/-- A key is stored. -/
def Taken (k : UInt64 × UInt32) : Prop := (log.get? (auditKey k)).isSome

instance (k : UInt64 × UInt32) : Decidable (Taken log k) := inferInstanceAs (Decidable (_ = true))

/-- The first free sequence number among `n`. -/
def firstFree (timestamp : UInt64) : Nat → UInt32 → Option UInt32
  | 0, _ => none
  | n + 1, seq => if Taken log (timestamp, seq) then firstFree timestamp n (seq + 1) else some seq

variable (clock : Nat → UInt64)

/-- The loop of `next_audit_key`. Each round takes a number from the counter, and a new one has a
later time. -/
def search : Nat → UInt64 → UInt32 → Nat → Option ((UInt64 × UInt32) × UInt32 × Nat)
  | 0, _, _, _ => none
  | fuel + 1, timestamp, counter, tick =>
    match firstFree log timestamp 1024 counter with
    | some seq => some ((timestamp, seq), counter + 1, tick)
    | none => search fuel (max (clock tick) (if timestamp = -1 then -1 else timestamp + 1))
        (counter + 1) (tick + 1)

/-- `next_audit_key`; a record without a time happens now. -/
def nextAuditKey (fuel : Nat) (requestedTime : UInt64) (counter : UInt32) (tick : Nat) :
    Option ((UInt64 × UInt32) × UInt32 × Nat) :=
  if requestedTime = 0 then search log clock fuel (clock tick) counter (tick + 1)
  else search log clock fuel requestedTime counter tick

/-- The keys of a batch. -/
def nextAuditKeys (fuel : Nat) : List (AuditRecord β) → UInt32 → Nat →
    Option (List (UInt64 × UInt32))
  | [], _, _ => some []
  | r :: rs, counter, tick => do
    let (key, counter, tick) ← nextAuditKey log clock fuel r.time counter tick
    let keys ← nextAuditKeys fuel rs counter tick
    some (key :: keys)

variable (bounded : β → β)

/-- What is written; `bounded` bounds the details. -/
def batch (records : List (AuditRecord β)) (keys : List (UInt64 × UInt32)) :
    List (Bytes × AuditRecord β) :=
  (records.zip keys).map fun e => (auditKey e.2, ⟨auditId e.2, e.2.1, bounded e.1.body⟩)

/-- `append_audit_records`, from a value of the sequence counter. -/
def appendAuditRecords (fuel : Nat) (records : List (AuditRecord β)) (counter : UInt32) :
    Option (List (AuditRecord β) × OrdMap Bytes (AuditRecord β)) := do
  let keys ← nextAuditKeys log clock fuel records counter 0
  some ((batch bounded records keys).map Prod.snd, log.insertAll (batch bounded records keys))

/-- What is expected of an append of `n` records: what was stored stays, and there are `n` new keys
with the records that are returned, each with an identifier of its own. -/
structure Appended (n : Nat) (appended : List (AuditRecord β))
    (log' : OrdMap Bytes (AuditRecord β)) : Prop where
  kept : ∀ k r, log.get? k = some r → log'.get? k = some r
  ids : (appended.map (·.id)).Nodup
  added : ∃ keys : List Bytes, keys.Nodup ∧ keys.length = n ∧
    keys.map log'.get? = appended.map some ∧
      ∀ k, k ∈ keys ↔ log.get? k = none ∧ (log'.get? k).isSome

/-! ## When records stay apart

The conditions are on the log, the counter, and the times of the records: the requested ones, and
readings of the clock for those without. Record `i` of a batch starts its search at the counter
plus `i`. -/

/-- The times of a batch. -/
def times : List (AuditRecord β) → Nat → List UInt64
  | [], _ => []
  | r :: rs, tick =>
    if r.time = 0 then clock tick :: times rs (tick + 1) else r.time :: times rs tick

/-- Each record finds a free number among the 1024 from its start on. -/
def Roomy (counter : UInt32) (ts : List UInt64) : Prop :=
  ∀ i t, ts[i]? = some t → ∃ d < 1024, ¬Taken log (t, counter + .ofNat (i + d))

/-- Between the starts of two records of one time there is a free number. -/
def Apart (counter : UInt32) (ts : List UInt64) : Prop :=
  ∀ i j t, i < j → ts[i]? = some t → ts[j]? = some t →
    ∃ k, i ≤ k ∧ k < j ∧ ¬Taken log (t, counter + .ofNat k)

/-- The first free key from a start on. -/
def Found (counter : UInt32) (i : Nat) (t : UInt64) (key : UInt64 × UInt32) : Prop :=
  ∃ d < 1024, key = (t, counter + .ofNat (i + d)) ∧ ¬Taken log key ∧
    ∀ k < d, Taken log (t, counter + .ofNat (i + k))

variable {log clock bounded} {counter : UInt32} {tick : Nat} {records : List (AuditRecord β)}
  {keys : List (UInt64 × UInt32)} {key : UInt64 × UInt32} {ts : List UInt64} {t : UInt64}

lemma add_ofNat_succ (s : UInt32) (n : Nat) : s + .ofNat (n + 1) = s + 1 + .ofNat n := by
  rw [UInt32.ofNat_add]
  ac_rfl

lemma firstFree_of_free :
    ∀ {n : Nat} {s : UInt32},
    (∃ d < n, ¬Taken log (t, s + .ofNat d)) →
    ∃ d < n, firstFree log t n s = some (s + .ofNat d) ∧ ¬Taken log (t, s + .ofNat d) ∧
      ∀ k < d, Taken log (t, s + .ofNat k)
  | 0, _, h => by
    obtain ⟨_, hd, _⟩ := h
    omega
  | n + 1, s, h => by
    by_cases htaken : Taken log (t, s)
    · obtain ⟨d, hd, hfree⟩ := h
      -- the number at the start is stored, so the free one lies further on
      obtain ⟨d, rfl⟩ : ∃ e, d = e + 1 :=
        Nat.exists_eq_succ_of_ne_zero (by rintro rfl; simp [htaken] at hfree)
      rw [add_ofNat_succ] at hfree
      have hlater : ∃ d < n, ¬Taken log (t, s + 1 + .ofNat d) := ⟨d, by omega, hfree⟩
      obtain ⟨e, he, hfirst, hfree, hskip⟩ := firstFree_of_free hlater
      refine ⟨e + 1, by omega, ?_, ?_, fun k hk => ?_⟩
      · rw [firstFree, if_pos htaken, hfirst, add_ofNat_succ]
      · rwa [add_ofNat_succ]
      · cases k with
        | zero => simpa using htaken
        | succ k =>
          rw [add_ofNat_succ]
          exact hskip k (by omega)
    · exact ⟨0, by omega, by simp [firstFree, htaken], by simpa using htaken, by simp⟩

lemma not_taken_of_firstFree {q : UInt32} :
    ∀ {n : Nat} {s : UInt32},
    firstFree log t n s = some q → ¬Taken log (t, q)
  | n + 1, s, h => by
    unfold firstFree at h
    split at h
    · exact not_taken_of_firstFree h
    · cases h
      assumption

lemma not_taken_of_search {t : UInt64} {key : UInt64 × UInt32} {c : UInt32 × Nat} {fuel : Nat}
    (h : search log clock fuel t counter tick = some (key, c)) : ¬Taken log key := by
  induction fuel generalizing t counter tick with
  | zero => cases h
  | succ fuel ih =>
    unfold search at h
    split at h
    case h_1 seq hseq =>
      cases h
      exact not_taken_of_firstFree hseq
    case h_2 => exact ih h

/-- **A search only finds free keys**, whatever the log, the clock and the times. -/
lemma nextAuditKeys_free {fuel : Nat} (h : nextAuditKeys log clock fuel records counter tick =
    some keys) : keys.length = records.length ∧ ∀ key ∈ keys, ¬Taken log key := by
  induction records generalizing counter tick keys with
  | nil => cases h; exact ⟨rfl, nofun⟩
  | cons r rs ih =>
    simp only [nextAuditKeys, Option.bind_eq_bind, Option.bind_eq_some_iff,
      Option.some.injEq] at h
    obtain ⟨⟨key, counter', tick'⟩, hkey, rest, hrest, rfl⟩ := h
    obtain ⟨hlen, hfree⟩ := ih hrest
    refine ⟨congrArg Nat.succ hlen, List.forall_mem_cons.mpr ⟨?_, hfree⟩⟩
    unfold nextAuditKey at hkey
    split at hkey <;> exact not_taken_of_search hkey

lemma length_times : (times clock records tick).length = records.length := by
  induction records generalizing tick with
  | nil => rfl
  | cons r rs ih => unfold times; split <;> simp [ih]

lemma Roomy.tail (h : Roomy log counter (t :: ts)) : Roomy log (counter + 1) ts := by
  intro i t' hi
  obtain ⟨d, hd, hfree⟩ := h (i + 1) t' hi
  exact ⟨d, hd, by rwa [← add_ofNat_succ, Nat.add_right_comm]⟩

lemma Found.succ {i : Nat} (h : Found log (counter + 1) i t key) :
    Found log counter (i + 1) t key := by
  obtain ⟨d, hd, hkey, hfree, hskip⟩ := h
  refine ⟨d, hd, ?_, hfree, fun k hk => ?_⟩
  · rw [hkey, ← add_ofNat_succ, Nat.add_right_comm]
  · rw [Nat.add_right_comm, add_ofNat_succ]
    exact hskip k hk

lemma search_of_firstFree (clock : Nat → UInt64) (tick fuel : Nat) {seq : UInt32}
    (h : firstFree log t 1024 counter = some seq) :
    search log clock (fuel + 1) t counter tick = some ((t, seq), counter + 1, tick) := by
  simp only [search, h]

lemma found_start {d : Nat} (hd : d < 1024) (hfree : ¬Taken log (t, counter + .ofNat d))
    (hskip : ∀ k < d, Taken log (t, counter + .ofNat k)) :
    Found log counter 0 t (t, counter + .ofNat d) := by
  have hstart : counter + UInt32.ofNat d = counter + .ofNat (0 + d) := by rw [Nat.zero_add]
  refine ⟨d, hd, Prod.ext rfl hstart, hfree, ?_⟩
  simpa only [Nat.zero_add] using hskip

/-- With room at its start, a search ends in its first round. -/
lemma search_of_free (clock : Nat → UInt64) (tick : Nat)
    (h : ∃ d < 1024, ¬Taken log (t, counter + .ofNat d)) :
    ∃ key, Found log counter 0 t key ∧
      ∀ fuel, search log clock (fuel + 1) t counter tick = some (key, counter + 1, tick) := by
  obtain ⟨d, hd, hfirst, hfree, hskip⟩ := firstFree_of_free h
  exact ⟨_, found_start hd hfree hskip, fun fuel => search_of_firstFree clock tick fuel hfirst⟩

lemma nextAuditKeys_found (hroom : Roomy log counter (times clock records tick)) :
    ∃ keys, (∀ fuel, nextAuditKeys log clock (fuel + 1) records counter tick = some keys) ∧
      ∀ i t, (times clock records tick)[i]? = some t →
        ∃ key, keys[i]? = some key ∧ Found log counter i t key := by
  induction records generalizing counter tick with
  | nil => exact ⟨[], fun _ => rfl, by simp [times]⟩
  | cons r rs ih =>
    -- the time of the first record, and the clock after it
    obtain ⟨t, tick', htimes, hnext⟩ : ∃ t tick', times clock (r :: rs) tick =
        t :: times clock rs tick' ∧ ∀ fuel, nextAuditKey log clock fuel r.time counter tick =
          search log clock fuel t counter tick' := by
      by_cases hzero : r.time = 0
      · exact ⟨clock tick, tick + 1, by rw [times, if_pos hzero], by simp [nextAuditKey, hzero]⟩
      · exact ⟨r.time, tick, by rw [times, if_neg hzero], by simp [nextAuditKey, hzero]⟩
    rw [htimes] at hroom ⊢
    obtain ⟨key, hkey, hsearch⟩ := search_of_free clock tick' (by simpa using hroom 0 t rfl)
    obtain ⟨keys, hkeys, hfound⟩ := ih hroom.tail
    refine ⟨key :: keys, fun fuel => ?_, fun i t' hi => ?_⟩
    · simp only [nextAuditKeys, hnext, hsearch, hkeys, Option.bind_eq_bind, Option.bind_some]
    · cases i with
      | zero =>
        cases hi
        exact ⟨key, rfl, hkey⟩
      | succ i =>
        obtain ⟨key', hget, hkey'⟩ := hfound i t' hi
        exact ⟨key', hget, hkey'.succ⟩

/-- Below the end of the numbers two records find one key just when the keys between their starts
are stored. -/
lemma Found.ne_iff {i j : Nat} {t' : UInt64} {key' : UInt64 × UInt32}
    (h : Found log counter i t key) (h' : Found log counter j t' key') (hij : i < j)
    (hj : j + 1024 ≤ 2 ^ 32) :
    key ≠ key' ↔ (t = t' → ∃ k, i ≤ k ∧ k < j ∧ ¬Taken log (t, counter + .ofNat k)) := by
  obtain ⟨d, hd, rfl, hfree, hskip⟩ := h
  obtain ⟨d', hd', rfl, hfree', hskip'⟩ := h'
  have heq : counter + UInt32.ofNat (i + d) = counter + .ofNat (j + d') ↔ i + d = j + d' := by
    rw [UInt32.add_right_inj]
    refine ⟨fun h => ?_, congrArg _⟩
    have hval := congrArg UInt32.toNat h
    rwa [UInt32.toNat_ofNat', UInt32.toNat_ofNat', Nat.mod_eq_of_lt (by omega),
      Nat.mod_eq_of_lt (by omega)] at hval
  rw [ne_eq, Prod.mk.injEq, heq]
  constructor
  · intro hne ht
    by_contra hall
    push Not at hall
    subst ht
    -- the first search skips all the keys before the second one's start, and ends where it ends
    refine hne ⟨rfl, ?_⟩
    rcases Nat.lt_trichotomy (i + d) (j + d') with hlt | heq | hlt
    · rcases Nat.lt_or_ge (i + d) j with hbefore | hafter
      · exact absurd (hall _ (by omega) hbefore) hfree
      · obtain ⟨k, hk⟩ := Nat.exists_eq_add_of_le hafter
        exact absurd (hk ▸ hskip' k (by omega)) hfree
    · exact heq
    · obtain ⟨k, hk⟩ := Nat.exists_eq_add_of_le (show i ≤ j + d' by omega)
      exact absurd (hk ▸ hskip k (by omega)) hfree'
  · rintro hfree ⟨rfl, heq⟩
    obtain ⟨k, hik, hkj, hk⟩ := hfree rfl
    obtain ⟨e, rfl⟩ := Nat.exists_eq_add_of_le hik
    exact hk (hskip e (by omega))

lemma nodup_iff_apart (hlen : keys.length = ts.length) (hbound : ts.length + 1023 ≤ 2 ^ 32)
    (h : ∀ i t, ts[i]? = some t → ∃ key, keys[i]? = some key ∧ Found log counter i t key) :
    keys.Nodup ↔ Apart log counter ts := by
  rw [List.nodup_iff_getElem?_ne_getElem?]
  constructor
  · intro hne i j t hij hi hj
    obtain ⟨key, hkey, hfound⟩ := h i t hi
    obtain ⟨key', hkey', hfound'⟩ := h j t hj
    obtain ⟨hlt, -⟩ := List.getElem?_eq_some_iff.mp hj
    have hdistinct := hne i j hij (by omega)
    rw [hkey, hkey'] at hdistinct
    exact (hfound.ne_iff hfound' hij (by omega)).mp (fun h => hdistinct (congrArg some h)) rfl
  · intro hapart i j hij hj
    have hi := List.getElem?_eq_getElem (show i < ts.length by omega)
    have hj := List.getElem?_eq_getElem (show j < ts.length by omega)
    obtain ⟨key, hkey, hfound⟩ := h i _ hi
    obtain ⟨key', hkey', hfound'⟩ := h j _ hj
    rw [hkey, hkey', ne_eq, Option.some.injEq]
    refine (hfound.ne_iff hfound' hij (by omega)).mpr fun ht => ?_
    exact hapart i j _ hij hi (ht ▸ hj)

lemma kept_of_free (bounded : β → β) (records : List (AuditRecord β))
    (hfree : ∀ key ∈ keys, ¬Taken log key) :
    ∀ k r, log.get? k = some r → (log.insertAll (batch bounded records keys)).get? k = some r := by
  intro k r h
  rw [OrdMap.get?_insertAll_of_not_mem log, h]
  intro hk
  rw [batch, List.map_map] at hk
  obtain ⟨e, hmem, rfl⟩ := List.mem_map.mp hk
  exact hfree e.2 (List.of_mem_zip hmem).2 (Option.isSome_of_mem h)

lemma appended_iff_nodup (hlen : keys.length = records.length)
    (hfree : ∀ key ∈ keys, ¬Taken log key) :
    Appended log records.length ((batch bounded records keys).map Prod.snd)
      (log.insertAll (batch bounded records keys)) ↔ keys.Nodup := by
  have hsnd := List.map_snd_zip (Nat.le_of_eq hlen)
  have hkeys : (batch bounded records keys).map Prod.fst = keys.map auditKey := by
    conv_rhs => rw [← hsnd]
    simp only [batch, List.map_map, Function.comp_def]
  have hids : ((batch bounded records keys).map Prod.snd).map (·.id) = keys.map auditId := by
    conv_rhs => rw [← hsnd]
    simp only [batch, List.map_map, Function.comp_def]
  have hkept := kept_of_free bounded records hfree
  generalize batch bounded records keys = es at hkeys hids hkept
  refine ⟨fun h => (hids ▸ h.ids).of_map, fun hnd => ?_⟩
  have hnew : ∀ k ∈ es.map Prod.fst, log.get? k = none := by
    intro k hk
    rw [hkeys] at hk
    obtain ⟨key, hkey, rfl⟩ := List.mem_map.mp hk
    exact Option.not_isSome_iff_eq_none.mp (hfree key hkey)
  have hnodup : (es.map Prod.fst).Nodup := hkeys ▸ hnd.map auditKey_injective
  have hget : ∀ e ∈ es, (log.insertAll es).get? e.1 = some e.2 :=
    fun e he => OrdMap.get?_insertAll_of_mem log hnodup he
  refine ⟨hkept, hids ▸ hnd.map auditId_injective, es.map Prod.fst, hnodup, ?_, ?_,
    fun k => ⟨fun hk => ⟨hnew k hk, ?_⟩, fun ⟨hnone, hsome⟩ => ?_⟩⟩
  · rw [hkeys, List.length_map, hlen]
  · rw [List.map_map, List.map_map]
    exact List.map_congr_left hget
  · obtain ⟨e, he, rfl⟩ := List.mem_map.mp hk
    rw [hget e he]
    rfl
  · by_contra hk
    simp [OrdMap.get?_insertAll_of_not_mem log hk, hnone] at hsome

/-- A log with one key. -/
def oneStored : OrdMap Bytes (AuditRecord Nat) :=
  OrdMap.empty.insert (auditKey (5, 0)) ⟨auditId (5, 0), 5, 0⟩

end SlateFs.Audit
