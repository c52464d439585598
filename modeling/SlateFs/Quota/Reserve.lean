import SlateFs.Core.Quota

/-!
# What a reservation decides

Limits are unsigned 64-bit, usage is signed 64-bit, and `exceeds_limit` compares
them after casting the limit. This module puts the verdict of `reserve` beside
the one integer arithmetic would give, for every limit the control plane lets
through, and finds exactly where the two part.
-/

namespace SlateFs

open Int64

/-- `control::validate_limit`. -/
def validateLimit (kind : String) (limit : QuotaLimit) : Except Invalid Unit := do
  match limit.soft, limit.hard with
  | some soft, some hard =>
    if hard < soft then
      throw ⟨kind, s!"soft limit {soft} exceeds hard limit {hard}"⟩
  | _, _ => pure ()
  if limit.graceUntil.isSome && limit.soft.isNone then
    throw ⟨kind, "grace_until requires a soft limit"⟩

/-- `control::validate_quota_limits`. -/
def validateQuotaLimits (quota : QuotaLimits) : Except Invalid Unit := do
  validateLimit "bytes quota" quota.bytes
  validateLimit "inodes quota" quota.inodes

/-- The limit fits its 64-bit fields. -/
def QuotaLimit.Wide (limit : QuotaLimit) : Prop :=
  (∀ n ∈ limit.hard, n < 2 ^ 64) ∧ ∀ n ∈ limit.soft, n < 2 ^ 64

instance (limit : QuotaLimit) : Decidable limit.Wide := inferInstanceAs (Decidable (_ ∧ _))

/-- Limits the control plane stores: 64-bit values that pass validation. -/
structure QuotaLimits.Accepted (limits : QuotaLimits) : Prop where
  /-- The byte limit is made of 64-bit values. -/
  bytes : limits.bytes.Wide
  /-- So is the inode limit. -/
  inodes : limits.inodes.Wide
  /-- Validation let them through. -/
  valid : validateQuotaLimits limits = .ok ()

/-- The limits a counter is held to at a moment: the hard limit, and the soft limit
once its grace period has ended. -/
def QuotaLimit.inForce (limit : QuotaLimit) (now : Nat) : List Nat :=
  limit.hard.toList ++
    match limit.soft, limit.graceUntil with
    | some soft, some grace => if grace ≤ now then [soft] else []
    | _, _ => []

/-- A usage a reservation would reach, as an integer, against one limit in force. -/
structure Charge where
  limit : Nat
  usage : Int

/-- The charges of raising one counter; lowering it makes none. -/
def QuotaLimit.charges (limit : QuotaLimit) (usage delta : Int64) (now : Nat) : List Charge :=
  if 0 < delta then (limit.inForce now).map (⟨·, usage.toInt + delta.toInt⟩) else []

def QuotaTracker.charges (q : QuotaTracker) (bytesDelta inodeDelta : Int64) (now : Nat) :
    List Charge :=
  q.limits.bytes.charges q.bytes bytesDelta now ++ q.limits.inodes.charges q.inodes inodeDelta now

/-- **The law of `reserve`**: it rejects exactly when some counter it raises would
pass a limit in force, and a rejection leaves both counters alone. -/
def QuotaTracker.Exact (q : QuotaTracker) (bytesDelta inodeDelta : Int64) (now : Nat) : Prop :=
  let r := q.reserve bytesDelta inodeDelta now
  (r.1 ≠ .ok () ↔ ∃ c ∈ q.charges bytesDelta inodeDelta now, (c.limit : Int) < c.usage) ∧
    (r.1 ≠ .ok () → r.2.bytes = q.bytes ∧ r.2.inodes = q.inodes)

namespace Charge

/-- Passes the limit on the limit's own side of `2 ^ 63`. -/
def Seen (c : Charge) : Prop := (c.limit : Int) < c.usage ∧ (c.limit < 2 ^ 63 ↔ c.usage < 2 ^ 63)

/-- Reaches `2 ^ 63` over a limit below it: the sum wraps to a negative usage. -/
def Hidden (c : Charge) : Prop := c.limit < 2 ^ 63 ∧ 2 ^ 63 ≤ c.usage

/-- Stays below `2 ^ 63` under a limit at or above it: the limit reads as a negative
number, and the usage is above that. -/
def Phantom (c : Charge) : Prop :=
  c.usage < 2 ^ 63 ∧ 2 ^ 63 ≤ c.limit ∧ (c.limit : Int) < c.usage + 2 ^ 64

end Charge

/-- The inputs on which the signed comparison decides as the integers do: a limit is
passed on its own side of `2 ^ 63`, or the two slips of the cast are both absent,
or both present (and the one rejects in the other's place). -/
def QuotaTracker.Comparable (q : QuotaTracker) (bytesDelta inodeDelta : Int64) (now : Nat) : Prop :=
  let cs := q.charges bytesDelta inodeDelta now
  (∃ c ∈ cs, c.Seen) ∨ ((∃ c ∈ cs, c.Hidden) ↔ ∃ c ∈ cs, c.Phantom)

/-! ## The signed comparison of one charge -/

lemma toInt_ofNat_u64 {a : Nat} (ha : a < 2 ^ 64) :
    (ofNat a).toInt = if a < 2 ^ 63 then (a : Int) else a - 2 ^ 64 := by
  have hsize : (size : Int) = 2 ^ 64 := rfl
  rw [toInt_ofNat', Int.bmod_def, hsize]
  split <;> split <;> omega

lemma toInt_add_charge (u d : Int64) (hd : 0 < d) :
    (u + d).toInt = if u.toInt + d.toInt < 2 ^ 63 then u.toInt + d.toInt
      else u.toInt + d.toInt - 2 ^ 64 := by
  have hu := u.toInt_lt
  have hu' := u.le_toInt
  have hd' := d.toInt_lt
  have hpos : 0 < d.toInt := lt_iff_toInt_lt.mp hd
  rw [toInt_add, Int.bmod_def]
  split <;> split <;> omega

/-- **One charge.** The cast comparison takes a limit for passed exactly when it is
passed on its own side, or when it only seems to be. -/
theorem lt_charge_iff {a : Nat} (ha : a < 2 ^ 64) (u d : Int64) (hd : 0 < d) :
    ofNat a < u + d ↔
      Charge.Seen ⟨a, u.toInt + d.toInt⟩ ∨ Charge.Phantom ⟨a, u.toInt + d.toInt⟩ := by
  rw [lt_iff_toInt_lt, toInt_ofNat_u64 ha, toInt_add_charge u d hd]
  unfold Charge.Seen Charge.Phantom
  have hu := u.le_toInt
  have hu' := u.toInt_lt
  have hd' := d.toInt_lt
  dsimp only
  split <;> split <;> omega

/-- A limit is passed, as integers, when it is seen to be or when the wrap hides it. -/
lemma Charge.passes_iff (c : Charge) : (c.limit : Int) < c.usage ↔ c.Seen ∨ c.Hidden := by
  unfold Seen Hidden
  omega

/-! ## What a rejection takes back -/

namespace QuotaTracker

/-- The charge of the byte counter is undone, also where it wrapped. -/
lemma sub_addBytes (q : QuotaTracker) (d : Int64) : (q.addBytes d).subBytes d = q := by
  rw [addBytes, subBytes, Int64.add_sub_cancel]

/-- Both charges are undone, in the order in which `reserve` takes them back. -/
lemma sub_addInodes (q : QuotaTracker) (d i : Int64) :
    (((q.addBytes d).addInodes i).subInodes i).subBytes d = q := by
  rw [addInodes, subInodes, Int64.add_sub_cancel]
  exact q.sub_addBytes d

/-- **Charging first and taking back is checking first.** -/
theorem reserve_eq (q : QuotaTracker) (b i : Int64) (now : Nat) : q.reserve b i now =
    if 0 < b ∧ exceedsLimit (q.bytes + b) q.limits.bytes now then
      (.error .quotaExceeded, q.rejected)
    else if 0 < i ∧ exceedsLimit (q.inodes + i) q.limits.inodes now then
      (.error .quotaExceeded, q.rejected)
    else (.ok (), { q with bytes := q.bytes + b, inodes := q.inodes + i }) := by
  rw [reserve]
  dsimp only
  rw [sub_addBytes, sub_addInodes]
  rfl

end QuotaTracker

/-! ## The verdict of a reservation -/

lemma exceedsLimit_iff (usage : Int64) (limit : QuotaLimit) (now : Nat) :
    exceedsLimit usage limit now = true ↔ ∃ a ∈ limit.inForce now, ofNat a < usage := by
  unfold exceedsLimit QuotaLimit.inForce
  cases limit.hard <;> cases limit.soft <;> cases limit.graceUntil <;> simp
  all_goals
    rename_i s g
    by_cases hg : g ≤ now <;> simp [hg]

variable {limit : QuotaLimit} {q : QuotaTracker}

lemma QuotaLimit.Wide.inForce (h : limit.Wide) {now a : Nat} (ha : a ∈ limit.inForce now) :
    a < 2 ^ 64 := by
  rcases List.mem_append.mp ha with hh | hs
  · exact h.1 a (by simpa using hh)
  split at hs
  · rename_i soft grace hsoft _
    split at hs
    · obtain rfl := List.mem_singleton.mp hs
      exact h.2 a (by simp [hsoft])
    · simp at hs
  · simp at hs

/-- The check `reserve` makes on one counter, over the charges there. -/
lemma exceeds_iff_charges (h : limit.Wide) (u d : Int64) (now : Nat) :
    (0 < d ∧ exceedsLimit (u + d) limit now = true) ↔
      ∃ c ∈ limit.charges u d now, c.Seen ∨ c.Phantom := by
  unfold QuotaLimit.charges
  by_cases hd : 0 < d
  · simp only [hd, true_and, if_true, exceedsLimit_iff, List.mem_map]
    constructor
    · intro ⟨a, ha, hlt⟩
      exact ⟨_, ⟨a, ha, rfl⟩, (lt_charge_iff (h.inForce ha) u d hd).mp hlt⟩
    · intro ⟨c, ⟨a, ha, hc⟩, hcut⟩
      subst hc
      exact ⟨a, ha, (lt_charge_iff (h.inForce ha) u d hd).mpr hcut⟩
  · simp [hd]

lemma reserve_rejects_iff (hq : q.limits.Accepted) (bytesDelta inodeDelta : Int64) (now : Nat) :
    (q.reserve bytesDelta inodeDelta now).1 ≠ .ok () ↔
      ∃ c ∈ q.charges bytesDelta inodeDelta now, c.Seen ∨ c.Phantom := by
  have hb := exceeds_iff_charges hq.bytes q.bytes bytesDelta now
  have hi := exceeds_iff_charges hq.inodes q.inodes inodeDelta now
  have hsplit : (∃ c ∈ q.charges bytesDelta inodeDelta now, c.Seen ∨ c.Phantom) ↔
      (∃ c ∈ q.limits.bytes.charges q.bytes bytesDelta now, c.Seen ∨ c.Phantom) ∨
        ∃ c ∈ q.limits.inodes.charges q.inodes inodeDelta now, c.Seen ∨ c.Phantom := by
    simp only [QuotaTracker.charges, List.mem_append, or_and_right, exists_or]
  rw [hsplit, ← hb, ← hi]
  rw [QuotaTracker.reserve_eq]
  split
  · rename_i h
    simp [h]
  · rename_i h
    split <;> rename_i h' <;> simp [h, h']

lemma reserve_rejected_keeps {bytesDelta inodeDelta : Int64} {now : Nat}
    (h : (q.reserve bytesDelta inodeDelta now).1 ≠ .ok ()) :
    (q.reserve bytesDelta inodeDelta now).2.bytes = q.bytes ∧
      (q.reserve bytesDelta inodeDelta now).2.inodes = q.inodes := by
  rw [QuotaTracker.reserve_eq] at h ⊢
  split
  · exact ⟨rfl, rfl⟩
  rename_i hb
  split
  · exact ⟨rfl, rfl⟩
  · rename_i hi
    simp [hb, hi] at h

/-- **`reserve` is exact just where its comparison is meaningful.** The two verdicts
are `Seen ∨ Phantom` and `Seen ∨ Hidden` over the same charges. -/
theorem reserve_exact_iff (q : QuotaTracker) (hq : q.limits.Accepted)
    (bytesDelta inodeDelta : Int64)
    (now : Nat) : q.Exact bytesDelta inodeDelta now ↔ q.Comparable bytesDelta inodeDelta now := by
  unfold QuotaTracker.Exact QuotaTracker.Comparable
  rw [and_iff_left reserve_rejected_keeps, reserve_rejects_iff hq]
  simp only [Charge.passes_iff, and_or_left, exists_or]
  by_cases hseen : ∃ c ∈ q.charges bytesDelta inodeDelta now, c.Seen
  · simp only [hseen, true_or]
  · simp only [hseen, false_or]
    exact Iff.comm

/-- All eight inodes are in use: the page of another file is charged and taken back. -/
theorem reserve_exact_full :
    let q := QuotaTracker.new 0 8 ⟨⟨some (2 ^ 30), none, none⟩, ⟨some 8, none, none⟩⟩
    q.Exact 4096 1 0 ∧ q.reserve 4096 1 0 = (.error .quotaExceeded, q.rejected) := by
  intro q
  have hmem : ⟨8, 9⟩ ∈ q.charges 4096 1 0 := List.mem_cons_of_mem _ (List.mem_cons_self ..)
  have hseen : ∃ c ∈ q.charges 4096 1 0, c.Seen := ⟨_, hmem, by decide, by decide⟩
  exact ⟨(reserve_exact_iff q ⟨by decide, by decide, by decide⟩ _ _ _).mpr (.inl hseen), by decide⟩

/-- **A hard limit of `2 ^ 63` rejects the first byte**: it passes validation and reads
as `-2 ^ 63`. -/
theorem huge_limit_rejects :
    (⟨⟨some (2 ^ 63), none, none⟩, {}⟩ : QuotaLimits).Accepted ∧
      ¬ (QuotaTracker.new 0 0 ⟨⟨some (2 ^ 63), none, none⟩, {}⟩).Exact 1 0 0 := by
  refine ⟨⟨by decide, by decide, rfl⟩, fun h => ?_⟩
  have hrej :
      ((QuotaTracker.new 0 0 ⟨⟨some (2 ^ 63), none, none⟩, {}⟩).reserve 1 0 0).1 ≠ .ok () := by
    decide
  obtain ⟨c, hc, hlt⟩ := h.1.mp hrej
  have hc' : c = ⟨2 ^ 63, 1⟩ := by
    simpa [QuotaTracker.charges, QuotaLimit.charges, QuotaLimit.inForce, QuotaTracker.new] using hc
  subst hc'
  revert hlt
  decide

end SlateFs
