import SlateFs.Lib.OrdMap

/-!
# Edits of finite maps

Two finite maps differ at finitely many keys, and a batch of mutations turns one map
into another. A diff lists the differing keys once each, in key order; in a batch the
last mutation of a key wins. Both are described by what they say about a single key,
which is all that planning an edit ever needs.
-/

namespace OrdMap

variable {κ α : Type}

/-! ## Batches -/

/-- A change of one binding. -/
inductive Mutation (κ α : Type) where
  | upsert (key : κ) (val : α)
  | delete (key : κ)
  deriving DecidableEq, Repr

def Mutation.key : Mutation κ α → κ
  | upsert k _ => k
  | delete k => k

/-- The binding that a mutation leaves behind. -/
def Mutation.result : Mutation κ α → Option α
  | upsert _ v => some v
  | delete _ => none

/-- The mutation that leaves a given binding behind. -/
def Mutation.of (k : κ) : Option α → Mutation κ α
  | some v => upsert k v
  | none => delete k

@[simp] lemma Mutation.key_of (k : κ) (v : Option α) : (Mutation.of k v).key = k := by
  cases v <;> rfl

@[simp] lemma Mutation.result_of (k : κ) (v : Option α) : (Mutation.of k v).result = v := by
  cases v <;> rfl

section

variable [LinearOrder κ]

def mutate (m : OrdMap κ α) : Mutation κ α → OrdMap κ α
  | .upsert k v => m.insert k v
  | .delete k => m.erase k

lemma get?_mutate (m : OrdMap κ α) (mu : Mutation κ α) (k : κ) :
    (m.mutate mu).get? k = if k = mu.key then mu.result else m.get? k := by
  cases mu with
  | upsert k' v => rw [mutate, get?_insert]; rfl
  | delete k' => rw [mutate, get?_erase]; rfl

/-- Apply mutations one after the other. -/
def batch (m : OrdMap κ α) (ms : List (Mutation κ α)) : OrdMap κ α := ms.foldl mutate m

lemma batch_cons (m : OrdMap κ α) (mu : Mutation κ α) (ms : List (Mutation κ α)) :
    m.batch (mu :: ms) = (m.mutate mu).batch ms := rfl

variable {ms : List (Mutation κ α)} {k : κ} {es : List (κ × α)} {v : α}

lemma get?_batch_of_not_mem :
    ∀ {m : OrdMap κ α}, (∀ mu ∈ ms, mu.key ≠ k) → (m.batch ms).get? k = m.get? k := by
  induction ms with
  | nil => exact fun _ => rfl
  | cons mu ms ih =>
    intro m h
    rw [batch_cons, ih fun mu' hmu' => h mu' (List.mem_cons_of_mem _ hmu'), get?_mutate,
      if_neg (h mu List.mem_cons_self).symm]

/-- A key on whose result all its mutations agree is left with that result. -/
lemma get?_batch_of_mem {v : Option α} :
    ∀ {m : OrdMap κ α}, (∃ mu ∈ ms, mu.key = k) → (∀ mu ∈ ms, mu.key = k → mu.result = v) →
      (m.batch ms).get? k = v := by
  induction ms with
  | nil =>
    rintro m ⟨mu, hmu, -⟩
    cases hmu
  | cons mu ms ih =>
    rintro m ⟨mu', hmem, hkey⟩ hall
    rw [batch_cons]
    have hrest : ∀ mu ∈ ms, mu.key = k → mu.result = v :=
      fun mu hmu => hall mu (List.mem_cons_of_mem _ hmu)
    by_cases hlater : ∃ mu ∈ ms, mu.key = k
    · exact ih hlater hrest
    -- the head is the last mutation of the key
    have hnone : ∀ mu ∈ ms, mu.key ≠ k := fun mu hmu hk => hlater ⟨mu, hmu, hk⟩
    have hhead : mu' = mu := by
      rcases List.mem_cons.mp hmem with h | h
      · exact h
      · exact absurd hkey (hnone mu' h)
    subst hhead
    rw [get?_batch_of_not_mem hnone, get?_mutate, if_pos hkey.symm,
      hall mu' List.mem_cons_self hkey]

lemma insertAll_eq_batch (m : OrdMap κ α) (es : List (κ × α)) :
    m.insertAll es = m.batch (es.map fun e => .upsert e.1 e.2) := by
  unfold insertAll batch
  rw [List.foldl_map]
  rfl

/-- A key on whose value all its bindings agree is bound to it. -/
lemma get?_insertAll_of_agree (m : OrdMap κ α) (hmem : ∃ e ∈ es, e.1 = k)
    (hall : ∀ e ∈ es, e.1 = k → e.2 = v) :
    (m.insertAll es).get? k = some v := by
  rw [insertAll_eq_batch]
  refine get?_batch_of_mem ?_ ?_
  · obtain ⟨e, he, hk⟩ := hmem
    exact ⟨_, List.mem_map_of_mem he, hk⟩
  · intro mu hmu hk
    obtain ⟨e, he, rfl⟩ := List.mem_map.mp hmu
    exact congrArg some (hall e he hk)

lemma mem_of_get?_insertAll : ∀ {m : OrdMap κ α},
    (m.insertAll es).get? k = some v → m.get? k = some v ∨ (k, v) ∈ es := by
  induction es with
  | nil => exact fun h => .inl h
  | cons e es ih =>
    intro m h
    rcases ih h with h | h
    · rw [get?_insert] at h
      split at h
      · rename_i hk
        cases h
        exact .inr (hk ▸ List.mem_cons_self ..)
      · exact .inl h
    · exact .inr (List.mem_cons_of_mem _ h)

lemma not_mem_keys {m : OrdMap κ α} (h : m.get? k = none) : k ∉ m.entries.map Prod.fst := by
  intro hmem
  obtain ⟨e, he, rfl⟩ := List.mem_map.mp hmem
  rw [mem_entries.mp he] at h
  cases h

lemma insertAll_entries (m : OrdMap κ α) : insertAll ∅ m.entries = m := by
  refine ext fun k => ?_
  cases hk : m.get? k with
  | some v => exact get?_insertAll_of_mem ∅ m.nodup_keys (mem_entries.mpr hk)
  | none => rw [get?_insertAll_of_not_mem ∅ (not_mem_keys hk), get?_empty]

/-- Two maps agree on the keys they share. -/
def Agree (m n : OrdMap κ α) : Prop := ∀ k v w, m.get? k = some v → n.get? k = some w → v = w

/-- Bindings of which no two disagree are all there. -/
lemma get?_insertAll_iff (hagree : ∀ e ∈ es, ∀ e' ∈ es, e.1 = e'.1 → e.2 = e'.2) :
    ((∅ : OrdMap κ α).insertAll es).get? k = some v ↔ (k, v) ∈ es := by
  constructor
  · intro h
    exact (mem_of_get?_insertAll h).resolve_left nofun
  · intro h
    exact get?_insertAll_of_agree _ ⟨_, h, rfl⟩ fun e he hk => hagree e he _ h hk

lemma get?_insertAll_entries {m n : OrdMap κ α} (h : Agree m n) :
    (m.insertAll n.entries).get? k = some v ↔ m.get? k = some v ∨ n.get? k = some v := by
  constructor
  · intro hk
    exact (mem_of_get?_insertAll hk).imp_right mem_entries.mp
  intro hk
  cases hn : n.get? k with
  | none =>
    rw [get?_insertAll_of_not_mem m (not_mem_keys hn)]
    exact hk.resolve_right (by rw [hn]; nofun)
  | some w =>
    rw [get?_insertAll_of_mem m n.nodup_keys (mem_entries.mpr hn)]
    rcases hk with hk | hk
    · rw [h k v w hk hn]
    · rw [← hk, hn]

lemma get?_batch_entries (m : OrdMap κ α) (changes : OrdMap κ (Option α)) (k : κ) :
    (m.batch (changes.entries.map fun e => .of e.1 e.2)).get? k =
      (changes.get? k).getD (m.get? k) := by
  cases hc : changes.get? k with
  | none =>
    refine get?_batch_of_not_mem ?_
    intro mu hmu hk
    obtain ⟨e, he, rfl⟩ := List.mem_map.mp hmu
    rw [Mutation.key_of] at hk
    rw [← hk, mem_entries.mp he] at hc
    cases hc
  | some v =>
    refine get?_batch_of_mem ?_ ?_
    · exact ⟨_, List.mem_map_of_mem (mem_entries.mpr hc), Mutation.key_of ..⟩
    intro mu hmu hk
    obtain ⟨e, he, rfl⟩ := List.mem_map.mp hmu
    rw [Mutation.key_of] at hk
    rw [Mutation.result_of]
    rw [← hk, mem_entries.mp he] at hc
    exact Option.some.inj hc

end

/-! ## Diffs -/

/-- How two maps differ at a key. -/
inductive Diff (κ α : Type) where
  | added (key : κ) (val : α)
  | removed (key : κ) (val : α)
  | changed (key : κ) (old new : α)
  deriving DecidableEq, Repr

def Diff.key : Diff κ α → κ
  | added k _ => k
  | removed k _ => k
  | changed k _ _ => k

/-- What the second map binds the key to. -/
def Diff.result : Diff κ α → Option α
  | added _ v => some v
  | removed _ _ => none
  | changed _ _ v => some v

section

variable [DecidableEq α]

/-- The difference between two bindings of a key. -/
def Diff.between (k : κ) : Option α → Option α → Option (Diff κ α)
  | none, none => none
  | none, some v => some (.added k v)
  | some v, none => some (.removed k v)
  | some v, some w => if v = w then none else some (.changed k v w)

lemma Diff.between_isSome {k : κ} {v w : Option α} :
    (∃ d, Diff.between k v w = some d) ↔ v ≠ w := by
  cases v <;> cases w
  · simp [Diff.between]
  · simp [Diff.between]
  · simp [Diff.between]
  · rename_i v w
    by_cases h : v = w <;> simp [Diff.between, h]

lemma Diff.between_spec {k : κ} {v w : Option α} {d : Diff κ α}
    (h : Diff.between k v w = some d) : d.key = k ∧ d.result = w := by
  cases v <;> cases w <;> simp only [Diff.between] at h
  · cases h
  · cases h
    exact ⟨rfl, rfl⟩
  · cases h
    exact ⟨rfl, rfl⟩
  · split at h
    · cases h
    · cases h
      exact ⟨rfl, rfl⟩

lemma Diff.between_key (k : κ) (v w : Option α) :
    (Diff.between k v w).map Diff.key = if v ≠ w then some k else none := by
  cases h : Diff.between k v w with
  | none =>
    have : ¬ v ≠ w := fun hne => by
      obtain ⟨d, hd⟩ := Diff.between_isSome.mpr hne
      rw [h] at hd
      cases hd
    rw [if_neg this, Option.map_none]
  | some d =>
    rw [if_pos (Diff.between_isSome.mp ⟨d, h⟩), Option.map_some, (Diff.between_spec h).1]

end

variable [LinearOrder κ]

/-- The keys bound by one of two maps, in order. -/
def unionKeys (m n : OrdMap κ α) : List κ := (m.insertAll n.entries).entries.map Prod.fst

lemma mem_unionKeys {m n : OrdMap κ α} {k : κ} (h : m.get? k ≠ n.get? k) : k ∈ unionKeys m n := by
  suffices ∃ v, (m.insertAll n.entries).get? k = some v by
    obtain ⟨v, hv⟩ := this
    exact List.mem_map.mpr ⟨(k, v), mem_entries.mpr hv, rfl⟩
  cases hn : n.get? k with
  | some v => exact ⟨v, get?_insertAll_of_mem m n.nodup_keys (mem_entries.mpr hn)⟩
  | none =>
    rw [get?_insertAll_of_not_mem m (not_mem_keys hn)]
    exact Option.ne_none_iff_exists'.mp (hn ▸ h)

variable [DecidableEq α]

/-- The differences between two maps, in key order. -/
def diff (m n : OrdMap κ α) : List (Diff κ α) :=
  (unionKeys m n).filterMap fun k => Diff.between k (m.get? k) (n.get? k)

variable {m n : OrdMap κ α}

lemma diff_spec {d : Diff κ α} (h : d ∈ diff m n) :
    m.get? d.key ≠ n.get? d.key ∧ d.result = n.get? d.key := by
  obtain ⟨k, -, hd⟩ := List.mem_filterMap.mp h
  obtain ⟨hk, hr⟩ := Diff.between_spec hd
  rw [hk]
  exact ⟨Diff.between_isSome.mp ⟨d, hd⟩, hr⟩

/-- **A diff lists just the keys at which the maps differ.** -/
theorem exists_diff {k : κ} : (∃ d ∈ diff m n, d.key = k) ↔ m.get? k ≠ n.get? k := by
  constructor
  · rintro ⟨d, hd, rfl⟩
    exact (diff_spec hd).1
  · intro h
    obtain ⟨d, hd⟩ := Diff.between_isSome.mpr h
    exact ⟨d, List.mem_filterMap.mpr ⟨k, mem_unionKeys h, hd⟩, (Diff.between_spec hd).1⟩

/-- The differences at some keys, applied to a map. -/
lemma get?_batch_diff (l : OrdMap κ α) (q : κ → Bool) (k : κ) :
    (l.batch (((diff m n).filter fun d => q d.key).map fun d => .of d.key d.result)).get? k =
      if m.get? k ≠ n.get? k ∧ q k = true then n.get? k else l.get? k := by
  split
  · rename_i h
    obtain ⟨d, hd, rfl⟩ := exists_diff.mpr h.1
    have hmem : .of d.key d.result ∈ ((diff m n).filter fun d => q d.key).map fun d =>
        Mutation.of d.key d.result := List.mem_map_of_mem (List.mem_filter.mpr ⟨hd, h.2⟩)
    refine get?_batch_of_mem ⟨_, hmem, Mutation.key_of ..⟩ fun mu hmu hkey => ?_
    obtain ⟨d', hd', rfl⟩ := List.mem_map.mp hmu
    rw [Mutation.key_of] at hkey
    rw [Mutation.result_of, (diff_spec (List.mem_filter.mp hd').1).2, hkey]
  · rename_i h
    refine get?_batch_of_not_mem fun mu hmu hkey => ?_
    obtain ⟨d, hd, rfl⟩ := List.mem_map.mp hmu
    rw [Mutation.key_of] at hkey
    subst hkey
    obtain ⟨hd, hq⟩ := List.mem_filter.mp hd
    exact h ⟨(diff_spec hd).1, hq⟩

lemma diff_sorted : ((diff m n).map Diff.key).Pairwise (· < ·) := by
  have hkeys : (diff m n).map Diff.key = (unionKeys m n).filter fun k => m.get? k ≠ n.get? k := by
    rw [diff, List.map_filterMap, ← List.filterMap_eq_filter]
    refine List.filterMap_congr fun k _ => ?_
    rw [Diff.between_key, Option.guard_apply]
    simp only [decide_eq_true_eq]
  rw [hkeys]
  exact (List.pairwise_map.mpr (m.insertAll n.entries).sorted).filter _

end OrdMap
