import SlateFs.Lib.OrdMap

/-!
# Reading a store family by family

A store keeps records of several families under keys of one type. A pass over it collects one
family: `parse` says whether a key belongs to the family and what the record is called, `decode`
reads the value. A later record of the same name takes the place of an earlier one, so the pass
gives the records under the keys of the family if no other key is taken for one.
-/

namespace Families

variable {τ β κ α ι : Type} [LinearOrder κ]

/-- Collect a family; a value that does not decode fails the pass. -/
def collect (parse : τ → Option κ) (decode : β → Option α) :
    List (τ × β) → OrdMap κ α → Option (OrdMap κ α)
  | [], m => some m
  | (key, value) :: rest, m =>
    match parse key with
    | none => collect parse decode rest m
    | some name => (decode value).bind fun a => collect parse decode rest (m.insert name a)

/-- A map holds the records that a store has under the keys of a family. -/
structure Holds [LinearOrder τ] (store : OrdMap τ β) (key : ι → τ) (name : ι → κ)
    (decode : β → Option α)
    (m : OrdMap κ α) : Prop where
  found : ∀ i, m.get? (name i) = (store.get? (key i)).bind decode
  named : ∀ k, (m.get? k).isSome → ∃ i, k = name i

variable {parse : τ → Option κ} {decode : β → Option α} {kvs : List (τ × β)} {m₀ m : OrdMap κ α}
  {k : κ}

lemma collect_get?_of_ne (h : collect parse decode kvs m₀ = some m)
    (hne : ∀ e ∈ kvs, parse e.1 ≠ some k) : m.get? k = m₀.get? k := by
  induction kvs generalizing m₀ with
  | nil => cases h; rfl
  | cons e rest ih =>
    obtain ⟨hfirst, hrest⟩ := List.forall_mem_cons.mp hne
    unfold collect at h
    split at h
    · exact ih h hrest
    · rename_i name hname
      obtain ⟨a, -, h⟩ := Option.bind_eq_some_iff.mp h
      have hother : k ≠ name := fun heq => hfirst (heq ▸ hname)
      rw [ih h hrest, OrdMap.get?_insert_of_ne _ _ hother]

lemma collect_get?_of_mem (h : collect parse decode kvs m₀ = some m) {e : τ × β} (he : e ∈ kvs)
    (hk : parse e.1 = some k) (honly : ∀ e' ∈ kvs, parse e'.1 = some k → e' = e) :
    ∃ a, decode e.2 = some a ∧ m.get? k = some a := by
  induction kvs generalizing m₀ with
  | nil => cases he
  | cons e₀ rest ih =>
    obtain ⟨hfirst, hrest⟩ := List.forall_mem_cons.mp honly
    by_cases hlater : e ∈ rest
    · unfold collect at h
      split at h
      · exact ih h hlater hrest
      · obtain ⟨_, -, h⟩ := Option.bind_eq_some_iff.mp h
        exact ih h hlater hrest
    -- the record is the first one, and nothing behind it has its name
    obtain rfl : e = e₀ := (List.mem_cons.mp he).resolve_right hlater
    unfold collect at h
    rw [hk] at h
    obtain ⟨a, ha, h⟩ := Option.bind_eq_some_iff.mp h
    refine ⟨a, ha, ?_⟩
    rw [collect_get?_of_ne h fun e' he' hk' => hlater (hrest e' he' hk' ▸ he'),
      OrdMap.get?_insert_self]

variable [LinearOrder τ] {store : OrdMap τ β} {key : ι → τ} {name : ι → κ}

/-- **A pass collects the family**, if its keys are parsed as they should be and no other key of
the store is parsed at all. -/
theorem holds_of_collect (h : collect parse decode store.entries ∅ = some m)
    (hname : Function.Injective name) (hparse : ∀ i, parse (key i) = some (name i))
    (hkey : ∀ t v, store.get? t = some v → ∀ k, parse t = some k → ∃ i, t = key i ∧ k = name i) :
    Holds store key name decode m := by
  have hback : ∀ e ∈ store.entries, ∀ k, parse e.1 = some k → ∃ i, e.1 = key i ∧ k = name i :=
    fun e he => hkey e.1 e.2 (OrdMap.mem_entries.mp he)
  refine ⟨fun i => ?_, fun k hsome => ?_⟩
  · cases hget : store.get? (key i) with
    | some v =>
      have hmem : (key i, v) ∈ store.entries := OrdMap.mem_entries.mpr hget
      obtain ⟨a, ha, hfound⟩ := collect_get?_of_mem h hmem (hparse i) fun e' he' hk' => by
        obtain ⟨j, hj, hn⟩ := hback e' he' _ hk'
        obtain rfl := hname hn
        have hval := OrdMap.mem_entries.mp (show (key i, e'.2) ∈ store.entries from hj ▸ he')
        exact Prod.ext hj (Option.some.inj (hval.symm.trans hget))
      rw [hfound, Option.bind_some, ha]
    | none =>
      rw [collect_get?_of_ne h fun e he hk => ?_]
      · rfl
      · obtain ⟨j, hj, hn⟩ := hback e he _ hk
        obtain rfl := hname hn
        have hval := OrdMap.mem_entries.mp (show (key i, e.2) ∈ store.entries from hj ▸ he)
        exact absurd (hval.symm.trans hget) nofun
  · by_contra hno
    rw [collect_get?_of_ne h fun e he hk => hno ((hback e he k hk).imp fun _ h => h.2)] at hsome
    cases hsome

end Families
