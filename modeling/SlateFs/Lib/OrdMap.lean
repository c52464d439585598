import Mathlib.Algebra.BigOperators.Group.Finset.Basic
import Mathlib.Algebra.BigOperators.Group.List.Basic
import Mathlib.Data.List.Perm.Basic
import Mathlib.Data.List.Nodup
import Mathlib.Data.List.Sort
import Mathlib.Order.Basic
import Mathlib.Tactic.Abel
import Mathlib.Tactic.Linarith

/-!
# Ordered finite maps

A finite map whose entries are kept in strictly increasing key order. This is
what an ordered key/value engine stores: point reads, point writes and range
scans that come back in key order.

The order is carried as a field, so two maps with the same bindings are equal.
That is what turns "the store is as it was before" into an equation.

Totals over the entries are the second half of the file: `sum_update` says how a
total moves when some keys change, which is all an accounting argument ever
needs.
-/

/-- A finite map with entries in strictly increasing key order. -/
structure OrdMap (κ α : Type) [LinearOrder κ] where
  /-- The bindings. -/
  entries : List (κ × α)
  /-- In strictly increasing key order, so no key is bound twice. -/
  sorted : entries.Pairwise (fun a b => a.1 < b.1)

namespace OrdMap

variable {κ α : Type} [LinearOrder κ]

/-- The map with no bindings. -/
def empty : OrdMap κ α := ⟨[], List.Pairwise.nil⟩

instance : EmptyCollection (OrdMap κ α) := ⟨empty⟩

instance [DecidableEq α] : DecidableEq (OrdMap κ α) := fun m n =>
  decidable_of_iff (m.entries = n.entries) (by cases m; cases n; simp)

/-- The value bound to a key. -/
def get? (m : OrdMap κ α) (k : κ) : Option α :=
  (m.entries.find? (fun e => e.1 = k)).map Prod.snd

/-- Put a binding into a sorted list, replacing one with the same key. -/
def insertList (k : κ) (v : α) : List (κ × α) → List (κ × α)
  | [] => [(k, v)]
  | e :: es =>
    if k < e.1 then (k, v) :: e :: es
    else if k = e.1 then (k, v) :: es
    else e :: insertList k v es

lemma mem_insertList {k : κ} {v : α} {x : κ × α} :
    ∀ {es : List (κ × α)}, x ∈ insertList k v es → x = (k, v) ∨ x ∈ es
  | [], h => .inl (by simpa [insertList] using h)
  | e :: es, h => by
    rw [insertList] at h
    split at h
    · simpa using h
    split at h
    · rcases List.mem_cons.mp h with h | h
      · exact .inl h
      · exact .inr (List.mem_cons_of_mem _ h)
    · rcases List.mem_cons.mp h with h | h
      · exact .inr (h ▸ List.mem_cons_self ..)
      rcases mem_insertList h with h | h
      · exact .inl h
      · exact .inr (List.mem_cons_of_mem _ h)

lemma insertList_sorted {k : κ} {v : α} :
    ∀ {es : List (κ × α)}, es.Pairwise (fun a b => a.1 < b.1) →
      (insertList k v es).Pairwise (fun a b => a.1 < b.1)
  | [], _ => by simp [insertList]
  | e :: es, h => by
    obtain ⟨hhd, htl⟩ := List.pairwise_cons.mp h
    rw [insertList]
    split
    · rename_i hlt
      refine List.pairwise_cons.mpr ⟨?_, h⟩
      intro x hx
      rcases List.mem_cons.mp hx with rfl | hx
      · exact hlt
      · exact lt_trans hlt (hhd x hx)
    · split
      · rename_i heq
        refine List.pairwise_cons.mpr ⟨?_, htl⟩
        intro x hx
        have := hhd x hx
        rwa [← heq] at this
      · rename_i hnlt hne
        refine List.pairwise_cons.mpr ⟨?_, insertList_sorted htl⟩
        intro x hx
        rcases mem_insertList hx with rfl | hx
        · exact lt_of_le_of_ne (not_lt.mp hnlt) (Ne.symm hne)
        · exact hhd x hx

/-- Bind a key to a value. -/
def insert (m : OrdMap κ α) (k : κ) (v : α) : OrdMap κ α :=
  ⟨insertList k v m.entries, insertList_sorted m.sorted⟩

/-- Drop a key's binding, if it has one. -/
def erase (m : OrdMap κ α) (k : κ) : OrdMap κ α :=
  ⟨m.entries.filter (fun e => e.1 ≠ k), m.sorted.filter _⟩

/-- The bindings whose key satisfies `p`, in key order. -/
def scan (m : OrdMap κ α) (p : κ → Bool) : List (κ × α) :=
  m.entries.filter (fun e => p e.1)

/-! ## Bindings and membership -/

lemma nodup (m : OrdMap κ α) : m.entries.Nodup :=
  m.sorted.imp (fun h he => absurd (he ▸ h) (lt_irrefl _))

variable {m : OrdMap κ α} {k k' : κ} {v : α} {p : κ → α → Bool} {es : List (κ × α)}

lemma eq_of_mem_of_key {x y : κ × α} (hx : x ∈ m.entries) (hy : y ∈ m.entries) (h : x.1 = y.1) :
    x = y := by
  have hnd : (m.entries.map Prod.fst).Nodup :=
    List.pairwise_map.mpr (m.sorted.imp fun hlt => ne_of_lt hlt)
  exact List.inj_on_of_nodup_map hnd hx hy h

lemma mem_entries : (k, v) ∈ m.entries ↔ m.get? k = some v := by
  unfold get?
  constructor
  · intro h
    cases hf : m.entries.find? (fun e => e.1 = k) with
    | none =>
      have := List.find?_eq_none.mp hf _ h
      simp at this
    | some e =>
      have hk : e.1 = k := by simpa using List.find?_some hf
      have := eq_of_mem_of_key (List.mem_of_find?_eq_some hf) h hk
      rw [this]; rfl
  · intro h
    obtain ⟨e, he, rfl⟩ := Option.map_eq_some_iff.mp h
    have hk : e.1 = k := by simpa using List.find?_some he
    rw [← hk]
    exact List.mem_of_find?_eq_some he

@[simp] lemma get?_empty (k : κ) : (∅ : OrdMap κ α).get? k = none := rfl

lemma eq_empty_of_entries (h : m.entries = []) : m = ∅ := by
  obtain ⟨es, hs⟩ := m
  obtain rfl : es = [] := h
  rfl

/-- Two maps with the same bindings are the same map. -/
@[ext] lemma ext {n : OrdMap κ α} (h : ∀ k, m.get? k = n.get? k) : m = n := by
  have hp : m.entries.Perm n.entries := by
    rw [List.perm_ext_iff_of_nodup m.nodup n.nodup]
    rintro ⟨k, v⟩
    rw [mem_entries, mem_entries, h]
  have := hp.eq_of_pairwise
    (fun a b _ _ h1 h2 => absurd (lt_trans h1 h2) (lt_irrefl _)) m.sorted n.sorted
  cases m; cases n; simpa using this

lemma mem_insert_entries {v' : α} :
    (k', v') ∈ (m.insert k v).entries ↔ (k' = k ∧ v' = v) ∨ (k' ≠ k ∧ (k', v') ∈ m.entries) := by
  have key : ∀ es : List (κ × α), es.Pairwise (fun a b => a.1 < b.1) →
      ((k', v') ∈ insertList k v es ↔ (k' = k ∧ v' = v) ∨ (k' ≠ k ∧ (k', v') ∈ es)) := by
    intro es
    induction es with
    | nil => intro _; simp [insertList]
    | cons e es ih =>
      intro hs
      obtain ⟨hhd, htl⟩ := List.pairwise_cons.mp hs
      rw [insertList]
      split
      · rename_i hlt
        have hne : ∀ x ∈ e :: es, x.1 ≠ k := by
          intro x hx he
          rcases List.mem_cons.mp hx with rfl | hx
          · exact absurd (he ▸ hlt) (lt_irrefl _)
          · exact absurd (lt_trans (he ▸ hlt) (hhd x hx)) (lt_irrefl _)
        constructor
        · intro h
          rcases List.mem_cons.mp h with h | h
          · exact .inl (by simpa using h)
          · exact .inr ⟨hne _ h, h⟩
        · rintro (⟨rfl, rfl⟩ | ⟨_, h⟩)
          · exact List.mem_cons_self ..
          · exact List.mem_cons_of_mem _ h
      · split
        · rename_i heq
          constructor
          · intro h
            rcases List.mem_cons.mp h with h | h
            · exact .inl (by simpa using h)
            refine .inr ⟨?_, List.mem_cons_of_mem _ h⟩
            intro he
            have := hhd _ h
            rw [← heq] at this
            exact absurd (he ▸ this) (lt_irrefl _)
          · rintro (⟨rfl, rfl⟩ | ⟨hk, h⟩)
            · exact List.mem_cons_self ..
            rcases List.mem_cons.mp h with h | h
            · exact absurd (by rw [← h] at heq; exact heq.symm) hk
            · exact List.mem_cons_of_mem _ h
        · rename_i hne
          rw [List.mem_cons, List.mem_cons, ih htl]
          constructor
          · rintro (rfl | h | h)
            · exact .inr ⟨fun he => hne he.symm, .inl rfl⟩
            · exact .inl h
            · exact .inr ⟨h.1, .inr h.2⟩
          · rintro (h | ⟨h, rfl | h'⟩)
            · exact .inr (.inl h)
            · exact .inl rfl
            · exact .inr (.inr ⟨h, h'⟩)
  exact key m.entries m.sorted

lemma get?_insert (m : OrdMap κ α) (k k' : κ) (v : α) :
    (m.insert k v).get? k' = if k' = k then some v else m.get? k' := by
  ext v'
  rw [← mem_entries, mem_insert_entries, mem_entries]
  split
  · rename_i h; simp [h, eq_comm]
  · rename_i h; simp [h]

@[simp] lemma get?_insert_self (m : OrdMap κ α) (k : κ) (v : α) :
    (m.insert k v).get? k = some v := by rw [get?_insert, if_pos rfl]

lemma get?_insert_of_ne (m : OrdMap κ α) (v : α) (h : k' ≠ k) :
    (m.insert k v).get? k' = m.get? k' := by rw [get?_insert, if_neg h]

lemma of_get?_insert {x : α} (h : (m.insert k v).get? k' = some x) :
    k' = k ∧ v = x ∨ m.get? k' = some x := by
  rw [get?_insert] at h
  split at h
  · exact .inl ⟨‹_›, Option.some.inj h⟩
  · exact .inr h

lemma insert_eq_self (h : m.get? k = some v) : m.insert k v = m := by
  ext k'
  rw [get?_insert]
  split
  · rename_i hk; rw [hk, h]
  · rfl

lemma get?_erase (m : OrdMap κ α) (k k' : κ) :
    (m.erase k).get? k' = if k' = k then none else m.get? k' := by
  ext v'
  rw [← mem_entries, erase, List.mem_filter, mem_entries]
  split
  · rename_i h; simp [h]
  · rename_i h; simp [h]

@[simp] lemma get?_erase_self (m : OrdMap κ α) (k : κ) : (m.erase k).get? k = none := by
  rw [get?_erase, if_pos rfl]

lemma get?_of_get?_erase {x : α} (h : (m.erase k).get? k' = some x) : m.get? k' = some x := by
  rw [get?_erase] at h
  split at h
  · cases h
  · exact h

lemma get?_erase_of_ne (m : OrdMap κ α) (h : k' ≠ k) : (m.erase k).get? k' = m.get? k' := by
  rw [get?_erase, if_neg h]

/-! ## Scans -/

lemma mem_scan {p : κ → Bool} : (k, v) ∈ m.scan p ↔ m.get? k = some v ∧ p k = true := by
  rw [scan, List.mem_filter, mem_entries]

lemma scan_sorted (m : OrdMap κ α) (p : κ → Bool) :
    (m.scan p).Pairwise (fun a b => a.1 < b.1) := m.sorted.filter _

/-- A scan that comes back empty says no key in the range is bound. -/
lemma scan_eq_nil {p : κ → Bool} : m.scan p = [] ↔ ∀ k, p k = true → m.get? k = none := by
  constructor
  · intro h k hk
    cases hg : m.get? k with
    | none => rfl
    | some v =>
      have := mem_scan.mpr ⟨hg, hk⟩
      rw [h] at this
      exact absurd this (by simp)
  · intro h
    refine List.eq_nil_iff_forall_not_mem.mpr ?_
    rintro ⟨k, v⟩ hx
    obtain ⟨h1, h2⟩ := mem_scan.mp hx
    rw [h k h2] at h1
    exact absurd h1 (by simp)

/-- The bindings whose key satisfies `p`, as a map. -/
def filter (m : OrdMap κ α) (p : κ → Bool) : OrdMap κ α := ⟨m.scan p, m.scan_sorted p⟩

lemma get?_filter (m : OrdMap κ α) (p : κ → Bool) (k : κ) :
    (m.filter p).get? k = if p k then m.get? k else none := by
  ext v
  rw [← mem_entries, filter, mem_scan]
  split <;> simp_all

/-- Drop several keys. -/
def eraseAll (m : OrdMap κ α) (ks : List κ) : OrdMap κ α := ks.foldl erase m

lemma get?_eraseAll (m : OrdMap κ α) (ks : List κ) (k : κ) :
    (m.eraseAll ks).get? k = if k ∈ ks then none else m.get? k := by
  induction ks generalizing m with
  | nil => rfl
  | cons k' ks ih =>
    rw [show m.eraseAll (k' :: ks) = (m.erase k').eraseAll ks from rfl, ih, get?_erase]
    by_cases h : k = k' <;> simp [h]

/-- Bind several keys, the last binding of a key winning. -/
def insertAll (m : OrdMap κ α) (es : List (κ × α)) : OrdMap κ α :=
  es.foldl (fun m e => m.insert e.1 e.2) m

lemma get?_insertAll_of_not_mem (m : OrdMap κ α) (h : k ∉ es.map Prod.fst) :
    (m.insertAll es).get? k = m.get? k := by
  induction es generalizing m with
  | nil => rfl
  | cons e es ih =>
    rw [List.map_cons, List.mem_cons, not_or] at h
    rw [show m.insertAll (e :: es) = (m.insert e.1 e.2).insertAll es from rfl, ih _ h.2,
      get?_insert_of_ne _ _ h.1]

lemma get?_insertAll_of_mem (m : OrdMap κ α) (hnd : (es.map Prod.fst).Nodup) (h : (k, v) ∈ es) :
    (m.insertAll es).get? k = some v := by
  induction es generalizing m with
  | nil => cases h
  | cons e es ih =>
    rw [List.map_cons, List.nodup_cons] at hnd
    rw [show m.insertAll (e :: es) = (m.insert e.1 e.2).insertAll es from rfl]
    rcases List.mem_cons.mp h with rfl | h
    · rw [get?_insertAll_of_not_mem _ hnd.1, get?_insert_self]
    · exact ih _ hnd.2 h

/-- Dropping keys outside a filter does not change what the filter keeps. -/
lemma filter_eraseAll {ks : List κ} {p : κ → Bool} (h : ∀ k ∈ ks, p k = false) :
    (m.eraseAll ks).filter p = m.filter p := by
  ext k
  rw [get?_filter, get?_filter, get?_eraseAll]
  by_cases hk : k ∈ ks
  · simp [h k hk]
  · simp [hk]

/-- Dropping every key a scan found leaves what the scan passed over. -/
lemma eraseAll_scan (m : OrdMap κ α) (p : κ → Bool) :
    m.eraseAll ((m.scan p).map Prod.fst) = m.filter (fun k => !p k) := by
  ext k
  rw [get?_eraseAll, get?_filter]
  cases hg : m.get? k with
  | none => simp
  | some v =>
    cases hp : p k with
    | true =>
      have : k ∈ (m.scan p).map Prod.fst :=
        List.mem_map.mpr ⟨(k, v), mem_scan.mpr ⟨hg, hp⟩, rfl⟩
      simp [this]
    | false =>
      have : k ∉ (m.scan p).map Prod.fst := by
        intro hk
        obtain ⟨⟨k', v'⟩, he, rfl⟩ := List.mem_map.mp hk
        rw [(mem_scan.mp he).2] at hp
        cases hp
      simp [this]

lemma filter_eq_self {p : κ → Bool} (h : ∀ k v, m.get? k = some v → p k = true) :
    m.filter p = m := by
  ext k
  rw [get?_filter]
  cases hg : m.get? k with
  | none => simp
  | some v => simp [h k v hg]

/-! ## Totals -/

/-- What one key contributes to a total. -/
def part {κ α M : Type} [Zero M] (f : κ → α → M) (k : κ) : Option α → M
  | none => 0
  | some v => f k v

@[simp] lemma part_none {κ α M : Type} [Zero M] (f : κ → α → M) (k : κ) : part f k none = 0 := rfl

@[simp] lemma part_some {κ α M : Type} [Zero M] (f : κ → α → M) (k : κ) (v : α) :
    part f k (some v) = f k v := rfl

section Sum

variable {M : Type} [AddCommMonoid M]

/-- The total of `f` over all bindings. -/
def sum (m : OrdMap κ α) (f : κ → α → M) : M := (m.entries.map (fun e => f e.1 e.2)).sum

variable {m : OrdMap κ α}

/-- A total splits into what one key contributes and the rest. -/
lemma sum_eq_part_add (m : OrdMap κ α) (f : κ → α → M) (k : κ) :
    m.sum f = part f k (m.get? k) + (m.erase k).sum f := by
  cases hg : m.get? k with
  | none =>
    have : m.erase k = m := by
      ext k'
      rw [get?_erase]
      split
      · rename_i h; rw [h, hg]
      · rfl
    rw [this, part_none, zero_add]
  | some v =>
    have hp : m.entries.Perm ((k, v) :: (m.erase k).entries) := by
      have hnd : ((k, v) :: (m.erase k).entries).Nodup := by
        refine List.nodup_cons.mpr ⟨?_, (m.erase k).nodup⟩
        rw [mem_entries, get?_erase_self]; simp
      rw [List.perm_ext_iff_of_nodup m.nodup hnd]
      rintro ⟨k', v'⟩
      rw [List.mem_cons, mem_entries, mem_entries, get?_erase]
      by_cases h : k' = k
      · subst h; simp [hg, eq_comm]
      · simp [h]
    rw [sum, (hp.map _).sum_eq]
    simp [sum]

lemma erase_insert (m : OrdMap κ α) (k : κ) (v : α) : (m.insert k v).erase k = m.erase k := by
  ext k'
  rw [get?_erase, get?_erase, get?_insert]
  split <;> simp_all

lemma sum_insert' (m : OrdMap κ α) (f : κ → α → M) (k : κ) (v : α) :
    (m.insert k v).sum f = f k v + (m.erase k).sum f := by
  rw [sum_eq_part_add (m.insert k v) f k, get?_insert_self, part_some, erase_insert]

lemma sum_congr {f g : κ → α → M} (h : ∀ k v, m.get? k = some v → f k v = g k v) :
    m.sum f = m.sum g := by
  unfold sum
  congr 1
  refine List.map_congr_left ?_
  rintro ⟨k, v⟩ he
  exact h k v (mem_entries.mp he)

lemma sum_natCast (m : OrdMap κ α) (f : κ → α → ℕ) :
    ((m.sum f : ℕ) : ℤ) = m.sum (fun k v => (f k v : ℤ)) := by
  unfold sum
  induction m.entries with
  | nil => rfl
  | cons e es ih =>
    rw [List.map_cons, List.sum_cons, Nat.cast_add, ih, List.map_cons, List.sum_cons]

/-! Totals as sums over keys. -/

/-- The keys that are bound. -/
def keys (m : OrdMap κ α) : Finset κ := (m.entries.map Prod.fst).toFinset

lemma mem_keys : k ∈ m.keys ↔ (m.get? k).isSome := by
  rw [keys, List.mem_toFinset, List.mem_map]
  constructor
  · rintro ⟨⟨k', v⟩, he, rfl⟩
    rw [mem_entries.mp he]; rfl
  · intro h
    obtain ⟨v, hv⟩ := Option.isSome_iff_exists.mp h
    exact ⟨(k, v), mem_entries.mpr hv, rfl⟩

lemma nodup_keys (m : OrdMap κ α) : (m.entries.map Prod.fst).Nodup := by
  rw [List.Nodup, List.pairwise_map]
  exact m.sorted.imp (fun h => ne_of_lt h)

/-- A total is a sum over any finite set of keys that holds the bound ones. -/
lemma sum_eq_finset (m : OrdMap κ α) (f : κ → α → M) {S : Finset κ} (hS : m.keys ⊆ S) :
    m.sum f = ∑ k ∈ S, part f k (m.get? k) := by
  have hlist : m.sum f = ((m.entries.map Prod.fst).map (fun k => part f k (m.get? k))).sum := by
    rw [sum, List.map_map]
    congr 1
    refine List.map_congr_left ?_
    rintro ⟨k, v⟩ he
    rw [Function.comp_apply, mem_entries.mp he, part_some]
  rw [hlist, ← List.sum_toFinset _ m.nodup_keys]
  refine Finset.sum_subset hS ?_
  intro k _ hk
  have hnone : m.get? k = none := by
    rw [← Option.not_isSome_iff_eq_none]
    exact fun h => hk (mem_keys.mpr h)
  rw [hnone, part_none]

end Sum

section SumGroup

variable {M : Type} [AddCommGroup M]

/-- When only some keys contribute differently, the total moves by what they do. -/
lemma sum_update {m m' : OrdMap κ α} {f f' : κ → α → M} {R : List κ} (hR : R.Nodup)
    (h : ∀ k, k ∉ R → part f' k (m'.get? k) = part f k (m.get? k)) :
    m'.sum f' = m.sum f + (R.map (fun k => part f' k (m'.get? k) - part f k (m.get? k))).sum := by
  have hm : m.keys ⊆ m.keys ∪ m'.keys ∪ R.toFinset := by
    intro k hk; simp [hk]
  have hm' : m'.keys ⊆ m.keys ∪ m'.keys ∪ R.toFinset := by
    intro k hk; simp [hk]
  rw [sum_eq_finset m f hm, sum_eq_finset m' f' hm', ← List.sum_toFinset _ hR,
    ← sub_eq_iff_eq_add', ← Finset.sum_sub_distrib]
  refine (Finset.sum_subset (by intro k hk; simp at hk; simp [hk]) ?_).symm
  intro k _ hk
  rw [h k (by simpa using hk), sub_self]

end SumGroup

/-! ## Counting -/

/-- How many bindings satisfy `p`. -/
def count (m : OrdMap κ α) (p : κ → α → Bool) : Nat := m.entries.countP (fun e => p e.1 e.2)

lemma count_eq_sum (m : OrdMap κ α) (p : κ → α → Bool) :
    m.count p = m.sum (fun k v => if p k v then 1 else 0) := by
  unfold count sum
  induction m.entries with
  | nil => rfl
  | cons e es ih =>
    rw [List.countP_cons, List.map_cons, List.sum_cons, ih, Nat.add_comm]

lemma count_insert (p : κ → α → Bool) (h : m.get? k = none) :
    (m.insert k v).count p = m.count p + if p k v then 1 else 0 := by
  rw [count_eq_sum, count_eq_sum, sum_insert', sum_eq_part_add m _ k, h, part_none, zero_add,
    Nat.add_comm]

lemma count_erase (p : κ → α → Bool) (h : m.get? k = some v) :
    m.count p = (m.erase k).count p + if p k v then 1 else 0 := by
  rw [count_eq_sum, count_eq_sum, sum_eq_part_add m _ k, h, part_some, Nat.add_comm]

lemma count_eq_zero : m.count p = 0 ↔ ∀ k v, m.get? k = some v → p k v = false := by
  rw [count, List.countP_eq_zero]
  constructor
  · intro h k v hk
    simpa using h (k, v) (mem_entries.mpr hk)
  · rintro h ⟨k, v⟩ he
    simpa using h k v (mem_entries.mp he)

/-- A count of at most one: the binding is the only one. -/
lemma eq_of_count_le_one (h : m.count p ≤ 1) {v' : α} (hk : m.get? k = some v)
    (hk' : m.get? k' = some v') (hp : p k v = true) (hp' : p k' v' = true) : k = k' := by
  by_contra hne
  have hrest : (m.erase k).count p ≠ 0 := by
    intro h0
    have := count_eq_zero.mp h0 k' v' (by rw [get?_erase_of_ne _ (Ne.symm hne), hk'])
    rw [hp'] at this
    cases this
  rw [count_erase p hk, if_pos hp] at h
  omega

lemma count_le_one
    (h : ∀ k k' v v', m.get? k = some v → m.get? k' = some v' → p k v = true →
      p k' v' = true → k = k') :
    m.count p ≤ 1 := by
  by_cases h0 : m.count p = 0
  · omega
  have hex : ∃ k v, m.get? k = some v ∧ p k v = true := by
    by_contra hno
    refine h0 (count_eq_zero.mpr ?_)
    intro k v hk
    by_contra hp
    exact hno ⟨k, v, hk, by simpa using hp⟩
  obtain ⟨k, v, hk, hp⟩ := hex
  have hrest : (m.erase k).count p = 0 := by
    refine count_eq_zero.mpr ?_
    intro k' v' hk'
    by_contra hp'
    have heq := h k k' v v' hk (get?_of_get?_erase hk') hp (by simpa using hp')
    rw [← heq, get?_erase_self] at hk'
    cases hk'
  rw [count_erase p hk, if_pos hp, hrest]

lemma count_congr {q : κ → α → Bool} (h : ∀ k v, m.get? k = some v → p k v = q k v) :
    m.count p = m.count q := by
  rw [count_eq_sum, count_eq_sum]
  exact sum_congr (fun k v hk => by rw [h k v hk])

end OrdMap
