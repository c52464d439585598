import Mathlib.Algebra.Group.Nat.Defs
import Mathlib.Data.List.Induction
import Mathlib.Data.List.Lex
import Mathlib.Order.Lattice

/-!
# Numbers of fixed width

A number is written with a fixed number of digits, most significant first. Then texts
compare as the numbers do, and parts of fixed width keep texts apart that are put together
from several of them.
-/

namespace Digits

/-- The last `w` digits of a number, most significant first. -/
def digits {δ : Type} (b : Nat) (digit : Nat → δ) : Nat → Nat → List δ
  | 0, _ => []
  | w + 1, n => digits b digit w (n / b) ++ [digit (n % b)]

/-- The number that digits stand for. -/
def value {δ : Type} (b : Nat) (val : δ → Nat) (ds : List δ) : Nat :=
  ds.foldl (fun n d => n * b + val d) 0

section

variable {δ : Type} {b : Nat} {digit : Nat → δ}

lemma length_digits : ∀ w n, (digits b digit w n).length = w
  | 0, _ => rfl
  | w + 1, n => by rw [digits, List.length_append, length_digits]; rfl

lemma digits_inj (hdigit : ∀ i < b, ∀ j < b, digit i = digit j → i = j) (hb : 0 < b) :
    ∀ {w m n : Nat}, m < b ^ w → n < b ^ w → digits b digit w m = digits b digit w n → m = n
  | 0, m, n, hm, hn, _ => by simp at hm hn; omega
  | w + 1, m, n, hm, hn, h => by
    obtain ⟨hhigh, hlow⟩ := List.append_inj h (by rw [length_digits, length_digits])
    have hdiv := digits_inj hdigit hb (Nat.div_lt_of_lt_mul (Nat.pow_succ' ▸ hm))
      (Nat.div_lt_of_lt_mul (Nat.pow_succ' ▸ hn)) hhigh
    have hmod := hdigit _ (Nat.mod_lt _ hb) _ (Nat.mod_lt _ hb) (List.singleton_inj.mp hlow)
    rw [← Nat.div_add_mod m b, ← Nat.div_add_mod n b, hdiv, hmod]

lemma value_digits {val : δ → Nat} (hval : ∀ i < b, val (digit i) = i) (hb : 0 < b) :
    ∀ {w n : Nat}, n < b ^ w → value b val (digits b digit w n) = n
  | 0, n, hn => by simp at hn; simp [hn, value, digits]
  | w + 1, n, hn => by
    have hdiv := value_digits hval hb (Nat.div_lt_of_lt_mul (Nat.pow_succ' ▸ hn))
    rw [value] at hdiv
    rw [value, digits, List.foldl_append, hdiv, List.foldl_cons, List.foldl_nil,
      hval _ (Nat.mod_lt _ hb)]
    exact Nat.div_add_mod' n b

lemma digits_value {val : δ → Nat} (hlt : ∀ d, val d < b) (hdigit : ∀ d, digit (val d) = d)
    (ds : List δ) :
    digits b digit ds.length (value b val ds) = ds ∧ value b val ds < b ^ ds.length := by
  induction ds using List.reverseRecOn with
  | nil => exact ⟨rfl, by simp [value]⟩
  | append_singleton ds d ih =>
    have hd := hlt d
    have hvalue : value b val (ds ++ [d]) = value b val ds * b + val d := by
      simp [value, List.foldl_append]
    have hdiv : (value b val ds * b + val d) / b = value b val ds := by
      rw [Nat.mul_comm, Nat.mul_add_div (by omega), Nat.div_eq_of_lt hd, Nat.add_zero]
    have hmod : (value b val ds * b + val d) % b = val d := by
      rw [Nat.mul_comm, Nat.mul_add_mod, Nat.mod_eq_of_lt hd]
    rw [hvalue, List.length_append, List.length_singleton, digits, hdiv, hmod, ih.1, hdigit,
      pow_succ]
    refine ⟨rfl, ?_⟩
    calc value b val ds * b + val d < (value b val ds + 1) * b := by rw [Nat.add_mul]; omega
      _ ≤ b ^ ds.length * b := Nat.mul_le_mul_right b ih.2

end

variable {δ : Type} [LinearOrder δ] {u v s t x : List δ}

/-- Where texts begin with parts of one length, these are compared first. -/
lemma append_lt_append_iff (h : u.length = v.length) :
    u ++ s < v ++ t ↔ u < v ∨ u = v ∧ s < t := by
  induction u generalizing v with
  | nil =>
    obtain rfl := List.length_eq_zero_iff.mp h.symm
    simp
  | cons a u ih =>
    cases v with
    | nil => cases h
    | cons c v =>
      simp only [List.cons_append, List.cons_lt_cons_iff, ih (Nat.succ.inj h), List.cons.injEq]
      tauto

/-- What is between two texts with a common beginning begins so. -/
lemma prefix_of_between (h : u ++ s ≤ x) (h' : x ≤ u ++ t) : u <+: x := by
  induction u generalizing x with
  | nil => exact List.nil_prefix
  | cons a u ih =>
    rw [← not_lt] at h h'
    cases x with
    | nil => exact absurd (List.nil_lt_cons ..) h
    | cons c x =>
      rw [List.cons_append, List.cons_lt_cons_iff, not_or, not_and, not_lt] at h h'
      obtain rfl := le_antisymm h.1 h'.1
      exact List.cons_prefix_cons.mpr ⟨rfl, ih (not_lt.mp (h.2 rfl)) (not_lt.mp (h'.2 rfl))⟩

/-- **Texts of one width compare as the numbers do.** -/
theorem digits_lt_iff {b : Nat} {digit : Nat → δ}
    (hdigit : ∀ i < b, ∀ j < b, (digit i < digit j ↔ i < j)) (hb : 0 < b) :
    ∀ {w m n : Nat}, m < b ^ w → n < b ^ w →
      (digits b digit w m < digits b digit w n ↔ m < n)
  | 0, m, n, hm, hn => by simp at hm hn; simp [digits, hm, hn]
  | w + 1, m, n, hm, hn => by
    have hm' := Nat.div_lt_of_lt_mul (Nat.pow_succ' ▸ hm)
    have hn' := Nat.div_lt_of_lt_mul (Nat.pow_succ' ▸ hn)
    have hinj : ∀ i < b, ∀ j < b, digit i = digit j → i = j := by
      intro i hi j hj he
      have hij := (hdigit i hi j hj).not.mp he.not_lt
      have hji := (hdigit j hj i hi).not.mp he.not_gt
      omega
    have heq : digits b digit w (m / b) = digits b digit w (n / b) ↔ m / b = n / b :=
      ⟨digits_inj hinj hb hm' hn', fun h => by rw [h]⟩
    rw [digits, digits, append_lt_append_iff (by rw [length_digits, length_digits]), heq,
      digits_lt_iff hdigit hb hm' hn', List.cons_lt_cons_iff,
      hdigit _ (Nat.mod_lt m hb) _ (Nat.mod_lt n hb)]
    have hm₀ := Nat.div_add_mod m b
    have hn₀ := Nat.div_add_mod n b
    have := Nat.mod_lt m hb
    have := Nat.mod_lt n hb
    constructor
    · rintro (h | ⟨h, h' | ⟨-, h'⟩⟩)
      · exact lt_of_not_ge fun hle => absurd (Nat.div_le_div_right (c := b) hle) (by omega)
      · rw [h] at hm₀; omega
      · exact absurd h' (lt_irrefl _)
    · intro h
      rcases (Nat.div_le_div_right (c := b) h.le).lt_or_eq with hlt | he
      · exact .inl hlt
      · rw [he] at hm₀
        exact .inr ⟨he, .inl (by omega)⟩

end Digits
