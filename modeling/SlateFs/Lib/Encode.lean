import Mathlib.Data.List.Basic
import Mathlib.Data.Char

/-!
# Self-delimiting encodings

A `Code` writes values as sequences of numbers so that a value can be read back from
the front of any sequence that starts with it. Codes compose: pairs, lists, options
and anything that maps injectively into a type with a code. In particular the
encoding is injective.
-/

/-- A self-delimiting encoding. -/
structure Code (α : Type) where
  enc : α → List Nat
  /-- What a sequence starts with is determined, and so is the rest. -/
  unique : ∀ {a b : α} {xs ys : List Nat}, enc a ++ xs = enc b ++ ys → a = b ∧ xs = ys

namespace Code

variable {α β : Type}

lemma injective (c : Code α) : Function.Injective c.enc := by
  intro a b h
  have hnil : c.enc a ++ [] = c.enc b ++ [] := by rw [h]
  exact (c.unique hnil).1

def nat : Code Nat where
  enc n := [n]
  unique h := by simpa using h

/-- Encode a value by its image. -/
def comap (c : Code β) (f : α → β) (hf : Function.Injective f) : Code α where
  enc a := c.enc (f a)
  unique h := ⟨hf (c.unique h).1, (c.unique h).2⟩

def prod (c : Code α) (d : Code β) : Code (α × β) where
  enc p := c.enc p.1 ++ d.enc p.2
  unique {a b xs ys} h := by
    rw [List.append_assoc, List.append_assoc] at h
    obtain ⟨h1, h2⟩ := c.unique h
    obtain ⟨h3, h4⟩ := d.unique h2
    exact ⟨Prod.ext h1 h3, h4⟩

def sum (c : Code α) (d : Code β) : Code (α ⊕ β) where
  enc
    | .inl a => 0 :: c.enc a
    | .inr b => 1 :: d.enc b
  unique {a b xs ys} h := by
    rcases a with a | a <;> rcases b with b | b <;> simp only [List.cons_append] at h
    · obtain ⟨h1, h2⟩ := c.unique (List.cons.inj h).2
      exact ⟨congrArg _ h1, h2⟩
    · simp at h
    · simp at h
    · obtain ⟨h1, h2⟩ := d.unique (List.cons.inj h).2
      exact ⟨congrArg _ h1, h2⟩

/-- Encode the entries one after the other. -/
def entries (c : Code α) : List α → List Nat
  | [] => []
  | a :: as => c.enc a ++ entries c as

/-- Lists of one length are told apart by their entries. -/
lemma entries_unique (c : Code α) : ∀ {as bs : List α} {xs ys : List Nat},
    as.length = bs.length → entries c as ++ xs = entries c bs ++ ys → as = bs ∧ xs = ys
  | [], [], _, _, _, h => ⟨rfl, h⟩
  | [], _ :: _, _, _, hlen, _ => absurd hlen (by simp)
  | _ :: _, [], _, _, hlen, _ => absurd hlen (by simp)
  | a :: as, b :: bs, xs, ys, hlen, h => by
    rw [entries, entries, List.append_assoc, List.append_assoc] at h
    obtain ⟨h1, h2⟩ := c.unique h
    obtain ⟨h3, h4⟩ := entries_unique c (by simpa using hlen) h2
    exact ⟨by rw [h1, h3], h4⟩

lemma length_le_entries (c : Code α) {a : α} : ∀ {as : List α}, a ∈ as →
    (c.enc a).length ≤ (entries c as).length
  | b :: as, h => by
    rw [entries, List.length_append]
    rcases List.mem_cons.mp h with rfl | h
    · omega
    · have := length_le_entries c h
      omega

lemma length_entries_nat : ∀ as : List Nat, (entries nat as).length = as.length
  | [] => rfl
  | a :: as => by
    rw [entries, List.length_append, length_entries_nat as, List.length_cons]
    show 1 + as.length = _
    omega

/-- A list: its length, then its entries. -/
def list (c : Code α) : Code (List α) where
  enc as := as.length :: entries c as
  unique {as bs xs ys} h := by
    rw [List.cons_append, List.cons_append] at h
    exact entries_unique c (List.cons.inj h).1 (List.cons.inj h).2

def option (c : Code α) : Code (Option α) :=
  (list c).comap Option.toList (fun a b h => by cases a <;> cases b <;> simp_all)

def string : Code String :=
  (list (nat.comap Char.toNat fun _ _ h => Char.toNat_inj.mp h)).comap String.toList
    fun _ _ h => String.toList_inj.mp h

def bytes : Code (List UInt8) := list (nat.comap UInt8.toNat fun _ _ h => UInt8.toNat_inj.mp h)

end Code
