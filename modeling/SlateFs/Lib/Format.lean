import Mathlib.Data.List.Basic
import Mathlib.Data.Char
import Mathlib.Order.Lex
import Mathlib.Logic.Equiv.Basic

/-!
# Byte formats

A `Format` writes values as bytes and reads them back from the front of any bytes that
start with them. Formats compose: pairs, sums, lists, and anything that a format's type
can be mapped back to. Numbers are written in unary, which is enough to compute with.
-/

/-- A way to write values as bytes and to read them back. -/
structure Format (α : Type) where
  enc : α → List UInt8
  dec : List UInt8 → Option (α × List UInt8)
  dec_enc : ∀ a rest, dec (enc a ++ rest) = some (a, rest)

namespace Format

variable {α β : Type}

/-- Read a number in unary. -/
def decNat : List UInt8 → Option (Nat × List UInt8)
  | [] => none
  | b :: rest =>
    if b = 0 then some (0, rest)
    else (decNat rest).map fun r => (r.1 + 1, r.2)

def nat : Format Nat where
  enc n := List.replicate n 1 ++ [0]
  dec := decNat
  dec_enc n rest := by
    induction n with
    | zero => rfl
    | succ n ih =>
      rw [List.replicate_succ, List.cons_append, List.cons_append, decNat, if_neg (by decide), ih]
      rfl

/-- Write a value as its image under a map with a left inverse. -/
def comap (c : Format β) (f : α → β) (g : β → α) (h : ∀ a, g (f a) = a) : Format α where
  enc a := c.enc (f a)
  dec bytes := (c.dec bytes).map fun r => (g r.1, r.2)
  dec_enc a rest := by
    rw [c.dec_enc, Option.map_some, h]

def prod (c : Format α) (d : Format β) : Format (α × β) where
  enc p := c.enc p.1 ++ d.enc p.2
  dec bytes := (c.dec bytes).bind fun r => (d.dec r.2).map fun r' => ((r.1, r'.1), r'.2)
  dec_enc p rest := by
    rw [List.append_assoc, c.dec_enc, Option.bind_some, d.dec_enc]
    rfl

def decSum (c : Format α) (d : Format β) : List UInt8 → Option ((α ⊕ β) × List UInt8)
  | [] => none
  | b :: rest =>
    if b = 0 then (c.dec rest).map fun r => (.inl r.1, r.2)
    else (d.dec rest).map fun r => (.inr r.1, r.2)

def sum (c : Format α) (d : Format β) : Format (α ⊕ β) where
  enc
    | .inl a => 0 :: c.enc a
    | .inr b => 1 :: d.enc b
  dec := decSum c d
  dec_enc x rest := by
    rcases x with a | b
    · rw [List.cons_append, decSum, if_pos rfl, c.dec_enc]
      rfl
    · rw [List.cons_append, decSum, if_neg (by decide), d.dec_enc]
      rfl

/-- Read a number of values. -/
def decMany (c : Format α) : Nat → List UInt8 → Option (List α × List UInt8)
  | 0, bytes => some ([], bytes)
  | n + 1, bytes => (c.dec bytes).bind fun r => (decMany c n r.2).map fun r' => (r.1 :: r'.1, r'.2)

lemma decMany_enc (c : Format α) (rest : List UInt8) : ∀ as : List α,
    decMany c as.length (as.flatMap c.enc ++ rest) = some (as, rest)
  | [] => rfl
  | a :: as => by
    rw [List.length_cons, decMany, List.flatMap_cons, List.append_assoc, c.dec_enc,
      Option.bind_some, decMany_enc c rest as]
    rfl

/-- A list: its length, then its entries. -/
def list (c : Format α) : Format (List α) where
  enc as := nat.enc as.length ++ as.flatMap c.enc
  dec bytes := (nat.dec bytes).bind fun r => decMany c r.1 r.2
  dec_enc as rest := by
    rw [List.append_assoc, nat.dec_enc, Option.bind_some, decMany_enc]

def int : Format Int :=
  (nat.sum nat).comap (fun | .ofNat n => .inl n | .negSucc n => .inr n)
    (fun | .inl n => .ofNat n | .inr n => .negSucc n) (fun a => by cases a <;> rfl)

def byte : Format UInt8 where
  enc b := [b]
  dec
    | [] => none
    | b :: rest => some (b, rest)
  dec_enc _ _ := rfl

def string : Format String :=
  (list (nat.comap Char.toNat Char.ofNat Char.ofNat_toNat)).comap String.toList String.ofList
    fun _ => String.ofList_toList

def lex (c : Format α) : Format (Lex α) := c.comap ofLex toLex fun _ => rfl

end Format
