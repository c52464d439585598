import Mathlib.Data.List.Sort

/-!
# Paging through a list that changes

A client reads a sorted list in pages of `n` records. Each page is taken from the
list as it is at that moment and starts behind the key of the last record returned
so far; the last page is the one that reached the end. Nothing is assumed about how
the list changes between two pages.
-/

namespace Paging

variable {α κ : Type} [LinearOrder κ] (key : α → κ) (n : Nat)

/-- The part of a list behind a key. -/
def after (c : κ) (w : List α) : List α := w.filter (fun x => c < key x)

/-- `Pages c ws out`: from key `c` on, pages taken from the lists `ws` in turn make up `out`. -/
inductive Pages : κ → List (List α) → List α → Prop where
  /-- Everything behind the key fits. -/
  | last {c : κ} {w : List α} (h : (after key c w).length ≤ n) : Pages c [w] (after key c w)
  /-- The page is full and there is more. -/
  | more {c : κ} {w : List α} {ws : List (List α)} {e : α} {out : List α}
      (h : n < (after key c w).length) (he : ((after key c w).take n).getLast? = some e)
      (hrest : Pages (key e) ws out) : Pages c (w :: ws) ((after key c w).take n ++ out)

/-- Keys increase along the list. -/
def Sorted (w : List α) : Prop := w.Pairwise (fun x y => key x < key y)

variable {key n} {c : κ} {w out : List α} {ws : List (List α)} {x : α}

lemma Sorted.after (h : Sorted key w) (c : κ) : Sorted key (after key c w) := h.filter _

lemma mem_after : x ∈ after key c w ↔ x ∈ w ∧ c < key x := by simp [after]

/-- The last record of a page has the greatest key of the page. -/
lemma key_le_last (hw : Sorted key w) {e : α} (he : w.getLast? = some e) (hx : x ∈ w) :
    key x ≤ key e := by
  obtain ⟨init, rfl⟩ := List.getLast?_eq_some_iff.mp he
  rcases List.mem_append.mp hx with hx | hx
  · exact le_of_lt ((List.pairwise_append.mp hw).2.2 x hx e (List.mem_singleton_self e))
  · rw [List.mem_singleton.mp hx]

/-- What is left behind a page is behind its last record. -/
lemma after_last (hw : Sorted key w) {e : α} (he : ((after key c w).take n).getLast? = some e) :
    after key (key e) w = (after key c w).drop n := by
  have hlt : c < key e := (mem_after.mp (List.mem_of_mem_take (List.mem_of_getLast? he))).2
  have hmore : after key (key e) w = after key (key e) (after key c w) := by
    rw [after, after, after, List.filter_filter]
    refine List.filter_congr fun x _ => ?_
    simpa using hlt.trans
  have hsorted := hw.after c
  have hpage : ∀ x ∈ (after key c w).take n, key x ≤ key e := fun x =>
    key_le_last (hsorted.sublist (List.take_sublist n _)) he
  rw [hmore]
  rw [← List.take_append_drop n (after key c w)] at hsorted
  have hbehind := (List.pairwise_append.mp hsorted).2.2 e (List.mem_of_getLast? he)
  nth_rw 1 [← List.take_append_drop n (after key c w)]
  rw [after, List.filter_append, List.filter_eq_nil_iff.mpr, List.nil_append,
    List.filter_eq_self.mpr]
  · exact fun x hx => decide_eq_true (hbehind x hx)
  · exact fun x hx => by simpa using hpage x hx

section

variable (h : Pages key n c ws out) (hws : ∀ w ∈ ws, Sorted key w)
include h hws

/-- Everything returned is behind the key one started from. -/
lemma Pages.lt_key (hx : x ∈ out) : c < key x := by
  induction h with
  | last h => exact (mem_after.mp hx).2
  | @more c w ws e out h he hrest ih =>
    rcases List.mem_append.mp hx with hx | hx
    · exact (mem_after.mp (List.mem_of_mem_take hx)).2
    have he' := (mem_after.mp (List.mem_of_mem_take (List.mem_of_getLast? he))).2
    exact he'.trans (ih (fun w hw => hws w (List.mem_cons_of_mem _ hw)) hx)

/-- **Keys come in strictly increasing order.** -/
theorem Pages.sorted : Sorted key out := by
  induction h with
  | @last c w h => exact (hws w (List.mem_singleton_self w)).after c
  | @more c w ws e out h he hrest ih =>
    have hrest' : ∀ w ∈ ws, Sorted key w := fun w hw => hws w (List.mem_cons_of_mem _ hw)
    have hpage : Sorted key ((after key c w).take n) :=
      ((hws w List.mem_cons_self).after c).sublist (List.take_sublist ..)
    refine List.pairwise_append.mpr ⟨hpage, ih hrest', ?_⟩
    intro a ha b hb
    exact (key_le_last hpage he ha).trans_lt (hrest.lt_key hrest' hb)

/-- **A record that is in the list throughout is returned**, maybe in another form with the
same key. -/
theorem Pages.mem {k : κ} {P : α → Prop} (hc : c < k)
    (hx : ∀ w ∈ ws, ∃ x ∈ w, key x = k ∧ P x) : ∃ x ∈ out, key x = k ∧ P x := by
  induction h with
  | @last c w h =>
    obtain ⟨x, hxw, rfl, hP⟩ := hx w (List.mem_singleton_self w)
    exact ⟨x, mem_after.mpr ⟨hxw, hc⟩, rfl, hP⟩
  | @more c w ws e out h he hrest ih =>
    have hw := (hws w List.mem_cons_self).after c
    obtain ⟨x, hxw, rfl, hP⟩ := hx w List.mem_cons_self
    have hxw : x ∈ after key c w := mem_after.mpr ⟨hxw, hc⟩
    by_cases hin : x ∈ (after key c w).take n
    · exact ⟨x, List.mem_append_left _ hin, rfl, hP⟩
    -- what is not on the page is behind every record of it
    rw [← List.take_append_drop n (after key c w)] at hxw hw
    have hbehind := (List.pairwise_append.mp hw).2.2 _ (List.mem_of_getLast? he) x
      ((List.mem_append.mp hxw).resolve_left hin)
    obtain ⟨y, hy, hkey⟩ := ih (fun w hw => hws w (List.mem_cons_of_mem _ hw)) hbehind
      (fun w hw => hx w (List.mem_cons_of_mem _ hw))
    exact ⟨y, List.mem_append_right _ hy, hkey⟩

end

/-- A record of a list with increasing keys is the only one with its key. -/
lemma Sorted.filter_key (h : Sorted key w) (hx : x ∈ w) :
    w.filter (fun y => key y = key x) = [x] := by
  obtain ⟨s, t, rfl⟩ := List.append_of_mem hx
  obtain ⟨_, ht, hst⟩ := List.pairwise_append.mp h
  have hs : s.filter (fun y => key y = key x) = [] := by
    refine List.filter_eq_nil_iff.mpr fun y hy => ?_
    simpa using (hst y hy x List.mem_cons_self).ne
  have ht' : t.filter (fun y => key y = key x) = [] := by
    refine List.filter_eq_nil_iff.mpr fun y hy => ?_
    simpa using ((List.pairwise_cons.mp ht).1 y hy).ne'
  simp [hs, ht']

end Paging
