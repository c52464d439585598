import Mathlib.Order.WithBot
import SlateFs.Control.Audit
import SlateFs.Lib.Paging

/-!
# Pages of the admin lists

The admin interface lists tenants, volumes, exports, nodes and audit records page by page. A
token names the last item of the page before, and a page starts behind the item that the token
names, which is looked for in the list as it is then. When that item is gone nothing is found:
the page is empty and has no token, which looks like the end of the list.
-/

namespace SlateFs.Admin

open Paging (after Sorted)

variable {α ι κ : Type} [DecidableEq ι]

/-- The loop of `paginate_by`: `started` is whether the item of the token was passed. -/
def paginateLoop (pageToken : Option ι) (limit : Nat) (id : α → ι) :
    List α → Bool → List α → List α × Option ι
  | [], _, page => (page, none)
  | item :: items, false, page =>
    paginateLoop pageToken limit id items (pageToken = some (id item)) page
  | item :: items, true, page =>
    if page.length = limit then (page, page.getLast?.map id)
    else paginateLoop pageToken limit id items true (page ++ [item])

/-- `paginate_by` -/
def paginateBy (items : List α) (pageToken : Option ι) (limit : Nat) (id : α → ι) :
    List α × Option ι :=
  paginateLoop pageToken limit id items pageToken.isNone []

/-- The order in which a list is paged. -/
def listed (newestFirst : Bool) (items : List α) : List α :=
  if newestFirst then items.reverse else items

/-- A page of an admin list; only audit records are ever listed newest first. -/
def listPage (newestFirst : Bool) (limit : Nat) (id : α → ι) (items : List α)
    (pageToken : Option ι) : List α × Option ι :=
  paginateBy (listed newestFirst items) pageToken limit id

def MAX_AUDIT_PAGE_LIMIT : Nat := 1000

/-- `page_audit_records` -/
def pageAuditRecords {β : Type} (newestFirst : Bool) (limit : Nat) :
    List (Audit.AuditRecord β) → Option String → List (Audit.AuditRecord β) × Option String :=
  listPage newestFirst (if limit = 0 then 100 else min limit MAX_AUDIT_PAGE_LIMIT)
    Audit.AuditRecord.id

/-- What a client is given that follows the tokens until none is returned, and makes just as
many requests as there are lists, each of the list at that time. -/
def follow (page : List α → Option ι → List α × Option ι) :
    Option ι → List (List α) → Option (List α)
  | _, [] => none
  | token, items :: lists =>
    match page items token with
    | (out, none) => if lists.isEmpty then some out else none
    | (out, some t) => (follow page (some t) lists).map (out ++ ·)

/-- At every request the item that the token names is still in the list. -/
def TokensFound (page : List α → Option ι → List α × Option ι) (id : α → ι) :
    Option ι → List (List α) → Prop
  | _, [] => True
  | token, items :: lists => (∀ t ∈ token, t ∈ items.map id) ∧
    ∀ t ∈ (page items token).2, TokensFound page id (some t) lists

/-! ## One page -/

/-- What follows the first item with an identifier. -/
def behind (id : α → ι) (t : ι) : List α → List α
  | [] => []
  | item :: items => if id item = t then items else behind id t items

/-- The part of a list that a page is taken from. -/
def remaining (id : α → ι) (items : List α) : Option ι → List α
  | none => items
  | some t => behind id t items

variable {limit : Nat} {id : α → ι} {pageToken : Option ι} {items : List α} {t : ι}
  {newestFirst : Bool}

omit [DecidableEq ι] in
lemma mem_map_listed : t ∈ (listed newestFirst items).map id ↔ t ∈ items.map id := by
  unfold listed
  split <;> simp

lemma paginateLoop_started : ∀ {items page : List α}, page.length ≤ limit →
    paginateLoop pageToken limit id items true page = ((page ++ items).take limit,
      if limit < (page ++ items).length then ((page ++ items).take limit).getLast?.map id else none)
  | [], page, h => by
    rw [paginateLoop, List.append_nil, List.take_of_length_le h, if_neg (by omega)]
  | item :: items, page, h => by
    rw [paginateLoop]
    split
    · rename_i hfull
      rw [List.take_left' hfull, if_pos (by simp; omega)]
    · rw [paginateLoop_started (by simp; omega), List.append_assoc]
      rfl

lemma paginateLoop_waiting : ∀ {items : List α}, paginateLoop (some t) limit id items false [] =
    paginateLoop (some t) limit id (behind id t items) true []
  | [] => rfl
  | item :: items => by
    rw [paginateLoop, behind]
    by_cases h : id item = t
    · simp [h]
    · have hne : ¬ t = id item := fun he => h he.symm
      simpa [h, hne] using paginateLoop_waiting

lemma paginateBy_eq (items : List α) : paginateBy items pageToken limit id =
    ((remaining id items pageToken).take limit,
      if limit < (remaining id items pageToken).length then
        ((remaining id items pageToken).take limit).getLast?.map id else none) := by
  cases pageToken with
  | none => exact paginateLoop_started (Nat.zero_le _)
  | some t => exact paginateLoop_waiting.trans (paginateLoop_started (Nat.zero_le _))

lemma behind_lost (h : t ∉ items.map id) : behind id t items = [] := by
  induction items with
  | nil => rfl
  | cons y ys ih =>
    rw [List.map_cons, List.mem_cons, not_or] at h
    rw [behind, if_neg fun he => h.1 he.symm, ih h.2]

variable [LinearOrder κ] (rank : ι → κ)

/-- Where an item stands in the list. -/
def place (rank : ι → κ) (id : α → ι) (x : α) : WithBot κ := rank (id x)

/-- Where a page starts. -/
def start (rank : ι → κ) : Option ι → WithBot κ
  | none => ⊥
  | some t => rank t

variable {rank}

/-- In an ordered list the items of higher rank follow an item. -/
lemma behind_eq (h : Sorted (place rank id) items) (ht : t ∈ items.map id) :
    behind id t items = after (place rank id) (rank t : WithBot κ) items := by
  induction items with
  | nil => cases ht
  | cons y ys ih =>
    obtain ⟨hy, hys⟩ := List.pairwise_cons.mp h
    rw [behind, after, List.filter_cons]
    split
    · rename_i he
      subst he
      rw [if_neg (by simp [place]), List.filter_eq_self.mpr]
      exact fun x hx => decide_eq_true (hy x hx)
    · rename_i hne
      have ht' : t ∈ ys.map id := (List.mem_cons.mp ht).resolve_left fun he => hne he.symm
      obtain ⟨z, hz, rfl⟩ := List.mem_map.mp ht'
      have hout : ¬decide ((rank (id z) : WithBot κ) < place rank id y) = true := fun hlt =>
        (hy z hz).not_gt (of_decide_eq_true hlt)
      rw [if_neg hout, ih hys ht', after]

lemma remaining_eq (h : Sorted (place rank id) items) (ht : ∀ t ∈ pageToken, t ∈ items.map id) :
    remaining id items pageToken = after (place rank id) (start rank pageToken) items := by
  cases pageToken with
  | none =>
    rw [remaining, after, List.filter_eq_self.mpr]
    exact fun x _ => by simp [start, place, WithBot.bot_lt_coe]
  | some t => exact behind_eq h (ht t rfl)

/-- A token names an item of the list, behind where the page started. -/
lemma next_behind (h : Sorted (place rank id) items)
    (hnext : (paginateBy items pageToken limit id).2 = some t) :
    t ∈ items.map id ∧ start rank pageToken < rank t := by
  rw [paginateBy_eq] at hnext
  dsimp only at hnext
  split at hnext
  · obtain ⟨e, he, rfl⟩ := Option.map_eq_some_iff.mp hnext
    have hmem := List.mem_of_mem_take (List.mem_of_getLast? he)
    have hkept : ∀ t ∈ pageToken, t ∈ items.map id := by
      rintro t rfl
      by_contra hlost
      rw [remaining, behind_lost hlost] at hmem
      cases hmem
    rw [remaining_eq h hkept] at hmem
    obtain ⟨hmem, hlt⟩ := Paging.mem_after.mp hmem
    exact ⟨List.mem_map_of_mem hmem, hlt⟩
  · cases hnext

/-! ## Following tokens -/

/-- As long as tokens are found, the pages are those behind the last item given. -/
lemma pages_of_follow (hlimit : 0 < limit) : ∀ {lists : List (List α)} {token : Option ι}
    {out : List α}, (∀ items ∈ lists, Sorted (place rank id) (listed newestFirst items)) →
    TokensFound (listPage newestFirst limit id) id token lists →
    follow (listPage newestFirst limit id) token lists = some out →
    Paging.Pages (place rank id) limit (start rank token) (lists.map (listed newestFirst)) out
  | items :: lists, token, out, hordered, ⟨hfound, hrest⟩, h => by
    have hitems := hordered items List.mem_cons_self
    have hkept : ∀ t ∈ token, t ∈ (listed newestFirst items).map id := fun t ht =>
      mem_map_listed.mpr (hfound t ht)
    have hpage : listPage newestFirst limit id items token = _ := paginateBy_eq _
    rw [remaining_eq hitems hkept] at hpage
    rw [follow, hpage] at h
    rw [hpage] at hrest
    by_cases hlen : limit < (after (place rank id) (start rank token)
        (listed newestFirst items)).length
    · cases he : ((after (place rank id) (start rank token)
        (listed newestFirst items)).take limit).getLast? with
      | none =>
        have := congrArg List.length (List.getLast?_eq_none_iff.mp he)
        rw [List.length_take, List.length_nil] at this
        omega
      | some e =>
        simp only [if_pos hlen, he, Option.map_some] at h hrest
        obtain ⟨out', hout', rfl⟩ := Option.map_eq_some_iff.mp h
        exact .more hlen he (pages_of_follow hlimit
          (fun items hi => hordered items (List.mem_cons_of_mem _ hi)) (hrest _ rfl) hout')
    · simp only [if_neg hlen] at h
      split at h
      · rename_i hend
        cases h
        rw [List.isEmpty_iff.mp hend, List.take_of_length_le (Nat.le_of_not_lt hlen)]
        exact .last (Nat.le_of_not_lt hlen)
      · cases h

/-- If no more than finitely many identifiers ever come up, the tokens come to an end. -/
lemma exists_follow {lists : Nat → List α}
    (hordered : ∀ n, Sorted (place rank id) (listed newestFirst (lists n))) {U : Finset ι}
    (hU : ∀ n, ∀ x ∈ lists n, id x ∈ U) (n : Nat) (token : Option ι) :
    ∃ m out, follow (listPage newestFirst limit id) token ((List.range' n m).map lists) =
      some out := by
  classical
  generalize hc : (U.filter fun u => start rank token < rank u).card = c
  induction c using Nat.strong_induction_on generalizing n token with
  | _ c ih =>
    cases hp : listPage newestFirst limit id (lists n) token with
    | mk out next =>
      cases next with
      | none => exact ⟨1, out, by simp [follow, hp]⟩
      | some t =>
        obtain ⟨hmem, hlt⟩ := next_behind (hordered n) (congrArg Prod.snd hp)
        -- the token is behind the one before it, and not behind itself
        have hless : (U.filter fun u => start rank (some t) < rank u) ⊂
            U.filter fun u => start rank token < rank u := by
          refine ⟨fun u hu => ?_, fun hsub => ?_⟩
          · obtain ⟨hu, hlt'⟩ := Finset.mem_filter.mp hu
            exact Finset.mem_filter.mpr ⟨hu, hlt.trans hlt'⟩
          · obtain ⟨x, hx, rfl⟩ := List.mem_map.mp (mem_map_listed.mp hmem)
            have hself := hsub (Finset.mem_filter.mpr ⟨hU n x hx, hlt⟩)
            exact lt_irrefl _ (Finset.mem_filter.mp hself).2
        obtain ⟨m, out', hrest⟩ := ih _ (hc ▸ Finset.card_lt_card hless) (n + 1) (some t) rfl
        exact ⟨m + 1, out ++ out', by simp [List.range'_succ, follow, hp, hrest]⟩

/-- **Following the tokens gives every item that is there throughout once, and none twice, if
the item of each token is still there.** The tokens come to an end when no more than finitely
many identifiers ever come up. -/
theorem pages_complete (newestFirst : Bool) (hlimit : 0 < limit) (lists : Nat → List α)
    (hordered : ∀ n, Sorted (place rank id) (listed newestFirst (lists n))) :
    (∀ U : Finset ι, (∀ n, ∀ x ∈ lists n, id x ∈ U) →
      ∃ n out, follow (listPage newestFirst limit id) none ((List.range n).map lists) = some out) ∧
    ∀ n out, follow (listPage newestFirst limit id) none ((List.range n).map lists) = some out →
      TokensFound (listPage newestFirst limit id) id none ((List.range n).map lists) →
      (out.map id).Nodup ∧ ∀ i, (∀ k < n, i ∈ (lists k).map id) → (out.map id).count i = 1 := by
  refine ⟨fun U hU => ?_, fun n out hout hfound => ?_⟩
  · obtain ⟨n, out, h⟩ := exists_follow hordered hU 0 none
    exact ⟨n, out, by rw [List.range_eq_range']; exact h⟩
  have hlists : ∀ w ∈ ((List.range n).map lists).map (listed newestFirst),
      Sorted (place rank id) w := by
    simp only [List.map_map, List.mem_map]
    rintro w ⟨k, -, rfl⟩
    exact hordered k
  have hpages := pages_of_follow hlimit
    (fun items hi => hlists _ (List.mem_map_of_mem hi)) hfound hout
  have hnodup : (out.map id).Nodup := List.pairwise_map.mpr
    ((hpages.sorted hlists).imp fun {x y} hlt he =>
      hlt.ne (congrArg (fun i => (rank i : WithBot κ)) he))
  refine ⟨hnodup, fun i hi => List.count_eq_one_of_mem hnodup ?_⟩
  obtain ⟨x, hx, -, rfl⟩ := hpages.mem (k := (rank i : WithBot κ)) (P := fun x => id x = i) hlists
    (WithBot.bot_lt_coe _) fun w hw => by
      simp only [List.map_map, List.mem_map, List.mem_range] at hw
      obtain ⟨k, hk, rfl⟩ := hw
      obtain ⟨x, hx, rfl⟩ := List.mem_map.mp (mem_map_listed.mpr (hi k hk))
      exact ⟨x, hx, rfl, rfl⟩
  exact List.mem_map_of_mem hx

/-- The second item comes up after the first page, and the fourth goes. -/
theorem changing_list_complete :
    follow (listPage false 1 fun i : Nat => i) none [[1, 3, 4], [1, 2, 3], [1, 2, 3]] =
      some [1, 2, 3] ∧ ([1, 2, 3].map fun i : Nat => i).count 3 = 1 := by
  let lists (n : Nat) : List Nat := if n = 0 then [1, 3, 4] else [1, 2, 3]
  have hout : follow (listPage false 1 fun i : Nat => i) none ((List.range 3).map lists) =
    some [1, 2, 3] := by decide
  have hordered : ∀ n, Sorted (place id fun i : Nat => i) (listed false (lists n)) := by
    intro n
    show Sorted _ (listed false (if n = 0 then [1, 3, 4] else [1, 2, 3]))
    split <;> simp [listed, Sorted, place]
  have h := (pages_complete false Nat.one_pos lists hordered).2 3 [1, 2, 3] hout
  refine ⟨hout, (h ⟨nofun, ?_⟩).2 3 fun k _ => ?_⟩
  · rintro t ⟨⟩
    refine ⟨by decide, ?_⟩
    rintro t ⟨⟩
    exact ⟨by decide, nofun⟩
  · show 3 ∈ (if k = 0 then [1, 3, 4] else [1, 2, 3]).map fun i : Nat => i
    split <;> decide

/-- **A lost token ends the list.** The first of three items is removed after the first page. -/
theorem lost_token_ends_list :
    follow (listPage false 1 fun i : Nat => i) none [[1, 2, 3], [2, 3]] = some [1] ∧
    (∀ items ∈ [[1, 2, 3], [2, 3]], 3 ∈ items) ∧ [1].count 3 = 0 := by
  decide

end SlateFs.Admin
