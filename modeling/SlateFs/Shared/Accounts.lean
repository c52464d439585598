import SlateFs.Lib.Threads
import SlateFs.Shared.Known

/-!
# The accounts of all tasks

Tasks that write only what they may write never spoil one another's accounts: `Good`
is kept by every move of every task. The locks do it for records of nodes that exist,
and the allocator for the numbers of nodes that are being created.
-/

namespace Threads

open Function (update)

variable {C : Type} {R : C → Type} {L S α N : Type}

/-- The locks of the tasks that are running. -/
def Conf.heldBy (c : Conf C R L S α N) (t : Nat) : Option (List L) := (c.tasks.get? t).map Task.held

lemma Conf.heldBy_insert (c : Conf C R L S α N) (t : Nat) (τ : Task C R L α N) (s' : S) :
    Conf.heldBy ⟨s', c.tasks.insert t τ⟩ = update c.heldBy t (some τ.held) := by
  funext u
  simp only [heldBy, OrdMap.get?_insert, Function.update_apply]
  split <;> rfl

lemma Conf.heldBy_erase (c : Conf C R L S α N) (t : Nat) (s' : S) :
    Conf.heldBy ⟨s', c.tasks.erase t⟩ = update c.heldBy t none := by
  funext u
  simp only [heldBy, OrdMap.get?_erase, Function.update_apply]
  split <;> rfl

end Threads

namespace SlateFs

open Function (update)

/-- What an account says is so. -/
structure Known.Holds (κ : Known) (s : St) : Prop where
  known : ∀ k o, κ.known k = some o → s.db.get k = o
  /-- A number in hand is nobody's. -/
  num : ∀ n, κ.num = some n → n < s.mem.alloc.next ∧ s.db.get (.inode n) = none

/-- What the accounts of the running tasks say is so, and nobody holds what another holds. -/
structure Good (s : St) (locks : Nat → Option (List Lock)) (κ : Nat → Known) : Prop where
  task : ∀ t ls, locks t = some ls → (κ t).held = ls ∧ (κ t).Holds s
  apart : ∀ t u ls ms l, locks t = some ls → locks u = some ms → l ∈ ls → l ∈ ms → t = u
  lone : ∀ t u ls ms n, locks t = some ls → locks u = some ms → (κ t).num = some n →
    (κ u).num = some n → t = u
  below : ∀ ino i, s.db.get (.inode ino) = some i → ino < s.mem.alloc.next

namespace Good

variable {s s' : St} {locks : Nat → Option (List Lock)} {κ : Nat → Known} {t : Nat}
  {ls : List Lock} {l : Lock} {κ' : Known}

/-- A task that runs is the one that moved, or ran before. -/
lemma of_update {o : Option (List Lock)} {u : Nat} {ms : List Lock}
    (hu : update locks t o u = some ms) : u = t ∧ o = some ms ∨ u ≠ t ∧ locks u = some ms := by
  by_cases he : u = t
  · subst he
    rw [Function.update_self] at hu
    exact .inl ⟨rfl, hu⟩
  · rw [Function.update_of_ne he] at hu
    exact .inr ⟨he, hu⟩

section

variable (h : Good s locks κ)
include h

/-- **One task moves.** The others must not notice. -/
theorem moved (hheld : κ'.held = ls) (hown : κ'.Holds s')
    (hothers : ∀ u ms, u ≠ t → locks u = some ms → (κ u).Holds s')
    (hapart : ∀ u ms l, u ≠ t → locks u = some ms → l ∈ ls → l ∉ ms)
    (hlone : ∀ u ms n, u ≠ t → locks u = some ms → κ'.num = some n → (κ u).num ≠ some n)
    (hbelow : ∀ ino i, s'.db.get (.inode ino) = some i → ino < s'.mem.alloc.next) :
    Good s' (update locks t (some ls)) (update κ t κ') where
  task u ms hu := by
    rcases of_update hu with ⟨rfl, ⟨⟩⟩ | ⟨he, hu⟩
    · rw [Function.update_self]
      exact ⟨hheld, hown⟩
    · rw [Function.update_of_ne he]
      exact ⟨(h.task u ms hu).1, hothers u ms he hu⟩
  apart u w ms ns l hu hw hlu hlw := by
    rcases of_update hu with ⟨rfl, ⟨⟩⟩ | ⟨heu, hu'⟩ <;>
      rcases of_update hw with ⟨rfl, ⟨⟩⟩ | ⟨hew, hw'⟩
    · rfl
    · exact absurd hlw (hapart w ns l hew hw' hlu)
    · exact absurd hlu (hapart u ms l heu hu' hlw)
    · exact h.apart u w ms ns l hu' hw' hlu hlw
  lone u w ms ns n hu hw hnu hnw := by
    rcases of_update hu with ⟨rfl, -⟩ | ⟨heu, hu'⟩ <;>
      rcases of_update hw with ⟨rfl, -⟩ | ⟨hew, hw'⟩
    · rfl
    · rw [Function.update_self] at hnu
      rw [Function.update_of_ne hew] at hnw
      exact absurd hnw (hlone w ns n hew hw' hnu)
    · rw [Function.update_self] at hnw
      rw [Function.update_of_ne heu] at hnu
      exact absurd hnu (hlone u ms n heu hu' hnw)
    · rw [Function.update_of_ne heu] at hnu
      rw [Function.update_of_ne hew] at hnw
      exact h.lone u w ms ns n hu' hw' hnu hnw
  below := hbelow

/-- The others keep their locks apart from a task that takes no more of them. -/
lemma apart_of (ht : locks t = some ls) {ls' : List Lock} (hsub : ∀ l ∈ ls', l ∈ ls) (u : Nat)
    (ms : List Lock) (l : Lock) (hu : u ≠ t) (hm : locks u = some ms) (hl : l ∈ ls') : l ∉ ms :=
  fun hl' => hu (h.apart u t ms ls l hm ht hl' (hsub l hl))

lemma lone_of (ht : locks t = some ls) (hn : κ'.num = (κ t).num) (u : Nat) (ms : List Lock)
    (n : Ino) (hu : u ≠ t) (hm : locks u = some ms) (hnum : κ'.num = some n) :
    (κ u).num ≠ some n := fun hn' => hu (h.lone u t ms ls n hm ht hn' (hn.symm.trans hnum))

lemma start : Good s (update locks t (some [])) (update κ t .blank) :=
  h.moved rfl ⟨nofun, nofun⟩ (fun u ms _ hu => (h.task u ms hu).2) (fun _ _ _ _ _ => nofun) nofun
    h.below

lemma finish : Good s (update locks t none) κ := by
  have hran : ∀ {u ms}, update locks t none u = some ms → locks u = some ms :=
    fun hu => ((of_update hu).resolve_left (by simp)).2
  exact ⟨fun u ms hu => h.task u ms (hran hu),
    fun u w ms ns l hu hw => h.apart u w ms ns l (hran hu) (hran hw),
    fun u w ms ns n hu hw => h.lone u w ms ns n (hran hu) (hran hw), h.below⟩

lemma acquire (ht : locks t = some ls) (hfree : ∀ u ms, locks u = some ms → l ∉ ms) :
    Good s (update locks t (some (l :: ls))) (update κ t ((κ t).acq l)) := by
  obtain ⟨hheld, hholds⟩ := h.task t ls ht
  refine h.moved (congrArg (l :: ·) hheld) ⟨hholds.known, hholds.num⟩
    (fun u ms _ hu => (h.task u ms hu).2) (fun u ms l' hut hu hl => ?_) (h.lone_of ht rfl) h.below
  rcases List.mem_cons.mp hl with rfl | hl
  · exact hfree u ms hu
  · exact h.apart_of ht (fun _ hl => hl) u ms l' hut hu hl

lemma release (ht : locks t = some ls) :
    Good s (update locks t (some (ls.erase l))) (update κ t ((κ t).rel l)) := by
  obtain ⟨hheld, hholds⟩ := h.task t ls ht
  refine h.moved (congrArg (·.erase l) hheld) ⟨fun k o hk => ?_, hholds.num⟩
    (fun u ms _ hu => (h.task u ms hu).2) (h.apart_of ht fun _ => List.mem_of_mem_erase)
    (h.lone_of ht rfl) h.below
  unfold Known.rel at hk
  dsimp only at hk
  split at hk
  · exact hholds.known k o hk
  · cases hk

end

/-! ## Calls -/

/-- The calls that change records or numbers. -/
def moves : Call → Bool
  | .commit _ | .allocate => true
  | _ => false

lemma may_same {x : Call} (hx : moves x = false) {r : x.Ret} (h : x.may s r s') :
    (∀ k, s'.db.get k = s.db.get k) ∧ s'.mem.alloc = s.mem.alloc := by
  rcases h with ⟨env, he⟩ | ⟨-, rfl⟩
  · obtain rfl : (x.answer env s).2 = s' := by rw [he]
    cases x
    case attrsGet => simp only [Call.answer]; split <;> exact ⟨fun _ => rfl, rfl⟩
    case isNegative => simp only [Call.answer]; split <;> exact ⟨fun _ => rfl, rfl⟩
    case putNextIno => exact ⟨fun k => by cases k <;> rfl, rfl⟩
    all_goals first | exact ⟨fun _ => rfl, rfl⟩ | cases hx
  · exact ⟨fun _ => rfl, rfl⟩

lemma of_same (h : Good s locks κ) (ht : locks t = some ls)
    (hsame : (∀ k, s'.db.get k = s.db.get k) ∧ s'.mem.alloc = s.mem.alloc)
    (hheld : κ'.held = (κ t).held) (hnum : κ'.num = (κ t).num)
    (hknown : ∀ k o, κ'.known k = some o → s.db.get k = o) :
    Good s' (update locks t (some ls)) (update κ t κ') := by
  obtain ⟨hget, halloc⟩ := hsame
  have hholds : ∀ κ'' : Known, (∀ k o, κ''.known k = some o → s.db.get k = o) →
      (∀ n, κ''.num = some n → n < s.mem.alloc.next ∧ s.db.get (.inode n) = none) →
      κ''.Holds s' := by
    intro κ'' hk hn
    refine ⟨fun k o hko => (hget k).trans (hk k o hko), fun n hnn => ?_⟩
    rw [hget, halloc]
    exact hn n hnn
  obtain ⟨hh, htrue⟩ := h.task t ls ht
  refine h.moved (hheld.trans hh) (hholds κ' hknown fun n hn => htrue.num n (hnum ▸ hn))
    (fun u ms _ hu => ?_) (h.apart_of ht fun _ hl => hl) (h.lone_of ht hnum) fun ino i hi => ?_
  · exact hholds (κ u) (h.task u ms hu).2.known (h.task u ms hu).2.num
  rw [hget] at hi
  rw [halloc]
  exact h.below ino i hi

lemma allocate (h : Good s locks κ) (ht : locks t = some ls)
    (ha : s'.mem.alloc = s.mem.alloc.allocate.2) (hdb : s'.db = s.db) :
    (κ t).known (.inode s.mem.alloc.next) = none ∧
      Good s' (update locks t (some ls))
        (update κ t { κ t with num := some s.mem.alloc.next }) := by
  have hnext : s'.mem.alloc.next = s.mem.alloc.next + 1 := by
    rw [ha, InodeAllocator.allocate]
    split <;> rfl
  have hfresh : s.db.get (.inode s.mem.alloc.next) = none := by
    cases hi : s.db.get (.inode s.mem.alloc.next) with
    | none => rfl
    | some i => exact absurd (h.below _ i hi) (Nat.lt_irrefl _)
  obtain ⟨hh, htrue⟩ := h.task t ls ht
  refine ⟨?_, h.moved hh ⟨?_, fun n hn => ?_⟩ (fun u ms _ hu => ⟨?_, fun n hn => ?_⟩)
    (h.apart_of ht fun _ hl => hl) (fun u ms n _ hu hn hn' => ?_) fun ino i hi => ?_⟩
  · cases hk : (κ t).known (.inode s.mem.alloc.next) with
    | none => rfl
    | some o =>
      -- only nodes that are there are on the account
      obtain rfl : none = o := hfresh.symm.trans (htrue.known _ o hk)
      exact absurd ((κ t).owned _ _ hk).2 Bool.false_ne_true
  · rw [hdb]
    exact htrue.known
  · obtain rfl := Option.some.inj hn
    rw [hdb, hnext]
    exact ⟨Nat.lt_succ_self _, hfresh⟩
  · rw [hdb]
    exact (h.task u ms hu).2.known
  · obtain ⟨hlt, hn⟩ := (h.task u ms hu).2.num n hn
    rw [hdb, hnext]
    exact ⟨Nat.lt_succ_of_lt hlt, hn⟩
  · obtain rfl := Option.some.inj hn
    exact absurd ((h.task u ms hu).2.num _ hn').1 (Nat.lt_irrefl _)
  · rw [hdb] at hi
    rw [hnext]
    exact Nat.lt_succ_of_lt (h.below ino i hi)

section Commit

variable {b : Batch} {k : Key} {u : Nat} {ms : List Lock}

/-- What another task knows is not written. -/
lemma untouched (h : Good s locks κ) (ht : locks t = some ls) (hcov : (κ t).Covers b)
    (hut : u ≠ t) (hu : locks u = some ms) {o : Option k.Val} (hk : (κ u).known k = some o) :
    lastWrite k b = none := by
  by_contra hw
  obtain ⟨w, hmem, hkey⟩ := exists_of_lastWrite hw
  obtain ⟨hheld, htrue⟩ := h.task t ls ht
  obtain ⟨hheld', htrue'⟩ := h.task u ms hu
  obtain ⟨hguard, hlast⟩ := (κ u).owned k o hk
  have hno : k.guard ∉ (κ t).held := fun hg =>
    hut (h.apart u t ms ls _ hu ht (hheld' ▸ hguard) (hheld ▸ hg))
  have hmay := hcov w hmem k hkey
  cases k
  case inode ino =>
    rcases hmay with ⟨i, hi⟩ | hn
    · exact hno ((κ t).owned _ _ hi).1
    -- the number in hand is nobody's, so the other cannot have found a node there
    obtain rfl : none = o := ((htrue.num ino hn).2).symm.trans (htrue'.known _ o hk)
    exact Bool.false_ne_true hlast
  case symlink ino => exact Bool.false_ne_true hlast
  all_goals exact hno hmay

lemma commit (h : Good s locks κ) (ht : locks t = some ls) (hcov : (κ t).Covers b)
    (hdb : s'.db = s.db.apply b) (halloc : s'.mem.alloc = s.mem.alloc) :
    Good s' (update locks t (some ls)) (update κ t ((κ t).write b)) := by
  obtain ⟨hheld, htrue⟩ := h.task t ls ht
  -- a node is written only where there is one, or with the number in hand
  have hnode : ∀ ino, lastWrite (.inode ino) b ≠ none → (κ t).Has ino ∨ (κ t).num = some ino := by
    intro ino hw
    obtain ⟨w, hmem, hkey⟩ := exists_of_lastWrite hw
    exact hcov w hmem _ hkey
  refine h.moved hheld ⟨fun k o hk => ?_, nofun⟩
    (fun u ms hut hu => ⟨fun k o hk => ?_, fun n hn => ?_⟩)
    (h.apart_of ht fun _ hl => hl) nofun fun ino i hi => ?_
  · rw [hdb, Db.get_apply]
    unfold Known.write at hk
    dsimp only at hk
    split at hk
    · rename_i o' hw
      split at hk
      · rw [hw]
        exact Option.some.inj hk
      · cases hk
    · rename_i hw
      rw [hw]
      exact htrue.known k o hk
  · rw [hdb, Db.get_apply, h.untouched ht hcov hut hu hk]
    exact (h.task u ms hu).2.known k o hk
  · obtain ⟨hlt, hnone⟩ := (h.task u ms hu).2.num n hn
    refine ⟨halloc ▸ hlt, ?_⟩
    have hw : lastWrite (.inode n) b = none := by
      by_contra hw
      rcases hnode n hw with ⟨i, hi⟩ | hn'
      · cases (htrue.known _ _ hi).symm.trans hnone
      · exact hut (h.lone u t ms ls n hu ht hn hn')
    rw [hdb, Db.get_apply, hw]
    exact hnone
  · rw [halloc]
    by_cases hw : lastWrite (.inode ino) b = none
    · rw [hdb, Db.get_apply, hw] at hi
      exact h.below ino i hi
    · rcases hnode ino hw with ⟨i', hi'⟩ | hn
      · exact h.below ino i' (htrue.known _ _ hi')
      · exact (htrue.num ino hn).1

end Commit

/-- **A call keeps the accounts**, if it is one its task may make. -/
theorem call (h : Good s locks κ) (ht : locks t = some ls) {x : Call} {r : x.Ret}
    (hm : x.may s r s') : (κ t).Allows x r ∧ ((κ t).Asks x →
      Good s' (update locks t (some ls)) (update κ t ((κ t).after x r))) := by
  obtain ⟨hheld, htrue⟩ := h.task t ls ht
  have hother : moves x = false → (κ t).after x r = κ t →
      Good s' (update locks t (some ls)) (update κ t ((κ t).after x r)) :=
    fun hx ha => h.of_same ht (may_same hx hm) (congrArg _ ha) (congrArg _ ha)
      fun k o hk => htrue.known k o (ha ▸ hk)
  cases x
  case get k =>
    rcases hm with ⟨env, he⟩ | ⟨hf, rfl⟩
    · obtain ⟨rfl, rfl⟩ := Prod.mk.inj he
      refine ⟨fun o' hk => htrue.known k o' hk, fun _ => ?_⟩
      refine h.of_same ht ⟨fun _ => rfl, rfl⟩ Known.held_read Known.num_read fun k' o hk => ?_
      by_cases hkk : k' = k
      · subst hkk
        change ((κ t).read k' (s.db.get k')).known k' = some o at hk
        unfold Known.read at hk
        split at hk
        · change update (κ t).known k' _ k' = some o at hk
          rw [Function.update_self] at hk
          exact Option.some.inj hk
        · exact htrue.known k' o hk
      · exact htrue.known k' o ((Known.known_read_of_ne hkk).symm.trans hk)
    · obtain rfl := Option.some.inj hf
      exact ⟨trivial, fun _ => hother rfl rfl⟩
  case commit b =>
    rcases hm with ⟨env, he⟩ | ⟨hf, rfl⟩
    · obtain ⟨rfl, rfl⟩ := Prod.mk.inj he
      exact ⟨trivial, fun hcov => h.commit ht hcov rfl rfl⟩
    · obtain rfl := Option.some.inj hf
      exact ⟨trivial, fun _ => h.of_same ht ⟨fun _ => rfl, rfl⟩ rfl rfl htrue.known⟩
  case allocate =>
    rcases hm with ⟨env, he⟩ | ⟨hf, -⟩
    · obtain ⟨rfl, rfl⟩ := Prod.mk.inj he
      have hfst : s.mem.alloc.allocate.1.1 = s.mem.alloc.next := by
        unfold InodeAllocator.allocate
        split <;> rfl
      obtain ⟨hnone, hgood⟩ :
        _ ∧ Good { s with mem := { s.mem with alloc := s.mem.alloc.allocate.2 } }
        _ _ := h.allocate ht rfl rfl
      refine ⟨?_, fun _ => ?_⟩
      · show (κ t).known (.inode s.mem.alloc.allocate.1.1) = none
        rw [hfst]
        exact hnone
      · show Good _ _ (update κ t { κ t with num := some s.mem.alloc.allocate.1.1 })
        rw [hfst]
        exact hgood
    · cases hf
  all_goals exact ⟨trivial, fun _ => hother rfl rfl⟩

end Good

end SlateFs
