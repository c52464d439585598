import SlateFs.Shapes.Serves

/-!
# What a task knows of the records under its locks

A record belongs to a node, and the node's stripe guards it: nobody writes the record
without holding the stripe. So what a task has read under its locks stays true until it
writes the record itself, and a task can keep account of it. That account is `Known`.

One record is written without its stripe: the record of a node that is being created,
whose number no one else has. Such a number is part of the account too, and a node that
was not there when the task looked may be there later, so absence of a node is not
remembered.
-/

namespace SlateFs

open OrdMap

/-- The lock that guards a record. -/
def Key.guard (k : Key) : Lock := .stripe (stripeOf k.owner)

/-! ## The last write to a record -/

/-- What one write does to a record: nothing, or it leaves the given value. -/
def Write.to (k : Key) : Write → Option (Option k.Val)
  | .put k' x => if h : k' = k then some (some (h ▸ x)) else none
  | .delete k' => if k' = k then some none else none
  | .mergeBytes _ | .mergeInodes _ => none

/-- What a batch leaves of a record, if it writes it. -/
def lastWrite (k : Key) : Batch → Option (Option k.Val)
  | [] => none
  | w :: b => (lastWrite k b).or (w.to k)

section LastWrite

variable {k k' : Key} {b b' : Batch}

@[simp] lemma to_put_self (x : k.Val) : (Write.put k x).to k = some (some x) := dif_pos rfl

lemma to_put_of_ne (h : k' ≠ k) (x : k'.Val) : (Write.put k' x).to k = none := dif_neg h

@[simp] lemma to_delete_self : (Write.delete k).to k = some none := if_pos rfl

lemma to_delete_of_ne (h : k' ≠ k) : (Write.delete k').to k = none := if_neg h

@[simp] lemma lastWrite_cons (w : Write) :
    lastWrite k (w :: b) = (lastWrite k b).or (w.to k) := rfl

/-- The record a write is about. -/
def Write.key : Write → Option Key
  | .put k _ | .delete k => some k
  | .mergeBytes _ | .mergeInodes _ => none

lemma Write.to_of_key_ne {w : Write} (h : w.key ≠ some k) : w.to k = none := by
  cases w with
  | put k' x => exact to_put_of_ne (fun he => h (congrArg some he)) x
  | delete k' => exact to_delete_of_ne fun he => h (congrArg some he)
  | mergeBytes d => rfl
  | mergeInodes d => rfl

lemma lastWrite_eq_none (h : ∀ w ∈ b, w.key ≠ some k) : lastWrite k b = none := by
  induction b with
  | nil => rfl
  | cons w b ih =>
    rw [lastWrite_cons, ih fun w' hw => h w' (List.mem_cons_of_mem _ hw),
      Write.to_of_key_ne (h w List.mem_cons_self)]
    rfl

lemma exists_of_lastWrite (h : lastWrite k b ≠ none) : ∃ w ∈ b, w.key = some k := by
  by_contra hno
  exact h (lastWrite_eq_none fun w hw he => hno ⟨w, hw, he⟩)

variable (db : Db)

lemma Db.get_put_self (k : Key) (x : k.Val) : (db.put k x).get k = some x := by
  cases k <;> exact get?_insert_self ..

lemma Db.get_put_of_ne (h : k ≠ k') (x : k'.Val) : (db.put k' x).get k = db.get k := by
  cases k <;> cases k' <;> first
    | rfl
    | (refine get?_insert_of_ne _ _ fun he => h ?_
       first | rw [he] | (obtain ⟨rfl, rfl⟩ := Prod.mk.inj (toLex.injective he); rfl))

lemma Db.get_delete_self (k : Key) : (db.delete k).get k = none := by
  cases k <;> exact get?_erase_self ..

lemma Db.get_delete_of_ne (h : k ≠ k') : (db.delete k').get k = db.get k := by
  cases k <;> cases k' <;> first
    | rfl
    | (refine get?_erase_of_ne _ fun he => h ?_
       first | rw [he] | (obtain ⟨rfl, rfl⟩ := Prod.mk.inj (toLex.injective he); rfl))

lemma Db.get_applyWrite (w : Write) (k : Key) :
    (db.applyWrite w).get k = (w.to k).getD (db.get k) := by
  cases w with
  | put k' x =>
    by_cases h : k = k'
    · subst h
      rw [to_put_self]
      exact db.get_put_self k x
    · rw [to_put_of_ne (Ne.symm h)]
      exact db.get_put_of_ne h x
  | delete k' =>
    by_cases h : k = k'
    · subst h
      rw [to_delete_self]
      exact db.get_delete_self k
    · rw [to_delete_of_ne (Ne.symm h)]
      exact db.get_delete_of_ne h
  | mergeBytes d => cases k <;> rfl
  | mergeInodes d => cases k <;> rfl

/-- **A record after a batch** is what the last write left of it. -/
theorem Db.get_apply (b : Batch) (k : Key) :
    (db.apply b).get k = (lastWrite k b).getD (db.get k) := by
  induction b generalizing db with
  | nil => rfl
  | cons w b ih =>
    rw [Db.apply_cons, ih, lastWrite_cons, Db.get_applyWrite]
    cases lastWrite k b <;> rfl

/-! For the two kinds of record that matter most the last write is a plain function. -/

/-- What a write does to a node. -/
def Write.toNode (ino : Ino) : Write → Option (Option Inode)
  | .put (.inode j) i => if j = ino then some (some i) else none
  | .delete (.inode j) => if j = ino then some none else none
  | _ => none

/-- What a write does to a name. -/
def Write.toName (p : Ino) (enc : Bytes) : Write → Option (Option Dirent)
  | .put (.dirent q e) d => if q = p ∧ e = enc then some (some d) else none
  | .delete (.dirent q e) => if q = p ∧ e = enc then some none else none
  | _ => none

def lastNode (ino : Ino) : Batch → Option (Option Inode)
  | [] => none
  | w :: b => (lastNode ino b).or (w.toNode ino)

def lastName (p : Ino) (enc : Bytes) : Batch → Option (Option Dirent)
  | [] => none
  | w :: b => (lastName p enc b).or (w.toName p enc)

lemma Write.to_inode (ino : Ino) (w : Write) :
    w.to (.inode ino) = w.toNode ino := by
  by_cases h : w.key = some (.inode ino)
  · cases w with
    | put k x =>
      obtain rfl := Option.some.inj h
      exact (to_put_self x).trans (if_pos rfl).symm
    | delete k =>
      obtain rfl := Option.some.inj h
      exact to_delete_self.trans (if_pos rfl).symm
    | _ => cases h
  · rw [to_of_key_ne h]
    unfold toNode
    split
    · exact (if_neg (by rintro rfl; exact h rfl)).symm
    · exact (if_neg (by rintro rfl; exact h rfl)).symm
    · rfl

lemma Write.to_dirent (p : Ino) (enc : Bytes) (w : Write) :
    w.to (.dirent p enc) = w.toName p enc := by
  by_cases h : w.key = some (.dirent p enc)
  · cases w with
    | put k x =>
      obtain rfl := Option.some.inj h
      exact (to_put_self x).trans (if_pos ⟨rfl, rfl⟩).symm
    | delete k =>
      obtain rfl := Option.some.inj h
      exact to_delete_self.trans (if_pos ⟨rfl, rfl⟩).symm
    | _ => cases h
  · rw [to_of_key_ne h]
    unfold toName
    split
    · exact (if_neg (by rintro ⟨rfl, rfl⟩; exact h rfl)).symm
    · exact (if_neg (by rintro ⟨rfl, rfl⟩; exact h rfl)).symm
    · rfl

lemma lastWrite_inode (ino : Ino) (b : Batch) : lastWrite (.inode ino) b = lastNode ino b := by
  induction b with
  | nil => rfl
  | cons w b ih => rw [lastWrite_cons, ih, Write.to_inode]; rfl

lemma lastWrite_dirent (p : Ino) (enc : Bytes) (b : Batch) :
    lastWrite (.dirent p enc) b = lastName p enc b := by
  induction b with
  | nil => rfl
  | cons w b ih => rw [lastWrite_cons, ih, Write.to_dirent]; rfl

@[simp] lemma lastNode_append (ino : Ino) :
    lastNode ino (b ++ b') = (lastNode ino b').or (lastNode ino b) := by
  induction b with
  | nil => simp [lastNode]
  | cons w b ih => simp [lastNode, ih, Option.or_assoc]

@[simp] lemma lastName_append (p : Ino) (enc : Bytes) :
    lastName p enc (b ++ b') = (lastName p enc b').or (lastName p enc b) := by
  induction b with
  | nil => simp [lastName]
  | cons w b ih => simp [lastName, ih, Option.or_assoc]

end LastWrite

/-! ## The account -/

/-- Whether a finding lasts. A node that is not there may be created, with its link target,
by a task that does not hold its stripe. -/
def lasting : (k : Key) → Option k.Val → Bool
  | .inode _, o => o.isSome
  | .symlink _, _ => false
  | _, _ => true

/-- What a task knows. -/
structure Known where
  held : List Lock
  /-- Records read or written under the locks. -/
  known : (k : Key) → Option (Option k.Val)
  /-- A number allocated and not used yet. -/
  num : Option Ino
  owned : ∀ k o, known k = some o → k.guard ∈ held ∧ lasting k o = true

namespace Known

lemma ext {κ κ' : Known} (hh : κ.held = κ'.held) (hk : ∀ k, κ.known k = κ'.known k)
    (hn : κ.num = κ'.num) : κ = κ' := by
  obtain ⟨held, known, num, _⟩ := κ
  obtain ⟨held', known', num', _⟩ := κ'
  obtain rfl : held = held' := hh
  obtain rfl : known = known' := funext hk
  obtain rfl : num = num' := hn
  rfl

/-- No stripe is held, so nothing is known. -/
def Bare (κ : Known) : Prop := ∀ i, Lock.stripe i ∉ κ.held

lemma Bare.known {κ : Known} (h : κ.Bare) (k : Key) : κ.known k = none := by
  cases hk : κ.known k with
  | none => rfl
  | some o => exact absurd (κ.owned k o hk).1 (h _)

/-- Nothing held, nothing known. -/
def blank : Known := ⟨[], fun _ => none, none, nofun⟩

def acq (l : Lock) (κ : Known) : Known :=
  { κ with
    held := l :: κ.held
    owned := fun k o hk => ⟨List.mem_cons_of_mem _ (κ.owned k o hk).1, (κ.owned k o hk).2⟩ }

/-- Dropping a lock, the task forgets what it guarded. -/
def rel (l : Lock) (κ : Known) : Known where
  held := κ.held.erase l
  known k := if k.guard ∈ κ.held.erase l then κ.known k else none
  num := κ.num
  owned k o hk := by
    split at hk
    · rename_i hg
      exact ⟨hg, (κ.owned k o hk).2⟩
    · cases hk

/-- A record was read. -/
def read (k : Key) (o : Option k.Val) (κ : Known) : Known :=
  if hg : k.guard ∈ κ.held ∧ lasting k o = true then
    { κ with
      known := Function.update κ.known k (some o)
      owned := fun k' o' hk => by
        by_cases he : k' = k
        · subst he
          rw [Function.update_self] at hk
          exact Option.some.inj hk ▸ hg
        · rw [Function.update_of_ne he] at hk
          exact κ.owned k' o' hk }
  else κ

/-- A batch was committed. -/
def write (b : Batch) (κ : Known) : Known where
  held := κ.held
  known k := match lastWrite k b with
    | some o => if k.guard ∈ κ.held ∧ lasting k o = true then some o else none
    | none => κ.known k
  num := none
  owned k o hk := by
    split at hk
    · split at hk
      · rename_i hg
        exact Option.some.inj hk ▸ hg
      · cases hk
    · exact κ.owned k o hk

/-- How calls move the account. -/
def after : (c : Call) → c.Ret → Known → Known
  | .get k, .ok o, κ => κ.read k o
  | .commit b, .ok _, κ => κ.write b
  | .allocate, r, κ => { κ with num := some r.1 }
  | _, _, κ => κ

/-- The answers that agree with the account. -/
def Allows : (c : Call) → c.Ret → Known → Prop
  | .get k, .ok o, κ => ∀ o', κ.known k = some o' → o = o'
  | .allocate, r, κ => κ.known (.inode r.1) = none
  | _, _, _ => True

/-- What is known of a node. -/
def node (κ : Known) (ino : Ino) : Option (Option Inode) := κ.known (.inode ino)

/-- A node is known to exist. -/
def Has (κ : Known) (ino : Ino) : Prop := ∃ i, κ.known (.inode ino) = some (some i)

/-- A task may write a record: it holds the lock, and a node is there; or the node has
the number in hand. -/
def MayWrite (κ : Known) : Key → Prop
  | .inode ino => κ.Has ino ∨ κ.num = some ino
  | .symlink ino => Key.guard (.symlink ino) ∈ κ.held ∨ κ.num = some ino
  | k => k.guard ∈ κ.held

section Has

variable {κ : Known} {ino : Ino} (h : κ.Has ino)
include h

lemma Has.held : Lock.stripe (stripeOf ino) ∈ κ.held := by
  obtain ⟨i, hi⟩ := h
  exact (κ.owned _ _ hi).1

lemma Has.node : κ.MayWrite (.inode ino) := .inl h

lemma Has.name (enc : Bytes) : κ.MayWrite (.dirent ino enc) := h.held

lemma Has.idx (id : Nat) : κ.MayWrite (.direntIdx ino id) := h.held

end Has

/-- Every write of the batch is to such a record. -/
def Covers (κ : Known) (b : Batch) : Prop := ∀ w ∈ b, ∀ k, w.key = some k → κ.MayWrite k

/-- What is asked of a call. -/
def Asks (κ : Known) : Call → Prop
  | .commit b => κ.Covers b
  | _ => True

section

variable {κ κ' κ'' : Known} {k k' : Key} {o : Option k.Val}

lemma known_read_self (hg : k.guard ∈ κ.held) (hl : lasting k o = true) :
    (κ.read k o).known k = some o := by
  rw [read, dif_pos ⟨hg, hl⟩]
  exact Function.update_self ..

lemma known_read_of_ne (h : k' ≠ k) : (κ.read k o).known k' = κ.known k' := by
  unfold read
  split
  · exact Function.update_of_ne h ..
  · rfl

@[simp] lemma held_read : (κ.read k o).held = κ.held := by
  unfold read
  split <;> rfl

@[simp] lemma num_read : (κ.read k o).num = κ.num := by
  unfold read
  split <;> rfl

/-! ### Batches -/

variable {b b' : Batch}

@[simp] lemma covers_nil : κ.Covers [] := nofun

lemma covers_cons {w : Write} :
    κ.Covers (w :: b) ↔ (∀ k, w.key = some k → κ.MayWrite k) ∧ κ.Covers b := List.forall_mem_cons

@[simp] lemma covers_append : κ.Covers (b ++ b') ↔ κ.Covers b ∧ κ.Covers b' := by
  simp only [Covers, List.mem_append]
  exact ⟨fun h => ⟨fun w hw => h w (.inl hw), fun w hw => h w (.inr hw)⟩,
    fun h w hw => hw.elim (h.1 w) (h.2 w)⟩

variable {ino : Ino}

lemma covers_sweeps (hg : Lock.stripe (stripeOf ino) ∈ κ.held) (hb : Track.Sweeps ino b) :
    κ.Covers b := by
  intro w hw k hk
  obtain ⟨k', hbody, rfl⟩ := hb w hw
  obtain rfl := Option.some.inj hk
  cases k' <;> first | exact hbody.elim | obtain rfl := hbody
  case symlink => exact .inl hg
  all_goals exact hg

lemma known_write (hw : lastWrite k b = some o) (hg : k.guard ∈ κ.held)
    (hl : lasting k o = true) : (κ.write b).known k = some o := by
  unfold write
  dsimp only
  rw [hw]
  exact if_pos ⟨hg, hl⟩

lemma known_write_node {i : Inode} (hw : lastNode ino b = some (some i))
    (hg : Lock.stripe (stripeOf ino) ∈ κ.held) :
    (κ.write b).known (.inode ino) = some (some i) :=
  known_write ((lastWrite_inode ino b).trans hw) hg rfl

lemma known_write_name {p : Ino} {enc : Bytes} {d : Option Dirent}
    (hw : lastName p enc b = some d) (hg : Lock.stripe (stripeOf p) ∈ κ.held) :
    (κ.write b).known (.dirent p enc) = some d :=
  known_write ((lastWrite_dirent p enc b).trans hw) hg rfl

/-! ### Looking -/

/-- More is known, and nothing else has changed. -/
structure Grows (κ κ' : Known) : Prop where
  held : κ'.held = κ.held
  num : κ'.num = κ.num
  known : ∀ k o, κ.known k = some o → κ'.known k = some o

lemma Grows.refl (κ : Known) : κ.Grows κ := ⟨rfl, rfl, fun _ _ h => h⟩

lemma Grows.trans (h : κ.Grows κ') (h' : κ'.Grows κ'') : κ.Grows κ'' :=
  ⟨h'.held.trans h.held, h'.num.trans h.num, fun k o hk => h'.known k o (h.known k o hk)⟩

lemma Grows.has (h : κ.Grows κ') (hi : κ.Has ino) : κ'.Has ino := by
  obtain ⟨i, hi⟩ := hi
  exact ⟨i, h.known _ _ hi⟩

lemma Grows.bare (h : κ.Grows κ') (hb : κ.Bare) : κ' = κ := by
  have hb' : κ'.Bare := fun i hi => hb i (h.held ▸ hi)
  exact ext h.held (fun k => (hb'.known k).trans (hb.known k).symm) h.num

lemma grows_after {c : Call} {r : c.Ret} (hc : c.isPlain = true) (ha : κ.Allows c r) :
    κ.Grows (κ.after c r) := by
  cases c
  case get k =>
    cases r with
    | error e => exact .refl κ
    | ok o =>
      refine ⟨held_read, num_read, fun k' o' hk => ?_⟩
      by_cases he : k' = k
      · subst he
        obtain rfl := ha o' hk
        exact known_read_self (κ.owned k' o hk).1 (κ.owned k' o hk).2
      · exact (known_read_of_ne he).trans hk
  all_goals first | exact .refl κ | cases hc

lemma foldl_erase (ls p m : List Lock) (h : ls.Perm p) : ls.foldl List.erase (p ++ m) = m := by
  induction ls generalizing p with
  | nil => rw [List.nil_perm.mp h]; rfl
  | cons l ls ih =>
    have hl : l ∈ p := h.subset List.mem_cons_self
    rw [List.foldl_cons, List.erase_append_left _ hl]
    exact ih _ (List.cons_perm_iff_perm_erase.mp h).2

end

end Known

/-! ## Tracks that keep an account -/

/-- What a track follows beside the account. -/
structure Knowing (Δ : Type) where
  can : (c : Call) → Δ → c.Ret → Prop
  ok : (c : Call) → Known → Δ → c.Ret → Prop
  next : (c : Call) → Known → Δ → c.Ret → Δ
  plain : ∀ c κ δ r, c.isPlain = true → ok c κ δ r ∧ next c κ δ r = δ

namespace Knowing

variable {Δ : Type} (𝒦 : Knowing Δ)

def track : Track (Known × Δ) where
  can c γ r := γ.1.Allows c r ∧ 𝒦.can c γ.2 r
  ok c γ r := γ.1.Asks c ∧ 𝒦.ok c γ.1 γ.2 r
  next c γ r := (γ.1.after c r, 𝒦.next c γ.1 γ.2 r)
  acq l γ := (γ.1.acq l, γ.2)
  rel l γ := (γ.1.rel l, γ.2)
  plain c γ r hc := by
    refine ⟨?_, (𝒦.plain c γ.1 γ.2 r hc).1⟩
    cases c <;> trivial

variable {𝒦} {γ γ' : Known × Δ}

lemma saw (h : 𝒦.track.Saw γ γ') : γ.1.Grows γ'.1 ∧ γ'.2 = γ.2 := by
  induction h with
  | refl => exact ⟨.refl _, rfl⟩
  | look _ hc hr ih =>
    exact ⟨ih.1.trans (Known.grows_after hc hr.1), ((𝒦.plain _ _ _ _ hc).2).trans ih.2⟩

lemma acqAll_held (ls : List Lock) (γ : Known × Δ) :
    (𝒦.track.acqAll ls γ).1.held = ls.reverse ++ γ.1.held := by
  induction ls generalizing γ with
  | nil => rfl
  | cons l ls ih =>
    rw [List.reverse_cons, List.append_assoc]
    exact ih (γ.1.acq l, γ.2)

lemma acqAll_rest (ls : List Lock) (γ : Known × Δ) :
    (𝒦.track.acqAll ls γ).1.num = γ.1.num ∧ (𝒦.track.acqAll ls γ).2 = γ.2 := by
  induction ls generalizing γ with
  | nil => exact ⟨rfl, rfl⟩
  | cons l ls ih => exact ih (γ.1.acq l, γ.2)

lemma relAll_held (ls : List Lock) (γ : Known × Δ) :
    (𝒦.track.relAll ls γ).1.held = ls.foldl List.erase γ.1.held := by
  induction ls generalizing γ with
  | nil => rfl
  | cons l ls ih => exact ih (γ.1.rel l, γ.2)

lemma relAll_rest (ls : List Lock) (γ : Known × Δ) :
    (𝒦.track.relAll ls γ).1.num = γ.1.num ∧ (𝒦.track.relAll ls γ).2 = γ.2 := by
  induction ls generalizing γ with
  | nil => exact ⟨rfl, rfl⟩
  | cons l ls ih => exact ih (γ.1.rel l, γ.2)

variable {ls : List Lock}

/-- Dropping the locks again leaves nothing but what the track follows. -/
lemma relAll_eq (hb : γ.1.Bare) (hheld : γ'.1.held = (𝒦.track.acqAll ls γ).1.held)
    (hnum : γ'.1.num = γ.1.num) (hδ : γ'.2 = γ.2) : 𝒦.track.relAll ls γ' = γ := by
  have hh : (𝒦.track.relAll ls γ').1.held = γ.1.held := by
    rw [relAll_held, hheld, acqAll_held]
    exact Known.foldl_erase _ _ _ (List.reverse_perm ls).symm
  have hb' : (𝒦.track.relAll ls γ').1.Bare := fun i hi => hb i (hh ▸ hi)
  refine Prod.ext (Known.ext hh (fun k => ?_) ((relAll_rest ls γ').1.trans hnum))
    ((relAll_rest ls γ').2.trans hδ)
  rw [hb'.known, hb.known]

lemma quiet (hb : γ.1.Bare) : 𝒦.track.Quiet γ where
  still γ' h := Prod.ext ((saw h).1.bare hb) (saw h).2
  back ls γ' h := by
    obtain ⟨hg, hδ⟩ := saw h
    exact relAll_eq hb hg.held (hg.num.trans (acqAll_rest ls γ).1) (hδ.trans (acqAll_rest ls γ).2)

lemma bare_acq_rename (hb : γ.1.Bare) : (𝒦.track.acqAll [.rename] γ).1.Bare := by
  intro i hi
  rcases List.mem_cons.mp hi with h | h
  · cases h
  · exact hb i h

/-- What was read under a lock that is still held is on the account. -/
lemma known_of_knows {k : Key} {o : Option k.Val} (h : 𝒦.track.Knows γ k o)
    (hg : k.guard ∈ γ.1.held) (hl : lasting k o = true) : γ.1.known k = some o := by
  obtain ⟨γ₀, -, hsaw⟩ := h
  obtain ⟨hgrows, -⟩ := saw hsaw
  refine hgrows.known k o (Known.known_read_self ?_ hl)
  rw [hgrows.held] at hg
  exact (Known.held_read) ▸ hg

lemma mem_held {l : Lock} (hl : l ∈ ls) (h : 𝒦.track.Saw (𝒦.track.acqAll ls γ) γ') :
    l ∈ γ'.1.held := by
  rw [(saw h).1.held, acqAll_held]
  exact List.mem_append_left _ (List.mem_reverse.mpr hl)

end Knowing

end SlateFs
