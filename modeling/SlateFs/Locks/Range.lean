import SlateFs.Locks.Order

/-!
# Advisory locks, byte by byte

The lock table keeps, for every inode, a list of intervals with an owner and a mode.
What it stands for is simpler: for every byte, who holds it and in which mode. Locking
sets the owner's mode on a range, unlocking clears it, and closing a handle clears all
its owner had. This module shows that the intervals are kept so that the two agree.

An interval runs up to its end and does not include it. The largest end stands for the
end of the file; no file has a byte at that position, so a range that reaches it covers
every byte from its start on.
-/

namespace SlateFs

open OrdMap Threads LockRange

/-- The byte is in the range. -/
def LockRange.Covers (r : LockRange) (p : Nat) : Prop := r.start ≤ p ∧ p < r.stop

instance (r : LockRange) (p : Nat) : Decidable (r.Covers p) := inferInstanceAs (Decidable (_ ∧ _))

instance (r : LockRange) : Decidable r.Valid := inferInstanceAs (Decidable (_ < _))

/-- Ranges with bytes overlap when they have a byte in common. -/
lemma LockRange.overlaps_iff {a b : LockRange} (ha : a.Valid) (hb : b.Valid) :
    a.overlaps b = true ↔ ∃ p, a.Covers p ∧ b.Covers p := by
  unfold Valid at ha hb
  constructor
  · intro h
    have h' : a.start < b.stop ∧ b.start < a.stop := by simpa [overlaps] using h
    refine ⟨max a.start b.start, ⟨?_, ?_⟩, ⟨?_, ?_⟩⟩ <;> omega
  · intro h
    obtain ⟨p, ⟨h₁, h₂⟩, ⟨h₃, h₄⟩⟩ := h
    have h' : a.start < b.stop ∧ b.start < a.stop := by omega
    simpa [overlaps] using h'

namespace RangeLockTable

/-! ## Bytes of a list of intervals -/

section Intervals

variable {locks : List RangeLock} {owner : Nat} {range : LockRange} {l a b : RangeLock} {p : Nat}

/-- Two locks that may be held together: an owner has no byte twice, and owners share a
byte only if none of them wants it alone. -/
def Compatible (a b : RangeLock) : Prop :=
  ∀ p, a.range.Covers p → b.range.Covers p →
    a.owner ≠ b.owner ∧ a.exclusive = false ∧ b.exclusive = false

instance : Std.Symm Compatible where
  symm a b h p hb ha := by
    obtain ⟨h₁, h₂, h₃⟩ := h p ha hb
    exact ⟨Ne.symm h₁, h₃, h₂⟩

/-- The intervals of one inode as they are kept. -/
structure Tidy (locks : List RangeLock) : Prop where
  valid : ∀ l ∈ locks, l.range.Valid
  compatible : locks.Pairwise Compatible

lemma tidy_nil : Tidy [] := ⟨nofun, .nil⟩

/-- An owner holds a byte in a mode. -/
def Holds (locks : List RangeLock) (owner p : Nat) (m : Bool) : Prop :=
  ∃ l ∈ locks, l.owner = owner ∧ l.range.Covers p ∧ l.exclusive = m

/-- The mode in which an owner holds a byte. -/
def modeAt (locks : List RangeLock) (owner p : Nat) : Option Bool :=
  (locks.find? (fun l => l.owner = owner ∧ l.range.Covers p)).map (·.exclusive)

/-- An owner's byte is in one interval only. -/
lemma Tidy.unique (h : Tidy locks) (ha : a ∈ locks) (hb : b ∈ locks) (ho : a.owner = b.owner)
    (hpa : a.range.Covers p) (hpb : b.range.Covers p) : a = b := by
  by_contra hne
  exact (h.compatible.forall ha hb hne p hpa hpb).1 ho

lemma Tidy.modeAt_eq_some (h : Tidy locks) {m : Bool} :
    modeAt locks owner p = some m ↔ Holds locks owner p m := by
  unfold modeAt
  constructor
  · intro hm
    obtain ⟨l, hl, rfl⟩ := Option.map_eq_some_iff.mp hm
    have hp : l.owner = owner ∧ l.range.Covers p := by simpa using List.find?_some hl
    exact ⟨l, List.mem_of_find?_eq_some hl, hp.1, hp.2, rfl⟩
  · intro hex
    obtain ⟨l, hl, ho, hp, rfl⟩ := hex
    cases hf : locks.find? (fun l => l.owner = owner ∧ l.range.Covers p) with
    | none =>
      have hno : l.owner = owner → ¬l.range.Covers p := by
        simpa using List.find?_eq_none.mp hf l hl
      exact absurd hp (hno ho)
    | some l' =>
      have hp' : l'.owner = owner ∧ l'.range.Covers p := by simpa using List.find?_some hf
      have := h.unique hl (List.mem_of_find?_eq_some hf) (ho.trans hp'.1.symm) hp hp'.2
      rw [this]
      rfl

/-- What changes for a byte is what changes in the list. -/
lemma Tidy.modeAt_eq {locks' : List RangeLock} (h : Tidy locks) (h' : Tidy locks') {c : Prop}
    [Decidable c] {m₀ : Option Bool} (hin : c → ∀ m, Holds locks' owner p m ↔ m₀ = some m)
    (hout : ¬c → ∀ m, Holds locks' owner p m ↔ Holds locks owner p m) :
    modeAt locks' owner p = if c then m₀ else modeAt locks owner p := by
  split
  · rename_i hc
    exact Option.ext fun m => h'.modeAt_eq_some.trans (hin hc m)
  · rename_i hc
    exact Option.ext fun m => (h'.modeAt_eq_some.trans (hout hc m)).trans h.modeAt_eq_some.symm

/-! ## Carving -/

/-- A part of a lock. -/
structure Part (a l : RangeLock) : Prop where
  owner : a.owner = l.owner
  exclusive : a.exclusive = l.exclusive
  within : ∀ p, a.range.Covers p → l.range.Covers p

lemma Part.refl (l : RangeLock) : Part l l := ⟨rfl, rfl, fun _ h => h⟩

lemma Part.compatible {a' b' : RangeLock} (ha : Part a' a) (hb : Part b' b)
    (h : Compatible a b) : Compatible a' b' := by
  intro p hpa hpb
  rw [ha.owner, hb.owner, ha.exclusive, hb.exclusive]
  exact h p (ha.within p hpa) (hb.within p hpb)

lemma mem_survivors : a ∈ survivors l range ↔
    a = { l with range := ⟨l.range.start, range.start⟩ } ∧ l.range.start < range.start ∨
      a = { l with range := ⟨range.stop, l.range.stop⟩ } ∧ range.stop < l.range.stop := by
  rw [survivors, List.mem_append]
  split <;> split <;> simp [*]

lemma overlaps_of (h : l.range.overlaps range = true) :
    l.range.start < range.stop ∧ range.start < l.range.stop := by
  simpa [overlaps] using h

lemma part_of_survivors (hover : l.range.overlaps range = true) (h : a ∈ survivors l range) :
    Part a l := by
  have := overlaps_of hover
  rcases mem_survivors.mp h with ⟨rfl, -⟩ | ⟨rfl, -⟩
  all_goals
    refine ⟨rfl, rfl, fun p hp => ?_⟩
    simp only [LockRange.Covers] at hp ⊢
    omega

lemma covers_survivors (hover : l.range.overlaps range = true) :
    (∃ a ∈ survivors l range, a.range.Covers p) ↔ l.range.Covers p ∧ ¬range.Covers p := by
  have := overlaps_of hover
  simp only [mem_survivors, or_and_right, exists_or, and_assoc, exists_eq_left, LockRange.Covers]
  omega

lemma survivors_apart (hr : range.Valid) : (survivors l range).Pairwise Compatible := by
  unfold LockRange.Valid at hr
  have hapart : Compatible { l with range := ⟨l.range.start, range.start⟩ }
      { l with range := ⟨range.stop, l.range.stop⟩ } := by
    intro p hpa hpb
    simp only [LockRange.Covers] at hpa hpb
    omega
  rw [survivors]
  split <;> split <;> simp [hapart]

lemma mem_carve : a ∈ carve locks owner range ↔
    (a ∈ locks ∧ ¬(a.owner = owner ∧ a.range.overlaps range = true)) ∨
      ∃ l ∈ locks, l.owner = owner ∧ l.range.overlaps range = true ∧ a ∈ survivors l range := by
  unfold carve
  simp only [List.mem_append, List.mem_filter, List.mem_flatMap, Bool.not_eq_true',
    Bool.and_eq_false_imp, Bool.and_eq_true, decide_eq_true_eq, and_assoc, not_and,
    Bool.not_eq_true]

lemma part_of_carve (h : a ∈ carve locks owner range) : ∃ l ∈ locks, Part a l := by
  rcases mem_carve.mp h with ⟨ha, -⟩ | ⟨l, hl, -, hover, ha⟩
  · exact ⟨a, ha, .refl a⟩
  · exact ⟨l, hl, part_of_survivors hover ha⟩

/-- **Carving takes the owner's bytes in the range, and nothing else.** -/
theorem holds_carve {o : Nat} {m : Bool} : Holds (carve locks owner range) o p m ↔
    Holds locks o p m ∧ ¬(o = owner ∧ range.Covers p) := by
  constructor
  · intro h
    obtain ⟨a, ha, rfl, hp, rfl⟩ := h
    rcases mem_carve.mp ha with ⟨ha, hno⟩ | ⟨l, hl, ho, hover, ha⟩
    · refine ⟨⟨a, ha, rfl, hp, rfl⟩, fun hin => hno ⟨hin.1, ?_⟩⟩
      have hr := hin.2
      simp only [LockRange.Covers] at hp hr
      simp only [overlaps, Bool.and_eq_true, decide_eq_true_eq]
      omega
    · have hpart := part_of_survivors hover ha
      have hout := (covers_survivors hover).mp ⟨a, ha, hp⟩
      exact ⟨⟨l, hl, hpart.owner.symm, hout.1, hpart.exclusive.symm⟩, fun hin => hout.2 hin.2⟩
  · intro h
    obtain ⟨⟨l, hl, rfl, hp, rfl⟩, hout⟩ := h
    by_cases hit : l.owner = owner ∧ l.range.overlaps range = true
    · have hnot : ¬range.Covers p := fun hr => hout ⟨hit.1, hr⟩
      obtain ⟨a, ha, hpa⟩ := (covers_survivors hit.2).mpr ⟨hp, hnot⟩
      have hpart := part_of_survivors hit.2 ha
      exact ⟨a, mem_carve.mpr (.inr ⟨l, hl, hit.1, hit.2, ha⟩), hpart.owner, hpa, hpart.exclusive⟩
    · exact ⟨l, mem_carve.mpr (.inl ⟨hl, hit⟩), rfl, hp, rfl⟩

lemma Tidy.carve (h : Tidy locks) (owner : Nat) (hr : range.Valid) :
    Tidy (carve locks owner range) := by
  refine ⟨fun a ha => ?_, ?_⟩
  · rcases mem_carve.mp ha with ⟨ha, -⟩ | ⟨l, hl, -, -, ha⟩
    · exact h.valid a ha
    · rcases mem_survivors.mp ha with ⟨rfl, hlt⟩ | ⟨rfl, hlt⟩ <;> exact hlt
  · refine List.pairwise_append.mpr ⟨h.compatible.filter _, ?_, fun a ha b hb => ?_⟩
    · refine List.pairwise_flatMap.mpr ⟨fun l hl => survivors_apart hr, ?_⟩
      refine (h.compatible.filter _).imp_of_mem fun {l l'} hl hl' hc a ha b hb => ?_
      -- pieces of two locks are apart because the locks are
      have hit := (List.mem_filter.mp hl).2
      have hit' := (List.mem_filter.mp hl').2
      simp only [Bool.and_eq_true, decide_eq_true_eq] at hit hit'
      exact (part_of_survivors hit.2 ha).compatible (part_of_survivors hit'.2 hb) hc
    · obtain ⟨l, hl, hb⟩ := List.mem_flatMap.mp hb
      obtain ⟨hl, hit⟩ := List.mem_filter.mp hl
      obtain ⟨ha, hno⟩ := List.mem_filter.mp ha
      have hne : a ≠ l := by
        intro he
        subst he
        simp only [Bool.not_eq_true'] at hno
        exact Bool.false_ne_true (hno.symm.trans hit)
      simp only [Bool.and_eq_true, decide_eq_true_eq] at hit
      exact (Part.refl a).compatible (part_of_survivors hit.2 hb) (h.compatible.forall ha hl hne)

/-- **A new lock sets the owner's mode on its range.** -/
theorem Tidy.push (h : Tidy locks) (hl : l.range.Valid) (hno : conflict locks l = none) :
    Tidy (RangeLockTable.carve locks l.owner l.range ++ [l]) := by
  have hcarve := h.carve l.owner hl
  refine ⟨fun a ha => ?_, List.pairwise_append.mpr ⟨hcarve.compatible, List.pairwise_singleton ..,
    fun a ha b hb => ?_⟩⟩
  · rcases List.mem_append.mp ha with ha | ha
    · exact hcarve.valid a ha
    · exact List.mem_singleton.mp ha ▸ hl
  · obtain rfl := List.mem_singleton.mp hb
    intro p hpa hpb
    -- the owner has no byte of the range any more, and another owner does not object
    have hne : a.owner ≠ b.owner := by
      intro ho
      have := (holds_carve.mp ⟨a, ha, rfl, hpa, rfl⟩).2
      exact this ⟨ho, hpb⟩
    obtain ⟨l', hl', hpart⟩ := part_of_carve ha
    have hover : l'.range.overlaps b.range = true :=
      (overlaps_iff (h.valid l' hl') hl).mpr ⟨p, hpart.within p hpa, hpb⟩
    have hquiet := List.find?_eq_none.mp hno l' hl'
    have hne' : l'.owner ≠ b.owner := hpart.owner ▸ hne
    simp only [hover, ne_eq, hne', not_false_eq_true, decide_true, Bool.and_true, Bool.true_and,
      Bool.or_eq_true, not_or, Bool.not_eq_true] at hquiet
    exact ⟨hne, hpart.exclusive.trans hquiet.1, hquiet.2⟩

/-- Somebody else holds a byte of the range, and one of the two wants it alone. -/
def Blocks (mode : Nat → Nat → Option Bool) (l : RangeLock) : Prop :=
  ∃ o p m, o ≠ l.owner ∧ l.range.Covers p ∧ mode o p = some m ∧ (m = true ∨ l.exclusive = true)

/-- **A lock is refused exactly when a byte of it is taken.** -/
theorem Tidy.conflict_iff (h : Tidy locks) (hl : l.range.Valid) :
    conflict locks l ≠ none ↔ Blocks (modeAt locks) l := by
  constructor
  · intro hc
    obtain ⟨l', hl'⟩ := Option.ne_none_iff_exists'.mp hc
    have hmem := List.mem_of_find?_eq_some hl'
    have hp := List.find?_some hl'
    simp only [ne_eq, Bool.and_eq_true, decide_eq_true_eq, Bool.or_eq_true] at hp
    obtain ⟨⟨hne, hover⟩, hexcl⟩ := hp
    obtain ⟨p, hp', hp⟩ := (overlaps_iff (h.valid l' hmem) hl).mp hover
    exact ⟨l'.owner, p, l'.exclusive, hne, hp, h.modeAt_eq_some.mpr ⟨l', hmem, rfl, hp', rfl⟩,
      hexcl⟩
  · intro hb hnone
    obtain ⟨o, p, m, hne, hp, hm, hexcl⟩ := hb
    obtain ⟨l', hl', rfl, hp', rfl⟩ := h.modeAt_eq_some.mp hm
    have hover := (overlaps_iff (h.valid l' hl') hl).mpr ⟨p, hp', hp⟩
    have hquiet := List.find?_eq_none.mp hnone l' hl'
    simp only [hover, ne_eq, hne, not_false_eq_true, decide_true, Bool.and_true, Bool.true_and,
      Bool.or_eq_true] at hquiet
    exact hquiet hexcl

lemma Tidy.modeAt_carve (h : Tidy locks) (hr : range.Valid) (o p : Nat) :
    modeAt (RangeLockTable.carve locks owner range) o p =
      if o = owner ∧ range.Covers p then none else modeAt locks o p :=
  h.modeAt_eq (h.carve owner hr)
    (fun hin _ => iff_of_false (fun hold => (holds_carve.mp hold).2 hin) nofun)
    fun hout _ => holds_carve.trans (and_iff_left hout)

lemma Tidy.modeAt_push (h : Tidy locks) (hl : l.range.Valid) (hno : conflict locks l = none)
    (o p : Nat) :
    modeAt (RangeLockTable.carve locks l.owner l.range ++ [l]) o p =
      if o = l.owner ∧ l.range.Covers p then some l.exclusive else modeAt locks o p := by
  have hpush : ∀ m, Holds (RangeLockTable.carve locks l.owner l.range ++ [l]) o p m ↔
      Holds locks o p m ∧ ¬(o = l.owner ∧ l.range.Covers p) ∨
        (o = l.owner ∧ l.range.Covers p) ∧ some l.exclusive = some m := by
    intro m
    rw [← holds_carve, Holds, Holds]
    simp only [List.mem_append, List.mem_singleton, or_and_right, exists_or, exists_eq_left,
      and_assoc, Option.some.injEq, eq_comm (a := o)]
  refine h.modeAt_eq (h.push hl hno) (fun hin m => ?_) fun hout m => ?_
  · rw [hpush m, and_iff_right hin]
    exact or_iff_right fun hold => hold.2 hin
  · rw [hpush m, and_iff_left hout]
    exact or_iff_left fun hnew => hout hnew.1

lemma Tidy.drop (h : Tidy locks) : Tidy (locks.filter (fun l => l.owner ≠ owner)) :=
  ⟨fun l hl => h.valid l (List.mem_of_mem_filter hl), h.compatible.filter _⟩

lemma Tidy.modeAt_drop (h : Tidy locks) (o p : Nat) :
    modeAt (locks.filter (fun l => l.owner ≠ owner)) o p =
      if o = owner then none else modeAt locks o p := by
  refine h.modeAt_eq h.drop (fun he m => iff_of_false ?_ nofun) fun hne m => ?_
  · rintro ⟨l, hl, ho, -⟩
    have hne : l.owner ≠ owner := by simpa using (List.mem_filter.mp hl).2
    exact hne (ho.trans he)
  · refine exists_congr fun l =>
      ⟨fun ⟨hl, h⟩ => ⟨List.mem_of_mem_filter hl, h⟩, fun ⟨hl, ho, h⟩ => ?_⟩
    exact ⟨List.mem_filter.mpr ⟨hl, decide_eq_true (ho ▸ hne)⟩, ho, h⟩

end Intervals

/-! ## The table -/

section Table

variable {t : RangeLockTable} {ino ino' : Ino} {owner : Nat} {range : LockRange} {l : RangeLock}

lemma locksOf_insert (m : OrdMap Ino (List RangeLock)) (locks : List RangeLock) :
    locksOf ⟨m.insert ino locks⟩ ino' = if ino' = ino then locks else locksOf ⟨m⟩ ino' := by
  unfold locksOf
  rw [get?_insert]
  split <;> rfl

/-- An inode without locks leaves the table. -/
lemma locksOf_put (m : OrdMap Ino (List RangeLock)) (locks : List RangeLock) :
    locksOf (if locks = [] then ⟨m.erase ino⟩ else ⟨m.insert ino locks⟩) ino' =
      if ino' = ino then locks else locksOf ⟨m⟩ ino' := by
  split
  · rename_i hnil
    unfold locksOf
    rw [get?_erase, hnil]
    split <;> rfl
  · exact locksOf_insert ..

/-- The outcome of a request tells whether there is a conflict. -/
lemma tryLock_cases (t : RangeLockTable) (ino : Ino) (l : RangeLock) :
    (t.tryLock ino l).1 ≠ .ok () ∧ conflict (t.locksOf ino) l ≠ none ∧
        (∀ ino', (t.tryLock ino l).2.locksOf ino' = t.locksOf ino') ∨
      (t.tryLock ino l).1 = .ok () ∧ conflict (t.locksOf ino) l = none ∧
        ∀ ino', (t.tryLock ino l).2.locksOf ino' =
          if ino' = ino then carve (t.locksOf ino) l.owner l.range ++ [l] else t.locksOf ino' := by
  unfold tryLock
  split
  · rename_i c hc
    refine .inl ⟨nofun, by rw [hc]; nofun, fun ino' => ?_⟩
    rw [locksOf_insert]
    split
    · rename_i he
      rw [he]
    · rfl
  · rename_i hc
    exact .inr ⟨rfl, hc, fun ino' => locksOf_insert ..⟩

lemma locksOf_unlock (t : RangeLockTable) (ino ino' : Ino) (owner : Nat) (range : LockRange) :
    (t.unlock ino owner range).locksOf ino' =
      if ino' = ino then carve (t.locksOf ino) owner range else t.locksOf ino' := by
  unfold unlock
  cases hg : t.byIno.get? ino with
  | none =>
    dsimp only
    split
    · rename_i he
      rw [he, locksOf, hg]
      rfl
    · rfl
  | some locks =>
    have hlocks : t.locksOf ino = locks := by
      rw [locksOf, hg]
      rfl
    rw [hlocks]
    exact locksOf_put ..

/-- Going through the table one inode at a time. -/
lemma locksOf_dropEach (owner : Nat) (ino : Ino) (es : List (Ino × List RangeLock))
    (hnd : (es.map Prod.fst).Nodup) (acc : RangeLockTable)
    (hacc : ∀ e ∈ es, acc.locksOf e.1 = e.2) :
    (es.foldl (fun acc e =>
      let locks := e.2.filter (fun l => l.owner ≠ owner)
      if locks = [] then ⟨acc.byIno.erase e.1⟩ else ⟨acc.byIno.insert e.1 locks⟩) acc).locksOf ino =
      if ino ∈ es.map Prod.fst then (acc.locksOf ino).filter (fun l => l.owner ≠ owner)
      else acc.locksOf ino := by
  induction es generalizing acc with
  | nil => rfl
  | cons e es ih =>
    rw [List.map_cons, List.nodup_cons] at hnd
    obtain ⟨hfst, hnd⟩ := hnd
    have hhead : acc.locksOf e.1 = e.2 := hacc e (List.mem_cons_self ..)
    rw [List.foldl_cons, ih hnd]
    · -- one inode is dealt with, and the others are as they were
      rw [locksOf_put]
      by_cases he : ino = e.1
      · subst he
        simp only [hfst, if_false, if_true, List.map_cons, List.mem_cons, true_or, hhead]
      · simp only [he, if_false, List.map_cons, List.mem_cons, false_or]
    · intro e' he'
      rw [locksOf_put, if_neg, hacc e' (List.mem_cons_of_mem _ he')]
      intro heq
      exact hfst (heq ▸ List.mem_map_of_mem he')

lemma locksOf_unlockOwner (t : RangeLockTable) (owner : Nat) (ino : Ino) :
    (t.unlockOwner owner).locksOf ino = (t.locksOf ino).filter (fun l => l.owner ≠ owner) := by
  unfold unlockOwner
  rw [locksOf_dropEach owner ino t.byIno.entries (nodup_keys _) t]
  · split
    · rfl
    rename_i hno
    have hnone : t.byIno.get? ino = none := by
      cases hg : t.byIno.get? ino with
      | none => rfl
      | some locks => exact absurd (List.mem_map_of_mem (mem_entries.mpr hg)) hno
    rw [locksOf, hnone]
    rfl
  · intro e he
    rw [locksOf, mem_entries.mp he]
    rfl

/-- The intervals of every inode are as they are kept. -/
def AllTidy (t : RangeLockTable) : Prop := ∀ ino, Tidy (t.locksOf ino)

/-- What the table stands for: who holds a byte of an inode, and in which mode. -/
def holding (t : RangeLockTable) (ino : Ino) (owner p : Nat) : Option Bool :=
  modeAt (t.locksOf ino) owner p

lemma allTidy_empty : AllTidy ⟨∅⟩ := fun _ => tidy_nil

end Table

end RangeLockTable

/-! ## Byte by byte -/

open RangeLockTable

/-- Who holds which byte of which inode, and in which mode. -/
abbrev Holding := Ino → Nat → Nat → Option Bool

/-- One owner's mode on one range is changed. -/
def Holding.set (H : Holding) (ino : Ino) (owner : Nat) (range : LockRange) (m : Option Bool) :
    Holding :=
  fun ino' o p => if ino' = ino ∧ o = owner ∧ range.Covers p then m else H ino' o p

/-- One owner lets go of everything. -/
def Holding.release (H : Holding) (owner : Nat) : Holding :=
  fun ino o p => if o = owner then none else H ino o p

/-- What a call means for the bytes. -/
def Call.OnBytes : (c : Call) → Holding → c.Ret → Holding → Prop
  | .rangeTryLock ino l, H, r, H' =>
    (r = .ok () ↔ ¬Blocks (H ino) l) ∧
      (r = .ok () → H' = H.set ino l.owner l.range (some l.exclusive)) ∧ (r ≠ .ok () → H' = H)
  | .rangeTest ino l, H, r, H' => (r = none ↔ ¬Blocks (H ino) l) ∧ H' = H
  | .rangeUnlock ino owner range, H, _, H' => H' = H.set ino owner range none
  | .unlockOwner owner, H, _, H' => H' = H.release owner
  | _, H, _, H' => H' = H

namespace RangeLockTable

variable {t : RangeLockTable} {ino : Ino} {owner : Nat} {range : LockRange} {l : RangeLock}

lemma AllTidy.free_iff (h : t.AllTidy) (hl : l.range.Valid) :
    conflict (t.locksOf ino) l = none ↔ ¬Blocks (t.holding ino) l :=
  not_iff_not.mp (((h ino).conflict_iff hl).trans not_not.symm)

/-- The locks of one inode are replaced, and an owner's mode changes on a range. -/
lemma AllTidy.set {t' : RangeLockTable} {locks : List RangeLock} {m : Option Bool} (h : t.AllTidy)
    (hlocks : ∀ ino', t'.locksOf ino' = if ino' = ino then locks else t.locksOf ino')
    (htidy : Tidy locks) (hmode : ∀ o p, modeAt locks o p =
      if o = owner ∧ range.Covers p then m else modeAt (t.locksOf ino) o p) :
    t'.AllTidy ∧ t'.holding = Holding.set t.holding ino owner range m := by
  constructor
  · intro ino'
    rw [hlocks]
    split
    · exact htidy
    · exact h ino'
  · funext ino' o p
    unfold holding Holding.set
    rw [hlocks]
    by_cases he : ino' = ino
    · subst he
      simp only [if_true, true_and, hmode]
    · simp only [he, false_and, if_false]

lemma AllTidy.holding_unlockOwner (h : t.AllTidy) (owner : Nat) :
    (t.unlockOwner owner).holding = Holding.release t.holding owner := by
  funext ino o p
  unfold holding Holding.release
  rw [locksOf_unlockOwner, (h ino).modeAt_drop]

end RangeLockTable

lemma Call.onBytes_answer (env : Env) {c : Call} {s : St} (h : s.mem.rangeLocks.AllTidy)
    (hc : c.RangeValid) :
    (c.answer env s).2.mem.rangeLocks.AllTidy ∧
      c.OnBytes s.mem.rangeLocks.holding (c.answer env s).1
        (c.answer env s).2.mem.rangeLocks.holding := by
  cases c
  case rangeTryLock ino l =>
    rcases s.mem.rangeLocks.tryLock_cases ino l with ⟨hr, hno, hsame⟩ | ⟨hr, hno, hlocks⟩
    · refine ⟨fun ino' => ?_, iff_of_false hr fun hfree => hno ((h.free_iff hc).mpr hfree),
        fun hok => absurd hok hr, fun _ => ?_⟩
      · exact (hsame ino').symm ▸ h ino'
      · funext ino' o p
        exact congrArg (modeAt · o p) (hsame ino')
    · obtain ⟨htidy, hset⟩ := h.set hlocks ((h ino).push hc hno) ((h ino).modeAt_push hc hno)
      exact ⟨htidy, iff_of_true hr ((h.free_iff hc).mp hno), fun _ => hset,
        fun hne => absurd hr hne⟩
  case rangeTest ino l => exact ⟨h, h.free_iff hc, rfl⟩
  case rangeUnlock ino owner range =>
    exact h.set (locksOf_unlock _ ino · owner range) ((h ino).carve owner hc)
      ((h ino).modeAt_carve hc)
  case unlockOwner owner =>
    refine ⟨fun ino => ?_, h.holding_unlockOwner owner⟩
    exact (locksOf_unlockOwner _ owner ino).symm ▸ (h ino).drop
  case attrsGet ino =>
    simp only [answer]
    split <;> exact ⟨h, rfl⟩
  case isNegative p n =>
    simp only [answer]
    split <;> exact ⟨h, rfl⟩
  all_goals exact ⟨h, rfl⟩

/-- **One call.** The intervals stay as they are kept, and they change as the bytes do. -/
theorem Call.onBytes {c : Call} {s s' : St} {r : c.Ret} (h : s.mem.rangeLocks.AllTidy)
    (hc : c.RangeValid) (hm : c.may s r s') :
    s'.mem.rangeLocks.AllTidy ∧ c.OnBytes s.mem.rangeLocks.holding r s'.mem.rangeLocks.holding := by
  rcases hm with ⟨env, ha⟩ | ⟨hf, rfl⟩
  · have hone := Call.onBytes_answer env h hc
    rw [ha] at hone
    exact hone
  · cases c <;> first | exact ⟨h, rfl⟩ | cases hf

/-! ## Any number of handles -/

/-- The operations on handles and their locks. -/
def Op.OnHandles : Op → Prop
  | .openFile .. => True
  | .closeFile .. => True
  | .lockRange .. => True
  | .unlockRange .. => True
  | .testLock .. => True
  | _ => False

/-- Handles are opened and closed, and ranges locked and unlocked, by any number of callers at
the same time; any storage call may fail. -/
def locking (v : Volume) : Setting Call Call.Ret Lock St (Except Abort Reply) Unit where
  starts _ p := ∃ fuel creds op, Op.OnHandles op ∧ p = (op.prog v fuel creds).run
  answers := Call.may
  allows _ _ _ := True
  crash _ _ := False
  blank := ()
  note _ _ _ := ()

lemma locking_outline (v : Volume) :
    Setting.Outline (locking v) watchRanges () (FsM.Post (fun _ _ => True) (fun _ _ => True))
      (fun c _ => c.st.mem.rangeLocks.AllTidy) where
  prog s p hp := by
    obtain ⟨fuel, creds, op, -, rfl⟩ := hp
    exact (Orderly.op v fuel creds op).ranges
  start h _ _ := h
  call h _ _ ha := ⟨(), trivial, fun hok => (Call.onBytes h hok ha).1⟩
  acquire h _ _ := h
  release h _ := h
  finish h _ _ := h
  crash _ h := h.elim

/-- **The lock table is a map from bytes to holders.** Whatever handles are opened, locked,
unlocked and closed at the same time, the intervals are as they are kept, and whatever a
running operation asks next is answered, and changes the table, as it should byte by byte. -/
theorem range_locks_refine_bytes (v : Volume) (s₀ : St) (h0 : s₀.mem.rangeLocks.AllTidy)
    (c : Conf Call Call.Ret Lock St (Except Abort Reply) Unit) (hr : (locking v).Reached s₀ c) :
    c.st.mem.rangeLocks.AllTidy ∧ ∀ t x k held n r s',
      c.tasks.get? t = some ⟨.call x k, held, n⟩ → x.may c.st r s' →
        x.OnBytes c.st.mem.rangeLocks.holding r s'.mem.rangeLocks.holding := by
  obtain ⟨γ, h, hb⟩ := (locking_outline v).reached (γ := fun _ => ()) h0 hr
  refine ⟨h, fun t x k held n r s' ht hm => ?_⟩
  have hok : x.RangeValid := (hb t _ ht r () trivial).1
  exact (Call.onBytes h hok hm).2

/-! ## A run -/

/-- Answer calls from the state, and let storage calls fail when told to. -/
def lockDriver (env : Env) (v : Volume) : Setting.Driver (locking v) where
  handler := Call.answer env
  failure := Call.failure
  admits _ _ _ := true
  answers := Call.may_answer env
  fails := Call.may_fail
  allows _ _ _ _ := trivial

/-- A handle call, with all its moves. -/
def handleCall (t moves : Nat) (op : Op) :
    List (Setting.Move Call Call.Ret Lock St (Except Abort Reply)) :=
  Setting.Move.play t moves (op.prog .plain 4 .root).run

/-- Two handles of the root: one reads ten bytes and then writes two of them, and the other
is about to ask for them. -/
def twoHandles : List (Setting.Move Call Call.Ret Lock St (Except Abort Reply)) :=
  handleCall 1 3 (.openFile 1 .read) ++ (handleCall 1 3 (.openFile 1 .read) ++
    (handleCall 1 3 (.lockRange 1 0 10 false) ++ (handleCall 1 3 (.lockRange 1 2 4 true) ++
      handleCall 2 1 (.lockRange 2 3 20 false))))

lemma twoHandles_fits : ∀ m ∈ twoHandles, m.Fits (locking .plain) := by
  have hone : ∀ {t moves op}, Op.OnHandles op →
      ∀ m ∈ handleCall t moves op, m.Fits (locking .plain) := fun {t moves op} hop =>
    Setting.Move.play_fits fun _ => ⟨4, .root, op, hop, rfl⟩
  simp only [twoHandles, List.forall_mem_append]
  exact ⟨hone trivial, hone trivial, hone trivial, hone trivial, hone trivial⟩

/-- The bytes that are written lie between two pieces that are read. -/
theorem twoHandles_refine_bytes : ∃ c, (locking .plain).Reached (freshVolume ⟨0, 0⟩ {}) c ∧
    c.st.mem.rangeLocks.holding 1 1 3 = some true ∧
    c.st.mem.rangeLocks.holding 1 1 4 = some false ∧ c.st.mem.rangeLocks.AllTidy := by
  obtain ⟨c, hr, hc⟩ := Setting.Reached.of_moves (lockDriver .still .plain) twoHandles
    (freshVolume ⟨0, 0⟩ {}) (fun c => c.st.mem.rangeLocks.holding 1 1 3 = some true ∧
      c.st.mem.rangeLocks.holding 1 1 4 = some false) twoHandles_fits (by decide +kernel)
  have htidy := range_locks_refine_bytes .plain (freshVolume ⟨0, 0⟩ {}) allTidy_empty c hr
  exact ⟨c, hr, hc.1, hc.2, htidy.1⟩

end SlateFs
