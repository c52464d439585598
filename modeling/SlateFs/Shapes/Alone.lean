import SlateFs.Shapes.Files

/-!
# An operation that runs alone

The database itself can be the state that a track follows: storage calls are answered by
it, and nobody else moves it. So the shapes of the operations hold of a run alone as well,
and what an operation has read under its locks is what the database holds.
-/

namespace SlateFs

open FsM (wp)

/-- What a call leaves of the database when nothing fails. -/
def Call.after (c : Call) (db : Db) : Db := ((c.stored db).map Prod.snd).getD db

variable {M : Oracle} {T : Db → Db → Prop} {db db' : Db} {α : Type}

lemma Call.acts_iff {c : Call} {r : c.Ret} :
    c.acts M db r db' ↔ c.acts M db r (c.after db) ∧ db' = c.after db := by
  unfold acts after
  cases c.stored db with
  | none => exact ⟨fun h => ⟨⟨h.1, rfl⟩, h.2⟩, fun h => ⟨h.1.1, h.2⟩⟩
  | some x => exact ⟨fun h => ⟨⟨h.1, rfl⟩, h.2⟩, fun h => ⟨h.1.1, h.2⟩⟩

/-- The track that follows the database, which may change by steps of `T`. -/
def Oracle.track (M : Oracle) (T : Db → Db → Prop) : Track Db :=
  .ofCalls (fun c db r => c.acts M db r (c.after db))
    (fun c db _ => c.after db = db ∨ T db (c.after db)) (fun c db _ => c.after db) (by
      intro c db r hc
      have hsame : c.after db = db := by cases c <;> first | rfl | cases hc
      exact ⟨.inl hsame, hsame⟩)

namespace Track

/-- Following the database is keeping track of it. -/
lemma wp_alone {Q : α → Db → Prop} {E : Abort → Db → Prop} {p : FsM α} :
    wp (M.track T).ghost Q E p db ↔ wp (M.steps T) Q E p db := by
  unfold wp
  generalize p.run = p
  induction p generalizing db with
  | ret a => exact Iff.rfl
  | call c k ih =>
    refine forall_congr' fun r => forall_congr' fun db' => ?_
    constructor
    · intro h ha
      obtain ⟨hok, hk⟩ := h (Call.acts_iff.mp ha)
      rw [(Call.acts_iff.mp ha).2] at hk ⊢
      exact ⟨hok, (ih r).mp hk⟩
    · intro h ha
      obtain ⟨hok, hk⟩ := h (Call.acts_iff.mpr ha)
      rw [ha.2] at hok
      exact ⟨hok, (ih r).mpr hk⟩
  | acquire l k ih => exact ih
  | release l k ih => exact ih
  | stuck => exact Iff.rfl

lemma atRest_alone {E : Abort → Db → Prop} (hE : ∀ e, E e db) : (M.track T).AtRest E db :=
  ⟨quiet_ofCalls db, hE⟩

lemma get_of_knows {k : Key} {o : Option k.Val} (h : (M.track T).Knows db k o) : db.get k = o :=
  (Except.ok.inj (can_of_heard rfl h).1).symm

/-- Under locks the database is the same. -/
lemma under_alone {ls : List Lock} {K : Db → Prop} {Q : α → Db → Prop} {E : Abort → Db → Prop}
    {p : FsM α} (h : K db → wp (M.steps T) Q E p db) : (M.track T).Under ls db K Q E p := by
  intro db' hs hk
  obtain rfl : db' = db := (saw_ofCalls hs).trans (acqAll_ofCalls ..)
  have hrel : ∀ db, (M.track T).relAll ls db = db := relAll_ofCalls ls
  simp only [hrel]
  exact wp_alone.mpr (h hk)

end Track

end SlateFs
