import SlateFs.Core.Logic

/-!
# Operations that change nothing

Lookups, reads of attributes, listings and lock requests leave the database as it
was, whatever they find in memory.
-/

namespace SlateFs

open FsM

/-- An operation leaves the database alone, whatever it answers. -/
abbrev IsQuiet {α : Type} (M : Oracle) (p : FsM α) (db : Db) : Prop :=
  wp (M.steps (fun _ _ => False)) (fun _ _ => True) (fun _ _ => True) p db

/-- Memory may answer anything. -/
def Oracle.any : Oracle :=
  ⟨fun _ _ => True, fun _ _ _ => True, fun _ _ _ => True, fun _ _ _ => True⟩

variable {env : Env}

lemma acts_any (c : Call) (s : St) :
    c.acts .any s.db (c.answer env s).1 (c.answer env s).2.db := by
  refine Call.acts_answer c s ?_
  cases c <;> exact fun _ => trivial

/-- A call returns what a weakest precondition promises, whatever memory answers. -/
lemma run_any {α : Type} {T : Db → Db → Prop} {Q : α → Db → Prop} {E : Abort → Db → Prop}
    {p : FsM α} {s s' : St} {r : Except Abort α} (hw : wp (Oracle.any.steps T) Q E p s.db)
    (hr : p.run.run (Call.answer env) s = some (r, s')) : Post Q E r s'.db := by
  obtain ⟨db', rfl, hpost⟩ := Prog.wp_run (V := fun (s : St) db => s.db = db)
    ⟨fun c s _ h => ⟨_, h ▸ acts_any c s, fun _ => rfl⟩, fun _ _ _ h => h, fun _ _ _ h => h⟩
    rfl hw hr
  exact hpost

lemma any_returns {α : Type} (env : Env) {T : Db → Db → Prop} {Q : α → Db → Prop}
    {E : Abort → Db → Prop} {p : FsM α} {s : St}
    (hw : wp (Oracle.any.watch T False) Q E p s.db) :
    ∃ r s', p.run.run (Call.answer env) s = some (r, s') ∧ Post Q E r s'.db := by
  obtain ⟨r, s', _, hr, rfl, hpost⟩ := (Prog.wp_ends (V := fun (s : St) db => s.db = db)
    ⟨fun c s _ h => ⟨_, h ▸ acts_any c s, fun _ => rfl⟩, fun _ _ _ h => h, fun _ _ _ h => h⟩
    rfl hw).resolve_left fun h => h.2
  exact ⟨r, s', hr, hpost⟩

lemma IsQuiet.visits {α : Type} {p : FsM α} {s s' : St} (h : IsQuiet .any p s.db)
    (hv : Prog.Visits (Call.answer env) p.run s s') : s'.db = s.db := by
  obtain ⟨db', hdb, hsame⟩ := Prog.wp_visits (V := fun (s' : St) db => s'.db = db ∧ db = s.db)
    ⟨fun c s₁ _ hr =>
      ⟨_, hr.1 ▸ acts_any c s₁, fun hok => ⟨rfl, (hok.resolve_right id).trans hr.2⟩⟩,
      fun _ _ _ h => h, fun _ _ _ h => h⟩ ⟨rfl, rfl⟩ h hv
  rw [hdb, hsame]

end SlateFs
