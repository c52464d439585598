import SlateFs.Seq.Files
import SlateFs.Seq.Quiet

/-!
# Set-id bits

A file that somebody without uid 0 has changed should not run with its owner's or its
group's rights any more: writing to it clears the set-id bits, and so does giving it to
another group. Giving it to another owner, which a trusted frontend lets anybody do, and
changing its size clear nothing. Here calls on one file are followed, by any callers and
in any order, together with whether its bits have to be clear.
-/

namespace SlateFs

open FsM

/-- The setuid and the setgid bit. -/
def SETID : UInt32 := 0o6000

/-- Neither bit is set. -/
def NoSetId (mode : UInt32) : Prop := mode &&& SETID = 0

instance (mode : UInt32) : Decidable (NoSetId mode) := inferInstanceAs (Decidable (_ = _))

lemma noSetId_clear (mode : UInt32) : NoSetId (mode &&& ~~~0o6000) := by
  unfold NoSetId SETID
  rw [UInt32.and_assoc]
  exact UInt32.and_zero

lemma and_not_of_and {a c : UInt32} (h : a &&& c = 0) : a &&& ~~~c = a := by
  refine UInt32.toBitVec_inj.mp (BitVec.eq_of_getElem_eq fun i hi => ?_)
  have hbit : (a.toBitVec &&& c.toBitVec)[i] = (0#32)[i] := by
    rw [← UInt32.toBitVec_and, h]
    rfl
  cases ha : a.toBitVec[i] <;> simp_all

/-! ## What the gates of setattr do to the mode -/

/-- The mode a request asks for, as far as the caller may have it; without one, the mode there
is. -/
def requestedMode (creds : Credentials) (i : Inode) : Option UInt32 → UInt32
  | none => i.mode
  | some mode =>
    let mode := mode &&& 0o7777
    if ¬creds.isPrivileged ∧ ¬creds.inGroup i.gid then mode &&& ~~~0o2000 else mode

/-- The request is for another group. -/
def SetAttrs.Regroups (attrs : SetAttrs) (i : Inode) : Prop := attrs.gid.any (· ≠ i.gid)

instance (attrs : SetAttrs) (i : Inode) : Decidable (attrs.Regroups i) :=
  inferInstanceAs (Decidable (_ = true))

/-- Owner, group and mode after setattr. -/
structure Owned (creds : Credentials) (attrs : SetAttrs) (i i' : Inode) : Prop where
  uid : i'.uid = attrs.uid.getD i.uid
  gid : i'.gid = attrs.gid.getD i.gid
  mode : i'.mode = if ¬creds.isRoot ∧ attrs.Regroups i then
    requestedMode creds i attrs.mode &&& ~~~0o6000 else requestedMode creds i attrs.mode

section Gates

variable {creds : Credentials} {isOwner : Bool} {i i' : Inode} {ts : Timespec}

lemma setMode_owned {mode : Option UInt32} (h : setMode creds isOwner i mode = .ok i') :
    i' = { i with mode := requestedMode creds i mode } := by
  cases mode with
  | none => exact (Except.ok.inj h).symm
  | some m =>
    unfold setMode at h
    dsimp only at h
    split at h
    · cases h
    · exact (Except.ok.inj h).symm

lemma setUid_owned {uid : Option UInt32} (h : setUid creds isOwner i uid = .ok i') :
    i' = { i with uid := uid.getD i.uid } := by
  cases uid with
  | none => exact (Except.ok.inj h).symm
  | some u =>
    unfold setUid at h
    dsimp only at h
    split at h
    · exact (Except.ok.inj h).symm
    · cases h

lemma setGid_owned {gid : Option UInt32} (h : setGid creds isOwner i gid = .ok i') :
    i' = { i with
      gid := gid.getD i.gid
      mode := if ¬creds.isRoot ∧ gid.any (· ≠ i.gid) then i.mode &&& ~~~0o6000 else i.mode } := by
  cases gid with
  | none => simpa using (Except.ok.inj h).symm
  | some g =>
    unfold setGid at h
    dsimp only at h
    split at h
    · cases h
    · simpa using (Except.ok.inj h).symm

lemma setTimes_owned {atime mtime : Option TimeSet} {i₁ : Inode}
    (h₁ : setAtime creds isOwner i ts atime = .ok i₁)
    (h₂ : setMtime creds isOwner i₁ ts mtime = .ok i') :
    i'.uid = i.uid ∧ i'.gid = i.gid ∧ i'.mode = i.mode := by
  have hatime : i₁.uid = i.uid ∧ i₁.gid = i.gid ∧ i₁.mode = i.mode := by
    unfold setAtime at h₁
    split at h₁
    · rw [← Except.ok.inj h₁]
      exact ⟨rfl, rfl, rfl⟩
    cases hslot : timeSlot creds isOwner i ts ‹_› with
    | error e => rw [hslot] at h₁; cases h₁
    | ok t =>
      rw [hslot] at h₁
      rw [← Except.ok.inj h₁]
      exact ⟨rfl, rfl, rfl⟩
  unfold setMtime at h₂
  split at h₂
  · rw [← Except.ok.inj h₂]
    exact hatime
  cases hslot : timeSlot creds isOwner i₁ ts ‹_› with
  | error e => rw [hslot] at h₂; cases h₂
  | ok t =>
    rw [hslot] at h₂
    rw [← Except.ok.inj h₂]
    exact hatime

lemma applyAttrs_owned {attrs : SetAttrs} (h : applyAttrs creds i ts attrs = .ok i') :
    Owned creds attrs i i' := by
  obtain ⟨i₁, h₁, h⟩ := bind_ok h
  obtain ⟨i₂, h₂, h⟩ := bind_ok h
  obtain ⟨i₃, h₃, h⟩ := bind_ok h
  obtain ⟨i₄, h₄, h⟩ := bind_ok h
  obtain ⟨huid, hgid, hmode⟩ := setTimes_owned h₄ h
  have e₁ := setMode_owned h₁
  have e₂ := setUid_owned h₂
  have e₃ := setGid_owned h₃
  subst e₁ e₂ e₃
  exact ⟨huid, hgid, hmode⟩

end Gates

/-! ## One call -/

/-- A call on the file. -/
inductive FileCall where
  | setattr (attrs : SetAttrs)
  | write (offset : Nat) (data : Bytes)

def FileCall.prog (v : Volume) (ino : Ino) (creds : Credentials) : FileCall → FsM Unit
  | .setattr attrs => (fun _ => ()) <$> SlateFs.setattr v creds ino attrs
  | .write offset data => (fun _ => ()) <$> SlateFs.write v creds ino offset data

/-- What a call that succeeds leaves of the record. -/
def FileCall.Leaves (creds : Credentials) (i i' : Inode) : FileCall → Prop
  | .setattr attrs => Owned creds attrs i i' ∧ i'.size = attrs.size.getD i.size
  | .write _ data =>
    i'.uid = i.uid ∧ i'.gid = i.gid ∧
      i'.mode = if data ≠ [] ∧ ¬creds.isRoot then i.mode &&& ~~~0o6000 else i.mode

section Calls

variable {v : Volume} {ino : Ino} {creds : Credentials} {db : Db}

/-- The record the call finds and the one it leaves. -/
def Rewritten (ino : Ino) (creds : Credentials) (call : FileCall) (db db' : Db) : Prop :=
  ∃ i i', db.inodes.get? ino = some i ∧ db'.inodes.get? ino = some i' ∧ call.Leaves creds i i'

lemma wp_setattr_owned (attrs : SetAttrs) :
    wp (Oracle.any.steps fun _ _ => True)
      (fun _ db' => Rewritten ino creds (.setattr attrs) db db') (fun _ db' => db' = db)
      (setattr v creds ino attrs) db := by
  simp only [setattr, wp_bind, wp_withGuards, wp_loadInode, wp_now, wp_ofExcept]
  refine ⟨fun i hi ts => ⟨fun i₀ hi₀ => ?_, fun _ _ => trivial⟩, fun _ => trivial⟩
  have howned := applyAttrs_owned hi₀
  have hsize := (applyAttrs_alike hi₀).size
  -- the size part is planned or not, and the record is written either way
  refine wp_conseq (P := fun rs db' => db' = db ∧ rs.inode.uid = i₀.uid ∧ rs.inode.gid = i₀.gid ∧
    rs.inode.mode = i₀.mode ∧ rs.inode.size = attrs.size.getD i₀.size) ?_ ?_ (fun _ _ h => h)
  · refine wp_resize (fun _ => rfl) ?_ ?_
    · exact fun hs => ⟨rfl, rfl, rfl, rfl, hs.symm⟩
    · exact fun newSize plan hs _ _ _ _ => ⟨rfl, rfl, rfl, rfl, by rw [hs]; rfl⟩
  · rintro rs db' ⟨rfl, huid, hgid, hmode, hrs⟩
    refine wp_setattrCommit trivial (fun _ _ _ _ _ => trivial) fun _ => ?_
    rw [apply_deleteChunks, Db.apply_append]
    refine ⟨i, _, hi, OrdMap.get?_insert_self .., ⟨?_, ?_, ?_⟩, ?_⟩
    · exact huid.trans howned.uid
    · exact hgid.trans howned.gid
    · exact hmode.trans howned.mode
    · exact hrs.trans (congrArg _ hsize)

lemma inodeAfterWrite_owned (i : Inode) (plan : WritePlan) (ts : Timespec) :
    (inodeAfterWrite creds i plan ts).uid = i.uid ∧ (inodeAfterWrite creds i plan ts).gid = i.gid ∧
      (inodeAfterWrite creds i plan ts).mode =
        if ¬creds.isRoot then i.mode &&& ~~~0o6000 else i.mode := by
  unfold inodeAfterWrite
  dsimp only
  split
  · rename_i h
    exact ⟨rfl, rfl, (if_pos h.1).symm⟩
  rename_i h
  refine ⟨rfl, rfl, ?_⟩
  split
  · rename_i hroot
    -- there was nothing to clear
    have hnone : i.mode &&& 0o6000 = 0 := by
      by_contra hbits
      exact h ⟨hroot, hbits⟩
    exact (and_not_of_and hnone).symm
  · rfl

lemma wp_write_owned (offset : Nat) (data : Bytes) :
    wp (Oracle.any.steps fun _ _ => True)
      (fun _ db' => db' = db ∧ data = [] ∨ Rewritten ino creds (.write offset data) db db')
      (fun _ db' => db' = db) (write v creds ino offset data) db := by
  simp only [write, wp_bind, wp_ite, wp_pure, wp_fail, wp_withGuards, wp_loadInode, wp_ofExcept]
  refine ⟨fun hnil => .inl ⟨trivial, hnil⟩, fun hdata =>
    ⟨fun _ => trivial, fun _ => ⟨fun _ => trivial,
    fun _ => ⟨fun i hi => ?_, fun _ => trivial⟩⟩⟩⟩
  refine ⟨fun _ => ⟨fun _ => trivial, fun _ => trivial⟩, fun _ => ⟨fun _ _ => ?_,
    fun _ _ => trivial⟩⟩
  refine wp_planWrite (fun _ => rfl) (fun _ => ?_)
  simp only [wp_reserve, wp_now, wp_tryCommit, wp_bind, wp_attrsInsert, wp_pure]
  refine ⟨fun _ ts => ⟨Or.inr trivial, .inr ?_⟩, fun _ _ => trivial⟩
  obtain ⟨huid, hgid, hmode⟩ := inodeAfterWrite_owned i
    (writePlanOf v.chunkSize db ino i.size offset data) ts
  rw [apply_writeBatch]
  refine ⟨i, _, hi, OrdMap.get?_insert_self .., huid, hgid, ?_⟩
  simpa [hdata] using hmode

/-- A call that fails changes nothing. A call that succeeds rewrites the record, unless it is
a write of nothing. -/
lemma wp_fileCall (call : FileCall) :
    wp (Oracle.any.steps fun _ _ => True)
      (fun _ db' => (∃ offset, call = .write offset [] ∧ db' = db) ∨
        Rewritten ino creds call db db')
      (fun _ db' => db' = db) (call.prog v ino creds) db := by
  cases call with
  | setattr attrs =>
    refine (wp_map _ _).mpr (wp_conseq (wp_setattr_owned attrs) ?_ (fun _ _ h => h))
    exact fun _ _ h => .inr h
  | write offset data =>
    refine (wp_map _ _).mpr (wp_conseq (wp_write_owned offset data) ?_ (fun _ _ h => h))
    intro _ db' h
    rcases h with ⟨hdb, rfl⟩ | h
    · exact .inl ⟨offset, rfl, hdb⟩
    · exact .inr h

end Calls

/-! ## Any sequence of calls -/

/-- Owner, group or contents are changed. Any bytes that are written count. -/
def FileCall.Changes (i i' : Inode) : FileCall → Prop
  | .setattr _ => i'.uid ≠ i.uid ∨ i'.gid ≠ i.gid ∨ i'.size ≠ i.size
  | .write _ data => data ≠ []

instance (i i' : Inode) : DecidablePred (FileCall.Changes i i')
  | .setattr _ => inferInstanceAs (Decidable (_ ∨ _ ∨ _))
  | .write _ data => inferInstanceAs (Decidable (data ≠ []))

/-- The call sets a mode that has one of the bits. -/
def FileCall.Regrants (i' : Inode) : FileCall → Prop
  | .setattr attrs => attrs.mode.isSome ∧ ¬NoSetId i'.mode
  | .write .. => False

instance (i' : Inode) : DecidablePred (FileCall.Regrants i')
  | .setattr attrs => inferInstanceAs (Decidable (attrs.mode.isSome ∧ ¬NoSetId i'.mode))
  | .write .. => inferInstanceAs (Decidable False)

/-- The volume, and whether somebody without uid 0 changed the file and no mode with one of
the bits was set since. -/
structure Watched where
  st : St
  owed : Bool

def owedAfter (creds : Credentials) (call : FileCall) (i i' : Inode) (owed : Bool) : Bool :=
  decide (¬creds.isRoot ∧ call.Changes i i') || owed && !decide (call.Regrants i')

/-- One call, by anybody. -/
def Watched.serve (env : Env) (v : Volume) (ino : Ino) (w : Watched) (x : Credentials × FileCall) :
    Watched :=
  match (x.2.prog v ino x.1).run.run (Call.answer env) w.st with
  | some (.ok _, s') =>
    match w.st.db.inodes.get? ino, s'.db.inodes.get? ino with
    | some i, some i' => ⟨s', owedAfter x.1 x.2 i i' w.owed⟩
    | _, _ => ⟨s', w.owed⟩
  | some (.error _, s') => ⟨s', w.owed⟩
  | none => w

/-- Bits that have to be clear are clear. -/
def Watched.Clear (ino : Ino) (w : Watched) : Prop :=
  w.owed = true → ∀ i, w.st.db.inodes.get? ino = some i → NoSetId i.mode

/-- Whoever changes owner or size without uid 0 changes the group as well, or there is no bit
in the mode that is asked for. -/
def FileCall.Careful (creds : Credentials) (i : Inode) : FileCall → Prop
  | .setattr attrs =>
    ¬creds.isRoot → attrs.uid.any (· ≠ i.uid) ∨ attrs.size.any (· ≠ i.size) →
      attrs.Regroups i ∨ NoSetId (requestedMode creds i attrs.mode)
  | .write .. => True

/-- Every call of the sequence is careful when it is made. -/
def Watched.Careful (env : Env) (v : Volume) (ino : Ino) :
    Watched → List (Credentials × FileCall) → Prop
  | _, [] => True
  | w, x :: xs =>
    (∀ i ∈ w.st.db.inodes.get? ino, x.2.Careful x.1 i) ∧
      Watched.Careful env v ino (w.serve env v ino x) xs

instance (creds : Credentials) (i : Inode) : DecidablePred (FileCall.Careful creds i)
  | .setattr _ => inferInstanceAs (Decidable (¬creds.isRoot → _ ∨ _ → _ ∨ _))
  | .write .. => inferInstanceAs (Decidable True)

instance Watched.decidableCareful (env : Env) (v : Volume) (ino : Ino) :
    ∀ w calls, Decidable (Watched.Careful env v ino w calls)
  | _, [] => inferInstanceAs (Decidable True)
  | w, x :: xs =>
    have := Watched.decidableCareful env v ino (w.serve env v ino x) xs
    inferInstanceAs (Decidable (_ ∧ _))

/-- A value that is not what it was was asked for. -/
lemma any_ne_of_getD {β : Type} [DecidableEq β] {o : Option β} {a b : β} (h : b = o.getD a)
    (hne : b ≠ a) : o.any (· ≠ a) = true := by
  cases o with
  | none => exact absurd h hne
  | some x =>
    subst h
    simpa using hne

section Runs

variable {env : Env} {v : Volume} {ino : Ino} {w : Watched}

lemma FileCall.Leaves.noSetId {creds : Credentials} {i i' : Inode} {call : FileCall}
    (h : call.Leaves creds i i') (hc : call.Careful creds i) {owed : Bool}
    (hw : owed = true → NoSetId i.mode) (ho : owedAfter creds call i i' owed = true) :
    NoSetId i'.mode := by
  simp only [owedAfter, Bool.or_eq_true, decide_eq_true_eq, Bool.and_eq_true, Bool.not_eq_true',
    decide_eq_false_iff_not] at ho
  cases call with
  | write offset data =>
    obtain ⟨-, -, hmode⟩ := h
    rw [hmode]
    split
    · exact noSetId_clear _
    rename_i hno
    rcases ho with ⟨hroot, hdata⟩ | ⟨howed, -⟩
    · exact absurd ⟨hdata, hroot⟩ hno
    · exact hw howed
  | setattr attrs =>
    obtain ⟨⟨huid, hgid, hmode⟩, hsize⟩ := h
    by_cases hcleared : ¬creds.isRoot ∧ attrs.Regroups i
    · rw [hmode, if_pos hcleared]
      exact noSetId_clear _
    rw [if_neg hcleared] at hmode
    rcases ho with ⟨hroot, hchange⟩ | ⟨howed, hkept⟩
    · rw [hmode]
      refine (hc hroot ?_).resolve_left fun hr => hcleared ⟨hroot, hr⟩
      rcases hchange with hu | hg | hs
      · exact .inl (any_ne_of_getD huid hu)
      · exact absurd ⟨hroot, any_ne_of_getD hgid hg⟩ hcleared
      · exact .inr (any_ne_of_getD hsize hs)
    · cases hreq : attrs.mode with
      | none =>
        rw [hmode, hreq]
        exact hw howed
      | some m =>
        by_contra hbits
        exact hkept ⟨by rw [hreq]; rfl, hbits⟩

/-- **One call.** -/
theorem Watched.Clear.serve (h : w.Clear ino) {x : Credentials × FileCall}
    (hc : ∀ i ∈ w.st.db.inodes.get? ino, x.2.Careful x.1 i) :
    (w.serve env v ino x).Clear ino := by
  unfold Watched.serve
  split
  · rename_i s' hr
    rcases run_any (wp_fileCall x.2) hr with ⟨offset, hcall, hdb⟩ | ⟨i, i', hi, hi', hleft⟩
    · -- nothing was written
      rw [hdb, hcall]
      split
      · rename_i i i' hi hi'
        intro ho j hj
        have hj' : w.st.db.inodes.get? ino = some j := hdb ▸ hj
        refine h ?_ j hj'
        simp only [owedAfter, Bool.or_eq_true, decide_eq_true_eq, Bool.and_eq_true] at ho
        exact (ho.resolve_left fun hch => hch.2 rfl).1
      · intro ho j hj
        exact h ho j (hdb ▸ hj)
    · rw [hi, hi']
      intro ho j hj
      obtain rfl := Option.some.inj (hi'.symm.trans hj)
      exact hleft.noSetId (hc i hi) (fun howed => h howed i hi) ho
  · rename_i e s' hr
    have hdb : s'.db = w.st.db := run_any (wp_fileCall x.2) hr
    intro ho j hj
    exact h ho j (hdb ▸ hj)
  · exact h

/-- **Set-id bits of a file that was changed stay clear.** In every sequence of careful calls,
after somebody without uid 0 has changed owner, group or contents there is no set-id bit until
a mode that has one is set. -/
theorem setid_clear_after_change (env : Env) (v : Volume) (ino : Ino) (s : St)
    (calls : List (Credentials × FileCall)) (hc : Watched.Careful env v ino ⟨s, false⟩ calls) :
    (calls.foldl (Watched.serve env v ino) ⟨s, false⟩).Clear ino := by
  have hrun : ∀ (calls : List (Credentials × FileCall)) (w : Watched), w.Clear ino →
      Watched.Careful env v ino w calls →
      (calls.foldl (Watched.serve env v ino) w).Clear ino := by
    intro calls
    induction calls with
    | nil => exact fun w h _ => h
    | cons x xs ih => exact fun w h hc => ih _ (h.serve hc.1) hc.2
  exact hrun calls _ nofun hc

end Runs

/-! ## Two runs -/

/-- Root makes a program that runs with its owner's rights, and gives it to a user. -/
def toolMade : List (Credentials × FileCall) :=
  [(.root, .setattr { uid := some 1000, gid := some 1000, size := some 10 })]

/-- A volume with one file, that has the setuid bit. -/
def toolVolume : St :=
  match (Op.prog .plain 4 .root (.create 1 [116] 0o4755 true)).run.run (Call.answer .still)
    (freshVolume ⟨0, 0⟩ {}) with
  | some (_, s) => s
  | none => freshVolume ⟨0, 0⟩ {}

/-- The mode of the file after some calls. -/
def modeAfter (calls : List (Credentials × FileCall)) : Option UInt32 :=
  ((calls.foldl (Watched.serve .still .plain 2) ⟨toolVolume, false⟩).st.db.inodes.get? 2).map
    Inode.mode

/-- The user writes to it, makes it setuid again, and a trusted user of another group takes it. -/
def toolHandedOver : List (Credentials × FileCall) :=
  toolMade ++ [(.user 1000 1000, .write 3 [7]), (.user 1000 1000, .setattr { mode := some 0o4711 }),
    (⟨1001, 1001, [], true⟩, .setattr { uid := some 1001, gid := some 1001 })]

theorem toolHandedOver_clear : Watched.Careful .still .plain 2 ⟨toolVolume, false⟩ toolHandedOver ∧
    (toolHandedOver.foldl (Watched.serve .still .plain 2) ⟨toolVolume, false⟩).Clear 2 ∧
    modeAfter (toolHandedOver.take 3) = some 0o4711 ∧ modeAfter toolHandedOver = some 0o711 := by
  have hc : Watched.Careful .still .plain 2 ⟨toolVolume, false⟩ toolHandedOver := by decide +kernel
  exact ⟨hc, setid_clear_after_change .still .plain 2 toolVolume toolHandedOver hc,
    by decide +kernel, by decide +kernel⟩

/-- The user empties it. -/
def toolTruncated : List (Credentials × FileCall) :=
  toolMade ++ [(.user 1000 1000, .setattr { size := some 0 })]

/-- A trusted user gives it away. -/
def toolGivenAway : List (Credentials × FileCall) :=
  toolMade ++ [(⟨1000, 1000, [], true⟩, .setattr { uid := some 1001 })]

/-- **A truncated file keeps its setuid bit**, and so does one that a trusted user gave to
another owner. -/
theorem changed_file_keeps_setid :
    ¬(toolTruncated.foldl (Watched.serve .still .plain 2) ⟨toolVolume, false⟩).Clear 2 ∧
    ¬(toolGivenAway.foldl (Watched.serve .still .plain 2) ⟨toolVolume, false⟩).Clear 2 := by
  have hno : ∀ w : Watched, w.owed = true ∧ (w.st.db.inodes.get? 2).map Inode.mode = some 0o4755 →
      ¬w.Clear 2 := by
    intro w hw hclear
    obtain ⟨i, hi, hmode⟩ := Option.map_eq_some_iff.mp hw.2
    have := hclear hw.1 i hi
    rw [hmode] at this
    exact absurd this (by decide)
  exact ⟨hno _ (by decide +kernel), hno _ (by decide +kernel)⟩

end SlateFs
