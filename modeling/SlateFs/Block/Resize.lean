import Mathlib.Data.String.Basic
import SlateFs.Block.Runs
import SlateFs.Control.Records

/-!
# Growing a block volume

`volume::resize_block_volume`: the size of a device stands in its superblock and in
the control record. The superblock counts; it is written first, and the record after
it. No chunk is touched: stored chunks end inside the old device, so the new range
reads as zero, and the bill of each chunk stays.

`BlockLife` is the life of a device: served by sessions that may crash, and resized
by calls that may stop after any step.
-/

namespace SlateFs

open OrdMap

/-! ## The call -/

/-- What the offline tools ask of the control plane and the volume's database. -/
inductive AdminCall where
  | getVolume (tenant volume : String)
  | unwrapDek (tenant volume : String) (wrapped : Bytes)
  | getSuperblock
  | putSuperblock (superblock : Superblock)
  | flush
  | putVolume (record : VolumeRecord)

@[reducible] def AdminCall.Ret : AdminCall → Type
  | .getVolume _ _ => Option VolumeRecord
  | .unwrapDek _ _ _ => Except Error Unit
  | .getSuperblock => Option Superblock
  | .putSuperblock _ => Unit
  | .flush => Unit
  | .putVolume _ => Unit

/-- Programs of the offline tools. -/
abbrev AdminM := ExceptT Error (Prog AdminCall AdminCall.Ret Empty)

namespace AdminM

def call (c : AdminCall) : AdminM c.Ret := ExceptT.mk (.call c (fun r => .ret (.ok r)))

def ofExcept {α : Type} (e : Except Error α) : AdminM α := ExceptT.mk (.ret e)

/-- `control::get_volume`. -/
def getVolume (tenant volume : String) : AdminM VolumeRecord := do
  let record ← call (.getVolume tenant volume)
  ofExcept (match record with
    | some record => .ok record
    | none => .error (.notFound "volume" s!"{tenant}/{volume}"))

/-- `control::unwrap_volume_dek`. -/
def unwrapVolumeDek (record : VolumeRecord) : AdminM Unit :=
  if record.wrappedDek = [] then
    throw (.invalid "volume key"
      s!"volume {record.tenant}/{record.name} has been crypto-shredded")
  else do
    let opened ← call (.unwrapDek record.tenant record.name record.wrappedDek)
    ofExcept opened

/-- The record is one of an active block volume, and the size a possible one. -/
def recordedSize (tenant volume : String) (record : VolumeRecord) (newSizeBytes : UInt64) :
    Except Error UInt64 :=
  if record.state ≠ .active then
    .error (.invalid "volume state" s!"{tenant}/{volume} is {record.state.debug}, not Active")
  else
    match record.kind with
    | .filesystem =>
      .error (.invalid "volume kind" "filesystem volume cannot be resized as a block volume")
    | .block recordSize =>
      match validateBlockSize newSizeBytes.toNat record.chunkSize.toNat with
      | .error e => .error (.ofInvalid e)
      | .ok _ => .ok recordSize

/-- The superblock is the record's, and the device does not shrink. -/
def superblockSize (record : VolumeRecord) (superblock : Superblock) (newSizeBytes : UInt64) :
    Except Error UInt64 :=
  match verifySuperblockIdentity record superblock "superblock" with
  | .error e => .error e
  | .ok _ =>
    match superblock.kind with
    | .filesystem =>
      .error (.invalid "superblock" "filesystem superblock cannot be resized as a block volume")
    | .block size =>
      match validateBlockSize size.toNat superblock.chunkSize.toNat with
      | .error e => .error (.ofInvalid e)
      | .ok _ =>
        if newSizeBytes < size then
          .error (.invalid "block size"
            s!"cannot shrink block volume from {size} to {newSizeBytes}")
        else .ok size

/-- Write the new size to the superblock, durably. -/
def writeSuperblock (superblock : Superblock) (oldSize newSizeBytes : UInt64) : AdminM Unit :=
  if newSizeBytes ≠ oldSize then do
    call (.putSuperblock { superblock with kind := .block newSizeBytes })
    call .flush
  else pure ()

/-- Write the new size to the record, also when only the record is stale. -/
def writeRecord (record : VolumeRecord) (recordSize oldSize newSizeBytes : UInt64) :
    AdminM Unit :=
  if recordSize ≠ newSizeBytes ∨ oldSize ≠ newSizeBytes then
    call (.putVolume { record with kind := .block newSizeBytes })
  else pure ()

/-- The superblock is authoritative and comes first: rerunning repairs a stale record. -/
def writeSize (record : VolumeRecord) (recordSize : UInt64) (superblock : Superblock)
    (oldSize newSizeBytes : UInt64) : AdminM VolumeRecord := do
  writeSuperblock superblock oldSize newSizeBytes
  writeRecord record recordSize oldSize newSizeBytes
  pure { record with kind := .block newSizeBytes }

def resizeBlockVolume (tenantName volumeName : String) (newSizeBytes : UInt64) :
    AdminM VolumeRecord := do
  ofExcept (Store.validateName "tenant name" tenantName)
  ofExcept (Store.validateName "volume name" volumeName)
  let record ← getVolume tenantName volumeName
  let recordSize ← ofExcept (recordedSize tenantName volumeName record newSizeBytes)
  unwrapVolumeDek record
  match ← call .getSuperblock with
  | none => throw (.invalid "volume" "no superblock (mkfs incomplete?)")
  | some superblock =>
    let oldSize ← ofExcept (superblockSize record superblock newSizeBytes)
    writeSize record recordSize superblock oldSize newSizeBytes

end AdminM

/-! ## What it works on -/

/-- The control plane's volumes, and the database of the volume at hand. -/
structure VolumeStore where
  volumes : OrdMap (String ×ₗ String) VolumeRecord
  superblock : Option Superblock
  db : Db

/-- How calls are answered; `opens` says which wrapped keys open. -/
def AdminCall.answer (opens : String → String → Bytes → Except Error Unit) :
    Prog.Handler AdminCall AdminCall.Ret VolumeStore
  | .getVolume t v, d => (d.volumes.get? (toLex (t, v)), d)
  | .unwrapDek t v dek, d => (opens t v dek, d)
  | .getSuperblock, d => (d.superblock, d)
  | .putSuperblock sb, d => ((), { d with superblock := some sb })
  | .flush, d => ((), d)
  | .putVolume r, d => ((), { d with volumes := d.volumes.insert (toLex (r.tenant, r.name)) r })

namespace AdminM

variable {opens : String → String → Bytes → Except Error Unit} {α β : Type} {d d₁ d' : VolumeStore}

/-- Run a program to its end. -/
def exec (opens : String → String → Bytes → Except Error Unit) (p : AdminM α) (d : VolumeStore) :
    Option (Except Error α × VolumeStore) :=
  p.run.run (AdminCall.answer opens) d

/-- The states a program passes through. -/
def Passes (opens : String → String → Bytes → Except Error Unit) (p : AdminM α)
    (d d₁ : VolumeStore) : Prop :=
  Prog.Visits (AdminCall.answer opens) p.run d d₁

/-- Calls are answered from the store, and the states they leave are in `I`. -/
def watch (opens : String → String → Bytes → Except Error Unit) (I : VolumeStore → Prop) :
    Prog.Ghost AdminCall AdminCall.Ret Empty VolumeStore where
  ans c d r d' := c.answer opens d = (r, d')
  ok _ _ _ d' := I d'
  acq _ d := d
  rel _ d := d
  stuck := False

/-- The program passes through states in `I` and ends with `Q`. -/
def Ends (opens : String → String → Bytes → Except Error Unit) (I : VolumeStore → Prop)
    (Q : Except Error α → VolumeStore → Prop) (p : AdminM α) (d : VolumeStore) : Prop :=
  Prog.wp (watch opens I) Q p.run d

variable {I : VolumeStore → Prop} {p : AdminM α} {Q : Except Error α → VolumeStore → Prop}

lemma Ends.exec (h : Ends opens I Q p d) :
    ∃ r d', AdminM.exec opens p d = some (r, d') ∧ Q r d' := by
  have hsim : Prog.Simulates (AdminCall.answer opens) (watch opens I) Eq := by
    refine ⟨?_, nofun, nofun⟩
    rintro c s _ rfl
    exact ⟨_, rfl, fun _ => rfl⟩
  obtain ⟨r, d', _, hrun, rfl, hQ⟩ := (Prog.wp_ends hsim rfl h).resolve_left fun h => h.2
  exact ⟨r, d', hrun, hQ⟩

lemma Ends.passes (h : Ends opens I Q p d) (hd : I d) (hp : Passes opens p d d₁) : I d₁ := by
  obtain ⟨_, -, hI⟩ := Prog.wp_visits (V := fun s d => s = d ∧ I s)
    ⟨fun c s _ h => ⟨_, h.1 ▸ rfl, fun hok => ⟨rfl, hok⟩⟩, nofun, nofun⟩ ⟨rfl, hd⟩ h hp
  exact hI

lemma ends_call {c : AdminCall} {f : c.Ret → AdminM α} {r : c.Ret}
    (hc : c.answer opens d = (r, d')) (hI : I d') (h : Ends opens I Q (f r) d') :
    Ends opens I Q (call c >>= f) d := by
  intro r₁ d₁ hans
  obtain ⟨rfl, rfl⟩ := Prod.mk.inj (hc.symm.trans hans)
  exact ⟨hI, h⟩

lemma ends_ofExcept {e : Except Error β} {f : β → AdminM α}
    (herr : ∀ x, e = .error x → Q (.error x) d)
    (hok : ∀ b, e = .ok b → Ends opens I Q (f b) d) : Ends opens I Q (ofExcept e >>= f) d := by
  cases e with
  | error x => exact herr x rfl
  | ok b => exact hok b rfl

/-! ## What it does -/

/-- The call goes through: what it reads and what its checks say. -/
structure Accepts (opens : String → String → Bytes → Except Error Unit) (t v : String)
    (new : UInt64) (d : VolumeStore) (record : VolumeRecord) (recordSize : UInt64) (sb : Superblock)
    (oldSize : UInt64) : Prop where
  tenant : Store.validateName "tenant name" t = .ok ()
  volume : Store.validateName "volume name" v = .ok ()
  found : d.volumes.get? (toLex (t, v)) = some record
  recorded : recordedSize t v record new = .ok recordSize
  wrapped : record.wrappedDek ≠ []
  opened : opens record.tenant record.name record.wrappedDek = .ok ()
  superblock : d.superblock = some sb
  size : superblockSize record sb new = .ok oldSize

variable {t v : String} {new recordSize oldSize : UInt64} {record : VolumeRecord}
  {sb : Superblock}

lemma ends_getVolume {f : VolumeRecord → AdminM α} (hd : I d)
    (hnone : d.volumes.get? (toLex (t, v)) = none → ∀ e, Q (.error e) d)
    (hsome : ∀ record, d.volumes.get? (toLex (t, v)) = some record → Ends opens I Q (f record) d) :
    Ends opens I Q (getVolume t v >>= f) d := by
  rw [getVolume, bind_assoc]
  cases hget : d.volumes.get? (toLex (t, v)) with
  | none => exact ends_call (r := none) (by rw [AdminCall.answer, hget]) hd (hnone hget _)
  | some r => exact ends_call (r := some r) (by rw [AdminCall.answer, hget]) hd (hsome r hget)

lemma ends_unwrapVolumeDek {f : Unit → AdminM α} (hd : I d)
    (hno : ¬(record.wrappedDek ≠ [] ∧ opens record.tenant record.name record.wrappedDek = .ok ()) →
      ∀ e, Q (.error e) d)
    (hok : record.wrappedDek ≠ [] → opens record.tenant record.name record.wrappedDek = .ok () →
      Ends opens I Q (f ()) d) : Ends opens I Q (unwrapVolumeDek record >>= f) d := by
  unfold unwrapVolumeDek
  by_cases hw : record.wrappedDek = []
  · rw [if_pos hw]
    exact hno (fun h => h.1 hw) _
  · rw [if_neg hw, bind_assoc]
    refine ends_call rfl hd (ends_ofExcept (fun e he => hno (fun h => ?_) e) fun _ ho => hok hw ho)
    cases h.2.symm.trans he

/-- **The call is refused, or goes on to write.** -/
theorem ends_resize {Q : Except Error VolumeRecord → VolumeStore → Prop} (hd : I d)
    (hno : (∀ record recordSize sb oldSize,
      ¬Accepts opens t v new d record recordSize sb oldSize) → ∀ e, Q (.error e) d)
    (hok : ∀ record recordSize sb oldSize, Accepts opens t v new d record recordSize sb oldSize →
      Ends opens I Q (writeSize record recordSize sb oldSize new) d) :
    Ends opens I Q (resizeBlockVolume t v new) d := by
  refine ends_ofExcept (fun e he => hno (fun _ _ _ _ ha => ?_) e) fun _ htenant => ?_
  · cases ha.tenant.symm.trans he
  refine ends_ofExcept (fun e he => hno (fun _ _ _ _ ha => ?_) e) fun _ hvolume => ?_
  · cases ha.volume.symm.trans he
  refine ends_getVolume hd (fun hnone => hno fun _ _ _ _ ha => ?_) fun record hfound => ?_
  · cases ha.found.symm.trans hnone
  -- whatever is accepted is accepted for this record
  replace hno : (∀ recordSize sb oldSize,
      ¬Accepts opens t v new d record recordSize sb oldSize) → ∀ e, Q (.error e) d := by
    refine fun h => hno fun record' _ _ _ ha => ?_
    obtain rfl := Option.some.inj (ha.found.symm.trans hfound)
    exact h _ _ _ ha
  refine ends_ofExcept (fun e he => hno (fun _ _ _ ha => ?_) e) fun recordSize hrecorded => ?_
  · cases ha.recorded.symm.trans he
  refine ends_unwrapVolumeDek hd (fun h => hno fun _ _ _ ha => h ⟨ha.wrapped, ha.opened⟩)
    fun hwrapped hopened => ?_
  cases hsb : d.superblock with
  | none =>
    refine ends_call (r := none) (by rw [AdminCall.answer, hsb]) hd (hno (fun _ _ _ ha => ?_) _)
    cases ha.superblock.symm.trans hsb
  | some sb =>
    refine ends_call (r := some sb) (by rw [AdminCall.answer, hsb]) hd (ends_ofExcept
      (fun e he => ?_) fun oldSize hsize => hok record recordSize sb oldSize
        ⟨htenant, hvolume, hfound, hrecorded, hwrapped, hopened, hsb, hsize⟩)
    refine hno (fun _ _ _ ha => ?_) e
    obtain rfl := Option.some.inj (ha.superblock.symm.trans hsb)
    cases ha.size.symm.trans he

/-- A call that is not accepted changes nothing. -/
lemma ends_refused (hno : ¬∃ record recordSize sb oldSize,
    Accepts opens t v new d record recordSize sb oldSize) :
    Ends opens (· = d) (fun r _ => ∃ e, r = .error e) (resizeBlockVolume t v new) d :=
  ends_resize rfl (fun _ e => ⟨e, rfl⟩) fun _ _ _ _ ha => (hno ⟨_, _, _, _, ha⟩).elim

lemma accepts_of_exec {r : VolumeRecord}
    (h : exec opens (resizeBlockVolume t v new) d = some (.ok r, d')) :
    ∃ record recordSize sb oldSize, Accepts opens t v new d record recordSize sb oldSize := by
  by_contra hno
  obtain ⟨_, _, hrun, e, rfl⟩ := (ends_refused hno).exec
  rw [h] at hrun
  cases hrun

/-! ## What the checks say -/

/-- The checks on the record. -/
structure Recorded (record : VolumeRecord) (new recordSize : UInt64) : Prop where
  active : record.state = .active
  kind : record.kind = .block recordSize
  valid : validateBlockSize new.toNat record.chunkSize.toNat = .ok ()

lemma recordedSize_iff :
    recordedSize t v record new = .ok recordSize ↔ Recorded record new recordSize := by
  unfold recordedSize
  constructor
  · intro h
    split at h
    · cases h
    rename_i hs
    split at h
    · cases h
    rename_i n hk
    split at h
    · cases h
    rename_i hv
    cases h
    exact ⟨not_not.mp hs, hk, hv⟩
  · rintro ⟨hs, hk, hv⟩
    rw [if_neg (not_not.mpr hs), hk]
    rw [hv]

/-- The checks on the superblock. -/
structure Grows (record : VolumeRecord) (sb : Superblock) (new oldSize : UInt64) : Prop where
  same : verifySuperblockIdentity record sb "superblock" = .ok ()
  kind : sb.kind = .block oldSize
  valid : validateBlockSize oldSize.toNat sb.chunkSize.toNat = .ok ()
  le : oldSize ≤ new

lemma superblockSize_iff :
    superblockSize record sb new = .ok oldSize ↔ Grows record sb new oldSize := by
  unfold superblockSize
  constructor
  · intro h
    split at h
    · cases h
    rename_i hid
    split at h
    · cases h
    rename_i n hk
    split at h
    · cases h
    rename_i hv
    split at h
    · cases h
    rename_i hle
    cases h
    exact ⟨hid, hk, hv, UInt64.not_lt.mp hle⟩
  · rintro ⟨hid, hk, hv, hle⟩
    rw [hid, hk]
    dsimp only
    rw [hv]
    rw [if_neg (UInt64.not_lt.mpr hle)]

/-! ## Where it ends -/

/-- The superblock says the new size. -/
def superblockSized (d : VolumeStore) (sb : Superblock) (new : UInt64) : VolumeStore :=
  { d with superblock := some { sb with kind := .block new } }

/-- The superblock and the record say the new size. -/
def sized (d : VolumeStore) (record : VolumeRecord) (sb : Superblock) (new : UInt64) :
    VolumeStore :=
  { superblockSized d sb new with
    volumes := d.volumes.insert (toLex (record.tenant, record.name))
      { record with kind := .block new } }

/-- The superblock keeps the record's chunk size, so the new size is one of the device. -/
lemma Accepts.valid (h : Accepts opens t v new d record recordSize sb oldSize) :
    validateBlockSize new.toNat sb.chunkSize.toNat = .ok () := by
  have hsame := (superblockSize_iff.mp h.size).same
  unfold verifySuperblockIdentity at hsame
  repeat' split at hsame
  all_goals cases hsame
  rename_i hchunk
  rw [not_not.mp hchunk]
  exact (recordedSize_iff.mp h.recorded).valid

namespace Accepts

variable (h : Accepts opens t v new d record recordSize sb oldSize)
  (hkey : record.tenant = t ∧ record.name = v)
include h hkey

lemma stored : d.volumes.get? (toLex (record.tenant, record.name)) = some record := by
  rw [hkey.1, hkey.2]
  exact h.found

/-- The two writes; what has the new size already is as good as written. -/
lemma ends_writeSize {Q : Except Error VolumeRecord → VolumeStore → Prop}
    (hsb : I (superblockSized d sb new)) (hrecord : I (sized d record sb new))
    (hQ : Q (.ok { record with kind := .block new }) (sized d record sb new)) :
    Ends opens I Q (writeSize record recordSize sb oldSize new) d := by
  have hrest : Ends opens I Q (writeRecord record recordSize oldSize new >>= fun _ =>
      pure { record with kind := .block new }) (superblockSized d sb new) := by
    unfold writeRecord
    split
    · exact ends_call rfl hrecord hQ
    · rename_i hn
      rw [not_or, not_not] at hn
      have hsame : sized d record sb new = superblockSized d sb new := by
        unfold sized
        rw [← hn.1, ← (recordedSize_iff.mp h.recorded).kind, insert_eq_self (h.stored hkey)]
        rfl
      rw [hsame] at hQ
      exact hQ
  unfold writeSize writeSuperblock
  split
  · exact ends_call rfl hsb (ends_call rfl hsb hrest)
  · rename_i hn
    have hsame : superblockSized d sb new = d := by
      unfold superblockSized
      rw [not_not.mp hn, ← (superblockSize_iff.mp h.size).kind, ← h.superblock]
    rw [hsame] at hrest
    exact hrest

/-- **An accepted call writes the new size to both places**; it stops before the first write,
between the two or after the second. -/
theorem ends : Ends opens
    (fun d₁ => d₁ = d ∨ d₁ = superblockSized d sb new ∨ d₁ = sized d record sb new)
    (fun r d' => r = .ok { record with kind := .block new } ∧ d' = sized d record sb new)
    (resizeBlockVolume t v new) d := by
  refine ends_resize (.inl rfl) (fun hno => (hno _ _ _ _ h).elim) fun record' _ sb' _ h' => ?_
  obtain rfl : record' = record := Option.some.inj (h'.found.symm.trans h.found)
  obtain rfl : sb' = sb := Option.some.inj (h'.superblock.symm.trans h.superblock)
  exact h'.ends_writeSize hkey (.inr (.inl rfl)) (.inr (.inr rfl)) ⟨rfl, rfl⟩

lemma resizes : AdminM.exec opens (resizeBlockVolume t v new) d
    = some (.ok { record with kind := .block new }, sized d record sb new) := by
  obtain ⟨_, _, hrun, rfl, rfl⟩ := (h.ends hkey).exec
  exact hrun

omit hkey in
/-- From the state between the two writes the call is accepted again. -/
lemma again : Accepts opens t v new (superblockSized d sb new) record recordSize
    { sb with kind := .block new } new where
  tenant := h.tenant
  volume := h.volume
  found := h.found
  recorded := h.recorded
  wrapped := h.wrapped
  opened := h.opened
  superblock := rfl
  size := superblockSize_iff.mpr
    ⟨(superblockSize_iff.mp h.size).same, rfl, h.valid, UInt64.le_refl new⟩

lemma once_more : Accepts opens t v new (sized d record sb new)
    { record with kind := .block new } new { sb with kind := .block new } new where
  tenant := h.tenant
  volume := h.volume
  found := by
    unfold sized
    rw [hkey.1, hkey.2]
    exact get?_insert_self ..
  recorded := by
    have hr := recordedSize_iff.mp h.recorded
    exact recordedSize_iff.mpr ⟨hr.active, rfl, hr.valid⟩
  wrapped := h.wrapped
  opened := h.opened
  superblock := rfl
  size := superblockSize_iff.mpr
    ⟨(superblockSize_iff.mp h.size).same, rfl, h.valid, UInt64.le_refl new⟩

/-- **Stopped anywhere and run again, it reaches the same end.** -/
theorem rerun (hp : Passes opens (resizeBlockVolume t v new) d d₁) :
    AdminM.exec opens (resizeBlockVolume t v new) d₁
      = some (.ok { record with kind := .block new }, sized d record sb new) := by
  rcases (h.ends hkey).passes (.inl rfl) hp with rfl | rfl | rfl
  · exact h.resizes hkey
  · exact h.again.resizes hkey
  have hend := (h.once_more hkey).resizes hkey
  have hsame : sized (sized d record sb new) { record with kind := .block new }
      { sb with kind := .block new } new = sized d record sb new := by
    have hput := insert_eq_self (get?_insert_self d.volumes
      (toLex (record.tenant, record.name)) { record with kind := .block new })
    unfold sized superblockSized
    rw [hput]
  rw [hsame] at hend
  exact hend

end Accepts

end AdminM

end SlateFs
