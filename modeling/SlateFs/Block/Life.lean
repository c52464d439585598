import SlateFs.Block.Resize
import SlateFs.Fsck.Block
import SlateFs.Fsck.Sound

/-!
# The life of a block volume

A device is formatted, served in sessions that may end in a crash, and grown by calls
that may stop after any of their writes. `BlockLife` are the states in between. In all
of them the device is well stored for the size its superblock says, which is what a
larger size needs: nothing is stored beyond the old end.
-/

namespace SlateFs

open AdminM Superblock

/-! ## More room -/

namespace BlockVolume

variable {g g' : BlockVolume} {db : Db}

/-- A device that is well stored is so for a larger size too. -/
lemma Booked.grow (h : g.Booked db) (hcs : g'.chunkSize = g.chunkSize)
    (hle : g.sizeBytes ≤ g'.sizeBytes) : g'.Booked db where
  stored :=
    { own := h.stored.own
      nonempty := h.stored.nonempty
      short := hcs ▸ h.stored.short
      inside := fun idx c hc => by
        rw [hcs]
        exact Nat.le_trans (h.stored.inside idx c hc) hle }
  counter := h.counter

lemma Stored.byteAt_beyond (h : g.Stored db) {p : Nat} (hp : g.sizeBytes ≤ p) :
    byteAt g.chunkSize db BLOCK_INO p = 0 := by
  unfold byteAt
  cases hc : db.chunks.get? (toLex (BLOCK_INO, p / g.chunkSize)) with
  | none => exact getD_of_length_le (Nat.zero_le _)
  | some c =>
    have hin := h.inside _ c hc
    have hmod : p % g.chunkSize = p - p / g.chunkSize * g.chunkSize := mod_eq_sub
    exact getD_of_length_le (show c.length ≤ p % g.chunkSize by omega)

/-- **The old range keeps its bytes and the new one reads as zero.** -/
theorem Stored.device_grow (h : g.Stored db) (hcs : g'.chunkSize = g.chunkSize)
    (hle : g.sizeBytes ≤ g'.sizeBytes) :
    g'.device db = g.device db ++ List.replicate (g'.sizeBytes - g.sizeBytes) 0 := by
  unfold device contents
  rw [hcs]
  obtain ⟨n, hn⟩ := Nat.exists_eq_add_of_le hle
  rw [hn, List.range_add, List.map_append, List.map_map, Nat.add_sub_cancel_left]
  congr 1
  refine List.eq_replicate_iff.mpr ⟨by rw [List.length_map, List.length_range], ?_⟩
  intro b hb
  obtain ⟨q, _, rfl⟩ := List.mem_map.mp hb
  exact h.byteAt_beyond (Nat.le_add_right _ _)

/-- What the checker recounts is what is stored. -/
lemma Booked.recounted (h : g.Booked db) (sb : Option Superblock) :
    (Fsck.checkBlock sb db g.sizeBytes g.chunkSize).bytesCounted = db.quotaBytes := by
  rw [h.counter, h.stored.storedBytes_eq, Fsck.billedOf_eq_sum]
  unfold Fsck.checkBlock Fsck.deviceChunks
  induction Fsck.chunksOf db BLOCK_INO with
  | nil => rfl
  | cons c cs ih =>
    dsimp only at ih ⊢
    rw [List.map_cons, List.sum_cons, ih, List.map_cons, List.sum_cons, Int64.ofNat_add]

end BlockVolume

/-! ## Sessions -/

/-- The states between two calls of a device opened on `db`; a crash may come after any
step of a call, and the device is then opened on what was committed. -/
inductive BlockServes (g : BlockVolume) (limits : QuotaLimits) (db : Db) : St → Prop where
  | opened (ticks commits : Nat) : BlockServes g limits db (openedBlock db limits ticks commits)
  | call {s s' : St} {op : BlockOp} {env : Env} {fuel : Nat} {r : Except Abort Reply}
      (h : BlockServes g limits db s)
      (hr : (op.prog g fuel).run.run (Call.answer env) s = some (r, s')) :
      BlockServes g limits db s'
  | crash {s s' : St} {op : BlockOp} {env : Env} {fuel : Nat} (h : BlockServes g limits db s)
      (hv : Prog.Visits (Call.answer env) (op.prog g fuel).run s s') (ticks : Nat) :
      BlockServes g limits db (openedBlock s'.db limits ticks s'.commits)

lemma BlockServes.booked {g : BlockVolume} {limits : QuotaLimits} {db : Db} {s : St}
    (h : BlockServes g limits db s) (hdb : g.Booked db) :
    g.Booked s.db ∧ s.mem.quota.limits = limits := by
  induction h with
  | opened => exact ⟨hdb, rfl⟩
  | call _ hr ih => exact booked_visits ih.1 ih.2 (.of_run hr)
  | crash _ hv ticks ih => exact ⟨(booked_visits ih.1 ih.2 hv).1, rfl⟩

/-! ## Lives -/

/-- The device a superblock describes. -/
def Superblock.device (sb : Superblock) (size : UInt64)
    (h : validateBlockSize size.toNat sb.chunkSize.toNat = .ok ()) : BlockVolume :=
  ⟨size.toNat, sb.chunkSize.toNat, size.toNat_lt, sb.chunkSize.toNat_lt, h⟩

@[simp] lemma Superblock.device_sizeBytes (sb : Superblock) (size : UInt64)
    (h : validateBlockSize size.toNat sb.chunkSize.toNat = .ok ()) :
    (sb.device size h).sizeBytes = size.toNat := rfl

@[simp] lemma Superblock.device_chunkSize (sb : Superblock) (size : UInt64)
    (h : validateBlockSize size.toNat sb.chunkSize.toNat = .ok ()) :
    (sb.device size h).chunkSize = sb.chunkSize.toNat := rfl

/-- Records are kept under the names they carry. -/
def Keyed (volumes : OrdMap (String ×ₗ String) VolumeRecord) : Prop :=
  ∀ t v r, volumes.get? (toLex (t, v)) = some r → r.tenant = t ∧ r.name = v

/-- The states of the block volume called `t`/`v`. -/
inductive BlockLife (opens : String → String → Bytes → Except Error Unit) (t v : String) :
    VolumeStore → Prop where
  | formatted {d : VolumeStore} {sb : Superblock} {size : UInt64} (hkeys : Keyed d.volumes)
      (hs : d.superblock = some sb) (hk : sb.kind = .block size)
      (hv : validateBlockSize size.toNat sb.chunkSize.toNat = .ok ()) (hdb : d.db = mkfsBlock) :
      BlockLife opens t v d
  /-- Other calls on the control plane change records. -/
  | recorded {d : VolumeStore} (h : BlockLife opens t v d)
      {volumes : OrdMap (String ×ₗ String) VolumeRecord} (hkeys : Keyed volumes) :
      BlockLife opens t v { d with volumes := volumes }
  | served {d : VolumeStore} {sb : Superblock} {size : UInt64} {limits : QuotaLimits} {s : St}
      (h : BlockLife opens t v d) (hs : d.superblock = some sb) (hk : sb.kind = .block size)
      (hv : validateBlockSize size.toNat sb.chunkSize.toNat = .ok ())
      (hserve : BlockServes (sb.device size hv) limits d.db s) :
      BlockLife opens t v { d with db := s.db }
  /-- A resize that ran to its end or stopped before it. -/
  | resized {d d₁ : VolumeStore} {new : UInt64} (h : BlockLife opens t v d)
      (hp : Passes opens (resizeBlockVolume t v new) d d₁) : BlockLife opens t v d₁

variable {opens : String → String → Bytes → Except Error Unit} {t v : String} {d : VolumeStore}

/-- The superblock describes a device, and it is well stored. -/
structure Sized (d : VolumeStore) (sb : Superblock) (size : UInt64) : Prop where
  keyed : Keyed d.volumes
  superblock : d.superblock = some sb
  kind : sb.kind = .block size
  valid : validateBlockSize size.toNat sb.chunkSize.toNat = .ok ()
  booked : (sb.device size valid).Booked d.db

lemma Keyed.insert {volumes : OrdMap (String ×ₗ String) VolumeRecord} (h : Keyed volumes)
    (r : VolumeRecord) : Keyed (volumes.insert (toLex (r.tenant, r.name)) r) := by
  intro t v r' hr'
  rcases OrdMap.of_get?_insert hr' with ⟨hk, rfl⟩ | hr'
  · obtain ⟨rfl, rfl⟩ := Prod.mk.inj (toLex.injective hk)
    exact ⟨rfl, rfl⟩
  · exact h t v r' hr'

lemma Sized.resized {sb : Superblock} {size new recordSize oldSize : UInt64}
    {record : VolumeRecord} {d₁ : VolumeStore} (h : Sized d sb size)
    (ha : Accepts opens t v new d record recordSize sb oldSize)
    (hd : d₁ = superblockSized d sb new ∨ d₁ = sized d record sb new) :
    Sized d₁ { sb with kind := .block new } new := by
  have hkey := h.keyed t v record ha.found
  have hgrow := superblockSize_iff.mp ha.size
  obtain rfl : oldSize = size := VolumeKind.block.inj (hgrow.kind.symm.trans h.kind)
  have hle : oldSize.toNat ≤ new.toNat := UInt64.le_iff_toNat_le.mp hgrow.le
  have hbooked : (device { sb with kind := .block new } new
      ha.valid).Booked d.db :=
    h.booked.grow ((device_chunkSize ..).trans (device_chunkSize ..).symm)
      (by rwa [device_sizeBytes, device_sizeBytes])
  rcases hd with rfl | rfl
  · exact ⟨h.keyed, rfl, rfl, ha.valid, hbooked⟩
  · exact ⟨h.keyed.insert { record with kind := .block new }, rfl, rfl, ha.valid, hbooked⟩

/-- **In every state of its life a device is well stored.** -/
theorem BlockLife.sized (h : BlockLife opens t v d) : ∃ sb size, Sized d sb size := by
  induction h with
  | @formatted d sb size hkeys hs hk hv hdb =>
    exact ⟨sb, size, hkeys, hs, hk, hv, hdb ▸ mkfsBlock_booked _⟩
  | recorded _ hkeys ih =>
    obtain ⟨sb, size, hz⟩ := ih
    exact ⟨sb, size, hkeys, hz.superblock, hz.kind, hz.valid, hz.booked⟩
  | @served d sb size limits s _ hs hk hv hserve ih =>
    obtain ⟨sb', size', hz⟩ := ih
    obtain rfl : sb' = sb := Option.some.inj (hz.superblock.symm.trans hs)
    obtain rfl : size' = size := VolumeKind.block.inj (hz.kind.symm.trans hk)
    exact ⟨sb', size', hz.keyed, hs, hk, hv, (hserve.booked hz.booked).1⟩
  | @resized d d₁ new _ hp ih =>
    obtain ⟨sb, size, hz⟩ := ih
    by_cases hacc : ∃ record recordSize sb oldSize,
      Accepts opens t v new d record recordSize sb oldSize
    swap
    · obtain rfl := (ends_refused hacc).passes rfl hp
      exact ⟨sb, size, hz⟩
    obtain ⟨record, recordSize, sb', oldSize, ha⟩ := hacc
    obtain rfl : sb' = sb := Option.some.inj (ha.superblock.symm.trans hz.superblock)
    rcases (ha.ends (hz.keyed t v record ha.found)).passes (.inl rfl) hp with rfl | hd
    · exact ⟨sb', size, hz⟩
    · exact ⟨_, new, hz.resized ha hd⟩

/--
**Growing a device.** In every state of its life, a resize that is accepted keeps the
bytes of the old range, reads as zero in the new one and leaves the counter at what a
check recounts. Stopped after any step and run again, it completes and ends in the
same state.
-/
theorem resize_grows_device (opens : String → String → Bytes → Except Error Unit) (t v : String)
    (d : VolumeStore) (hlife : BlockLife opens t v d) (new : UInt64) (r : VolumeRecord)
    (d' : VolumeStore)
    (haccept : exec opens (resizeBlockVolume t v new) d = some (.ok r, d')) :
    ∃ (sb : Superblock) (old : UInt64)
      (hold : validateBlockSize old.toNat sb.chunkSize.toNat = .ok ())
      (hnew : validateBlockSize new.toNat sb.chunkSize.toNat = .ok ()),
      d.superblock = some sb ∧ sb.kind = .block old ∧ old ≤ new
      ∧ d'.superblock = some { sb with kind := .block new }
      ∧ d'.volumes.get? (toLex (t, v)) = some r ∧ r.kind = .block new
      ∧ (sb.device new hnew).device d'.db = (sb.device old hold).device d.db
          ++ List.replicate (new.toNat - old.toNat) 0
      ∧ (Fsck.checkBlock d'.superblock d'.db new.toNat sb.chunkSize.toNat).bytesCounted
          = d'.db.quotaBytes
      ∧ ∀ d₁, Passes opens (resizeBlockVolume t v new) d d₁ →
          exec opens (resizeBlockVolume t v new) d₁ = some (.ok r, d') := by
  obtain ⟨sb, old, hz⟩ := hlife.sized
  obtain ⟨record, recordSize, sb', oldSize, ha⟩ := accepts_of_exec haccept
  obtain rfl : sb' = sb := Option.some.inj (ha.superblock.symm.trans hz.superblock)
  have hgrow := superblockSize_iff.mp ha.size
  obtain rfl : oldSize = old := VolumeKind.block.inj (hgrow.kind.symm.trans hz.kind)
  have hkey := hz.keyed t v record ha.found
  have hend := ha.resizes hkey
  rw [haccept] at hend
  obtain ⟨hr, rfl⟩ := Prod.mk.inj (Option.some.inj hend)
  obtain rfl := Except.ok.inj hr
  have hle : oldSize.toNat ≤ new.toNat := UInt64.le_iff_toNat_le.mp hgrow.le
  have hafter := hz.resized ha (.inr rfl)
  have hcs := (Superblock.device_chunkSize sb' new ha.valid).trans
    (Superblock.device_chunkSize sb' oldSize hz.valid).symm
  have hdevice := hz.booked.stored.device_grow hcs
    (by rwa [Superblock.device_sizeBytes, Superblock.device_sizeBytes])
  refine ⟨sb', oldSize, hz.valid, ha.valid, hz.superblock, hz.kind, hgrow.le, rfl, ?_, rfl,
    hdevice, ?_, ?_⟩
  · have hput := OrdMap.get?_insert_self d.volumes (toLex (record.tenant, record.name))
      { record with kind := .block new }
    rw [← hkey.1, ← hkey.2]
    exact hput
  · have hcount := hafter.booked.recounted (sized d record sb' new).superblock
    exact hcount
  · intro d₁ hp
    exact ha.rerun hkey hp

/-- A device that was formatted here is served on what formatting stored. -/
lemma BlockRests.serves {g : BlockVolume} {limits : QuotaLimits} {s : St}
    (h : BlockRests g limits s) : BlockServes g limits mkfsBlock s := by
  induction h with
  | opened => exact .opened 0 0
  | call _ hr ih => exact ih.call hr
  | crash _ hv ticks ih => exact ih.crash hv ticks

/-- The record and the superblock of a device of two chunks of a page. -/
def tinyRecord : VolumeRecord :=
  ⟨"t", "v", .active, none, none, 7, [1], .aes256Gcm, 4096, .none, {}, .block 8192, none, 0⟩

def tinySuperblock : Superblock := ⟨7, .aes256Gcm, 4096, true, 0, .block 8192⟩

def tinyDisk (db : Db) : VolumeStore where
  volumes := OrdMap.insert ∅ (toLex ("t", "v")) tinyRecord
  superblock := some tinySuperblock
  db := db

lemma tiny_sizes : validateBlockSize (8192 : UInt64).toNat (4096 : UInt32).toNat = .ok ()
    ∧ validateBlockSize (12288 : UInt64).toNat (4096 : UInt32).toNat = .ok () := by
  have h₁ : (8192 : UInt64).toNat = 8192 := by decide
  have h₂ : (12288 : UInt64).toNat = 12288 := by decide
  have h₃ : (4096 : UInt32).toNat = 4096 := by decide
  rw [h₁, h₂, h₃]
  exact ⟨rfl, rfl⟩

lemma tinyDisk_life (opens : String → String → Bytes → Except Error Unit) {s : St}
    (h : BlockRests (tinySuperblock.device 8192 tiny_sizes.1) {} s) :
    BlockLife opens "t" "v" (tinyDisk s.db) := by
  have hkeys : Keyed (tinyDisk mkfsBlock).volumes := by
    refine Keyed.insert ?_ tinyRecord
    intro t v r h
    cases h
  have hformatted : BlockLife opens "t" "v" (tinyDisk mkfsBlock) :=
    .formatted hkeys rfl rfl tiny_sizes.1 rfl
  exact hformatted.served rfl rfl tiny_sizes.1 h.serves

lemma tinyDisk_accepts (db : Db) : Accepts (fun _ _ _ => .ok ()) "t" "v" 12288 (tinyDisk db)
    tinyRecord 8192 tinySuperblock 8192 where
  tenant := if_pos (by decide)
  volume := if_pos (by decide)
  found := OrdMap.get?_insert_self ..
  recorded := recordedSize_iff.mpr ⟨rfl, rfl, tiny_sizes.2⟩
  wrapped := by decide
  opened := rfl
  superblock := rfl
  size := superblockSize_iff.mpr ⟨rfl, rfl, tiny_sizes.1, by decide⟩

/-- Two bytes are written across its chunks, and a third chunk is added to it, in one go or two. -/
theorem tinyDisk_grows : ∃ db r d',
    db.chunks.get? (toLex (BLOCK_INO, 1)) = some [2]
    ∧ BlockLife (fun _ _ _ => .ok ()) "t" "v" (tinyDisk db)
    ∧ exec (fun _ _ _ => .ok ()) (resizeBlockVolume "t" "v" 12288) (tinyDisk db) = some (.ok r, d')
    ∧ ∀ d₁, Passes (fun _ _ _ => .ok ()) (resizeBlockVolume "t" "v" 12288) (tinyDisk db) d₁ →
      exec (fun _ _ _ => .ok ()) (resizeBlockVolume "t" "v" 12288) d₁ = some (.ok r, d') := by
  let g := tinySuperblock.device 8192 tiny_sizes.1
  have hfit : 4095 + ([1, 2] : Bytes).length ≤ g.sizeBytes := by decide
  obtain ⟨s, hs, hw⟩ := write_lands (g := g) .opened hfit (List.cons_ne_nil _ _)
  have hmem : 1 ∈ writtenRange g.chunkSize 4095 ([1, 2] : Bytes).length := by decide
  have hlife := tinyDisk_life (fun _ _ _ => .ok ()) hs
  have hrun := (tinyDisk_accepts s.db).resizes ⟨rfl, rfl⟩
  obtain ⟨_, _, _, _, _, _, _, _, _, _, _, _, hrerun⟩ :=
    resize_grows_device (fun _ _ _ => .ok ()) "t" "v" (tinyDisk s.db) hlife 12288 _ _ hrun
  refine ⟨s.db, _, _, ?_, hlife, hrun, hrerun⟩
  rw [hw, if_pos ⟨rfl, hmem⟩]
  decide +kernel

end SlateFs
