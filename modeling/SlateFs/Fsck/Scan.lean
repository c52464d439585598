import SlateFs.Core.Keys
import SlateFs.Fsck.Sound
import SlateFs.Lib.Families

/-!
# What the checker scans

`scan_all` passes over every key of a volume and sorts the records into families. It tells an
inode, a link target and an orphan marker by the tag and an inode number, whatever follows: a key
that is longer than those of the schema is taken for the record of that inode, and being later in
key order it takes the place of the real one. Without such keys the scan finds what the volume
itself would read.
-/

namespace SlateFs.Fsck

open Keys Families

/-- What the families read in the values of a store. -/
structure Values (β : Type) where
  inode : β → Option Inode
  dirent : β → Option Dirent
  direntIdx : β → Option DirentIdx
  orphan : β → Option Orphan
  bytes : β → Bytes
  counter : β → Int64

/-- `Some(tag)` and `parse_ino` -/
def scanIno (tag : UInt8) (key : Bytes) : Option Ino :=
  if key.head? = some tag then (parseIno key).map UInt64.toNat else none

def scanDirent (key : Bytes) : Option (Ino ×ₗ Bytes) :=
  if key.head? = some 100 then (parseIno key).map fun p => toLex (p.toNat, key.drop 9) else none

def scanDirentIdx (key : Bytes) : Option (Ino ×ₗ Nat) :=
  (parseDirentIdx key).map fun k => toLex (k.1.toNat, k.2.toNat)

def scanChunk (key : Bytes) : Option (Ino ×ₗ Nat) :=
  (parseChunk key).map fun k => toLex (k.1.toNat, k.2.toNat)

variable {β : Type}

/-- `scan_all`; extended attributes and the allocator's mark are not read. -/
def scanAll (V : Values β) (store : OrdMap Bytes β) : Option Db := do
  let inodes ← collect (scanIno 105) V.inode store.entries ∅
  let dirents ← collect scanDirent V.dirent store.entries ∅
  let direntIdxs ← collect scanDirentIdx V.direntIdx store.entries ∅
  let chunks ← collect scanChunk (fun v => some (V.bytes v)) store.entries ∅
  let orphans ← collect (scanIno 111) V.orphan store.entries ∅
  let symlinks ← collect (scanIno 115) (fun v => some (V.bytes v)) store.entries ∅
  some
    { inodes, dirents, direntIdxs, chunks, symlinks, orphans
      xattrs := ∅
      quotaBytes := (store.get? KEY_QUOTA_BYTES).elim 0 V.counter
      quotaInodes := (store.get? KEY_QUOTA_INODES).elim 0 V.counter
      nextIno := 0 }

/-- No key of an inode, an orphan marker or a link target goes on behind the number. -/
def Shaped (store : OrdMap Bytes β) : Prop :=
  ∀ e ∈ store.entries, e.1.head? ∈ [some 105, some 111, some 115] → e.1.length ≤ 9

instance (store : OrdMap Bytes β) : Decidable (Shaped store) :=
  inferInstanceAs (Decidable (∀ e ∈ store.entries, _ → _))

/-- The records are those that the store has under the keys of the schema. -/
structure Stored (V : Values β) (store : OrdMap Bytes β) (db : Db) : Prop where
  inode : Holds store Keys.inode UInt64.toNat V.inode db.inodes
  dirent : Holds store (fun k : UInt64 × Bytes => Keys.dirent k.1 k.2)
    (fun k => toLex (k.1.toNat, k.2)) V.dirent db.dirents
  direntIdx : Holds store (fun k : UInt64 × UInt64 => Keys.direntIdx k.1 k.2)
    (fun k => toLex (k.1.toNat, k.2.toNat)) V.direntIdx db.direntIdxs
  chunk : Holds store (fun k : UInt64 × UInt32 => Keys.chunk k.1 k.2)
    (fun k => toLex (k.1.toNat, k.2.toNat)) (fun v => some (V.bytes v)) db.chunks
  symlink : Holds store Keys.symlink UInt64.toNat (fun v => some (V.bytes v)) db.symlinks
  orphan : Holds store Keys.orphan UInt64.toNat V.orphan db.orphans

section

variable {α : Type} {V : Values β} {store : OrdMap Bytes β} {db : Db}

lemma toNat_injective : Function.Injective UInt64.toNat := fun _ _ => UInt64.toNat_inj.mp

lemma holds_tagged {tag : UInt8} {decode : β → Option α} {m : OrdMap Ino α}
    (hshape : Shaped store) (htag : some tag ∈ [some 105, some 111, some (115 : UInt8)])
    (h : collect (scanIno tag) decode store.entries ∅ = some m) :
    Holds store (tagged tag · []) UInt64.toNat decode m := by
  refine holds_of_collect h toNat_injective (fun a => ?_) fun key v hget k hk => ?_
  · rw [scanIno, if_pos head_tagged, parseIno_tagged]
    rfl
  · unfold scanIno at hk
    split at hk
    · rename_i hhead
      obtain ⟨a, ha, rfl⟩ := Option.map_eq_some_iff.mp hk
      have hlen := hshape _ (OrdMap.mem_entries.mpr hget) (hhead ▸ htag)
      have hkey := eq_tagged hhead ha
      rw [List.drop_of_length_le hlen] at hkey
      exact ⟨a, hkey, rfl⟩
    · cases hk

lemma holds_dirents {decode : β → Option α} {m : OrdMap (Ino ×ₗ Bytes) α}
    (h : collect scanDirent decode store.entries ∅ = some m) :
    Holds store (fun k : UInt64 × Bytes => Keys.dirent k.1 k.2)
      (fun k => toLex (k.1.toNat, k.2)) decode m := by
  refine holds_of_collect h
    (toLex.injective.comp (toNat_injective.prodMap Function.injective_id)) (fun k => ?_)
    fun key v _ k hk => ?_
  · rw [scanDirent, Keys.dirent, if_pos head_tagged, parseIno_tagged, drop_tagged]
    rfl
  · unfold scanDirent at hk
    split at hk
    · rename_i hhead
      obtain ⟨a, ha, rfl⟩ := Option.map_eq_some_iff.mp hk
      exact ⟨(a, key.drop 9), eq_tagged hhead ha, rfl⟩
    · cases hk

lemma holds_direntIdxs {decode : β → Option α} {m : OrdMap (Ino ×ₗ Nat) α}
    (h : collect scanDirentIdx decode store.entries ∅ = some m) :
    Holds store (fun k : UInt64 × UInt64 => Keys.direntIdx k.1 k.2)
      (fun k => toLex (k.1.toNat, k.2.toNat)) decode m := by
  refine holds_of_collect h (toLex.injective.comp (toNat_injective.prodMap toNat_injective))
    (fun k => ?_) fun key v _ k hk => ?_
  · rw [scanDirentIdx, parseDirentIdx_direntIdx]
    rfl
  · obtain ⟨⟨a, i⟩, hparse, rfl⟩ := Option.map_eq_some_iff.mp hk
    unfold parseDirentIdx at hparse
    split at hparse
    · rename_i hshape
      obtain ⟨rfl, rfl⟩ := Prod.mk.inj (Option.some.inj hparse)
      have hrest : (key.drop 9).length = 8 := by rw [List.length_drop, hshape.1]
      refine ⟨_, (eq_tagged hshape.2 (if_pos (by omega))).trans ?_, rfl⟩
      rw [Keys.direntIdx, List.take_of_length_le hrest.le, be64_fromBe hrest]
    · cases hparse

lemma holds_chunks {decode : β → Option α} {m : OrdMap (Ino ×ₗ Nat) α}
    (h : collect scanChunk decode store.entries ∅ = some m) :
    Holds store (fun k : UInt64 × UInt32 => Keys.chunk k.1 k.2)
      (fun k => toLex (k.1.toNat, k.2.toNat)) decode m := by
  refine holds_of_collect h
    (toLex.injective.comp (toNat_injective.prodMap fun _ _ => UInt32.toNat_inj.mp)) (fun k => ?_)
    fun key v _ k hk => ?_
  · rw [scanChunk, parseChunk_chunk]
    rfl
  · obtain ⟨⟨a, i⟩, hparse, rfl⟩ := Option.map_eq_some_iff.mp hk
    unfold parseChunk at hparse
    split at hparse
    · rename_i hshape
      obtain ⟨rfl, rfl⟩ := Prod.mk.inj (Option.some.inj hparse)
      have hrest : (key.drop 9).length = 4 := by rw [List.length_drop, hshape.1]
      refine ⟨_, (eq_tagged hshape.2 (if_pos (by omega))).trans ?_, rfl⟩
      rw [Keys.chunk, List.take_of_length_le hrest.le, be32_fromBe hrest]
    · cases hparse

/-- **The scan finds what is stored**, if no key is longer than the schema has it. -/
theorem stored_of_scanAll (h : scanAll V store = some db) (hshape : Shaped store) :
    Stored V store db := by
  simp only [scanAll, Option.bind_eq_bind, Option.bind_eq_some_iff, Option.some.injEq] at h
  obtain ⟨inodes, hi, dirents, hd, idxs, he, chunks, hc, orphans, ho, symlinks, hs, rfl⟩ := h
  exact ⟨holds_tagged hshape (by simp) hi, holds_dirents hd, holds_direntIdxs he, holds_chunks hc,
    holds_tagged hshape (by simp) hs, holds_tagged hshape (by simp) ho⟩

lemma Stored.narrowChunks (h : Stored V store db) : NarrowChunks db := by
  intro k c hk
  obtain ⟨⟨a, i⟩, rfl⟩ := h.chunk.named k (by rw [hk]; rfl)
  exact i.toNat_lt

/--
**A volume without reported problems is sound exactly if it has no gap**: no entry
for the root, none for a file that passes as unlinked, and no count beyond 32 bits.
What is checked is what is stored, if no key is longer than the schema has it.
-/
theorem no_problems_sound_iff (V : Values β) (store : OrdMap Bytes β) (chunkSize : Nat)
    (names : NameCodec) (hcs : chunkSize < 2 ^ 32) (hscan : scanAll V store = some db)
    (hshape : Shaped store) (hclean : (check db chunkSize names).problems = []) :
    Stored V store db ∧ (Sound chunkSize db ↔ NoGap db) := by
  have hstored := stored_of_scanAll hscan hshape
  exact ⟨hstored, Sound.noGap,
    (checked_of_no_problems hclean).sound hcs hstored.narrowChunks⟩

end

/-! ## Volumes -/

/-- A value, by what it holds. -/
inductive Value where
  | inode (i : Inode)
  | dirent (d : Dirent)
  | direntIdx (x : DirentIdx)
  | orphan (o : Orphan)
  | bytes (b : Bytes)
  | counter (n : Int64)

def Value.reading : Values Value where
  inode | .inode i => some i | _ => none
  dirent | .dirent d => some d | _ => none
  direntIdx | .direntIdx x => some x | _ => none
  orphan | .orphan o => some o | _ => none
  bytes | .bytes b => b | _ => []
  counter | .counter n => n | _ => 0

/-- What the scan of a volume finds. -/
def scanned (store : OrdMap Bytes Value) : Db := (scanAll Value.reading store).getD Db.empty

lemma scanAll_scanned {store : OrdMap Bytes Value}
    (h : (scanAll Value.reading store).isSome = true) :
    scanAll Value.reading store = some (scanned store) := by
  rw [scanned, ← Option.some_get h, Option.getD_some]

/-- The root, a directory "d" in it, and a file that has a name in each. -/
def linkedFile : OrdMap Bytes Value := OrdMap.insertAll ∅
  [(Keys.inode 1, .inode { rootInode ⟨0, 0⟩ with nlink := 3, nextDirentId := 5 }),
    (Keys.inode 2, .inode { Inode.new .dir 0o755 0 0 ⟨0, 0⟩ with
      nlink := 2, nextDirentId := 4, parentDir := 1 }),
    (Keys.inode 3, .inode { Inode.new .file 0o644 0 0 ⟨0, 0⟩ with
      nlink := 2, size := 5, billedBytes := 5 }),
    (Keys.dirent 1 [100], .dirent ⟨[100], 2, .dir, 3⟩),
    (Keys.dirent 1 [103], .dirent ⟨[103], 3, .file, 4⟩),
    (Keys.dirent 2 [102], .dirent ⟨[102], 3, .file, 3⟩),
    (Keys.direntIdx 1 3, .direntIdx ⟨[100], 2, .dir⟩),
    (Keys.direntIdx 1 4, .direntIdx ⟨[103], 3, .file⟩),
    (Keys.direntIdx 2 3, .direntIdx ⟨[102], 3, .file⟩),
    (Keys.chunk 3 0, .bytes [1, 2, 3, 4, 5]),
    (KEY_QUOTA_BYTES, .counter 5), (KEY_QUOTA_INODES, .counter 3)]

theorem linkedFile_sound : Stored Value.reading linkedFile (scanned linkedFile) ∧
    Sound 4096 (scanned linkedFile) := by
  obtain ⟨hstored, hiff⟩ := no_problems_sound_iff Value.reading linkedFile 4096 Volume.plain.names
    (by decide) (scanAll_scanned (by decide +kernel)) (by decide +kernel) (by decide +kernel)
  have hthree : (scanned linkedFile).dirents.entries.length = 3 := by decide +kernel
  have hcount : ∀ p, (scanned linkedFile).dirents.count p ≤ 3 := fun p =>
    hthree ▸ List.countP_le_length
  refine ⟨hstored, hiff.mpr ⟨by decide +kernel, fun x i _ _ _ ho => ?_, fun x _ => ?_,
    fun x _ => ?_⟩⟩
  · have hnone : (scanned linkedFile).orphans.entries = [] := by decide +kernel
    rw [OrdMap.eq_empty_of_entries hnone] at ho
    cases ho
  · exact (hcount _).trans_lt (by decide)
  · exact (Nat.add_le_add_left (hcount _) 2).trans_lt (by decide)

/-- The root directory holds an entry "a" for itself. -/
def selfNamed : OrdMap Bytes Value := OrdMap.insertAll ∅
  [(Keys.inode 1, .inode { rootInode ⟨0, 0⟩ with nlink := 3, nextDirentId := 4 }),
    (Keys.dirent 1 [97], .dirent ⟨[97], 1, .dir, 3⟩),
    (Keys.direntIdx 1 3, .direntIdx ⟨[97], 1, .dir⟩), (KEY_QUOTA_INODES, .counter 1)]

/-- File 2 is named "a" in the root; what its inode says and what follows is given. -/
def oneName (nlink : UInt32) (rest : List (Bytes × Value)) : OrdMap Bytes Value :=
  OrdMap.insertAll ∅ ([(Keys.inode 1, .inode { rootInode ⟨0, 0⟩ with nextDirentId := 4 }),
    (Keys.inode 2, .inode { Inode.new .file 0o644 0 0 ⟨0, 0⟩ with nlink := nlink }),
    (Keys.dirent 1 [97], .dirent ⟨[97], 2, .file, 3⟩),
    (Keys.direntIdx 1 3, .direntIdx ⟨[97], 2, .file⟩), (KEY_QUOTA_INODES, .counter 2)] ++ rest)

/-- It has no links and an orphan marker. -/
def namedOrphan : OrdMap Bytes Value := oneName 0 [(Keys.orphan 2, .orphan ⟨0, .file⟩)]

/-- It has nine links, and a longer key hides that. -/
def hiddenInode : OrdMap Bytes Value :=
  oneName 9 [(Keys.inode 2 ++ [0], .inode (Inode.new .file 0o644 0 0 ⟨0, 0⟩))]

/-- The first two volumes get a clean report and are not sound; the third gets one that is not
about what it stores. -/
theorem clean_but_unsound :
    (∃ db, scanAll Value.reading selfNamed = some db ∧ Shaped selfNamed ∧
      (check db 4096 Volume.plain.names).isClean = true ∧ ¬Sound 4096 db) ∧
    (∃ db, scanAll Value.reading namedOrphan = some db ∧ Shaped namedOrphan ∧
      (check db 4096 Volume.plain.names).isClean = true ∧ ¬Sound 4096 db) ∧
    ∃ db, scanAll Value.reading hiddenInode = some db ∧
      (check db 4096 Volume.plain.names).isClean = true ∧
      ¬Stored Value.reading hiddenInode db := by
  refine ⟨⟨_, scanAll_scanned (by decide +kernel), by decide +kernel, by decide +kernel,
    fun h => ?_⟩, ⟨_, scanAll_scanned (by decide +kernel), by decide +kernel, by decide +kernel,
    fun h => ?_⟩, ⟨_, scanAll_scanned (by decide +kernel), by decide +kernel, fun h => ?_⟩⟩
  · have := h.noGap.root_unnamed
    revert this
    decide +kernel
  · have hfile : (scanned namedOrphan).inodes.get? 2 =
        some { Inode.new .file 0o644 0 0 ⟨0, 0⟩ with nlink := 0 } := by decide +kernel
    have := h.noGap.orphan_unnamed 2 _ hfile (by decide) rfl (by decide +kernel)
    revert this
    decide +kernel
  · have := h.inode.found 2
    revert this
    decide +kernel

end SlateFs.Fsck
