import SlateFs.Core.Meta
import SlateFs.Lib.Digits

/-!
# Keys of a volume in bytes

Every key of a volume is a tag, for most families followed by an inode number in eight bytes
and the rest (`meta/keys.rs`). Tag and number have a fixed width, so keys of different
families and of different inodes never meet, and the keys of one inode in one family are the
range between two prefixes.
-/

namespace SlateFs.Keys

open Digits

/-- `u64::to_be_bytes` -/
def be64 (n : UInt64) : Bytes := digits 256 UInt8.ofNat 8 n.toNat

/-- `u32::to_be_bytes` -/
def be32 (n : UInt32) : Bytes := digits 256 UInt8.ofNat 4 n.toNat

/-- The number that bytes stand for, as `from_be_bytes` reads it. -/
def fromBe (bytes : Bytes) : Nat := value 256 UInt8.toNat bytes

/-- A tag, an inode number and what follows it. -/
def tagged (tag : UInt8) (ino : UInt64) (rest : Bytes) : Bytes := tag :: (be64 ino ++ rest)

def KEY_SUPERBLOCK : Bytes := [77]

def KEY_QUOTA_BYTES : Bytes := [113, 66]

def KEY_QUOTA_INODES : Bytes := [113, 73]

def KEY_NEXT_INO : Bytes := [97]

def inode (ino : UInt64) : Bytes := tagged 105 ino []

def dirent (parent : UInt64) (encName : Bytes) : Bytes := tagged 100 parent encName

def direntPrefix (parent : UInt64) : Bytes := tagged 100 parent []

def direntIdx (parent direntId : UInt64) : Bytes := tagged 101 parent (be64 direntId)

def direntIdxPrefix (parent : UInt64) : Bytes := tagged 101 parent []

def chunk (ino : UInt64) (chunk : UInt32) : Bytes := tagged 99 ino (be32 chunk)

def chunkPrefix (ino : UInt64) : Bytes := tagged 99 ino []

def symlink (ino : UInt64) : Bytes := tagged 115 ino []

def xattr (ino : UInt64) (name : Bytes) : Bytes := tagged 120 ino name

def xattrPrefix (ino : UInt64) : Bytes := tagged 120 ino []

def orphan (ino : UInt64) : Bytes := tagged 111 ino []

def parseChunk (key : Bytes) : Option (UInt64 × UInt32) :=
  if key.length = 13 ∧ key.head? = some 99 then
    some (.ofNat (fromBe ((key.drop 1).take 8)), .ofNat (fromBe ((key.drop 9).take 4)))
  else none

def parseDirentIdx (key : Bytes) : Option (UInt64 × UInt64) :=
  if key.length = 17 ∧ key.head? = some 101 then
    some (.ofNat (fromBe ((key.drop 1).take 8)), .ofNat (fromBe ((key.drop 9).take 8)))
  else none

def parseIno (key : Bytes) : Option UInt64 :=
  if 9 ≤ key.length then some (.ofNat (fromBe ((key.drop 1).take 8))) else none

/-- What a volume has records for. -/
inductive RecordKey where
  | superblock
  | inode (ino : UInt64)
  | dirent (parent : UInt64) (encName : Bytes)
  | direntIdx (parent direntId : UInt64)
  | chunk (ino : UInt64) (chunk : UInt32)
  | symlink (ino : UInt64)
  | xattr (ino : UInt64) (name : Bytes)
  | orphan (ino : UInt64)
  | quotaBytes
  | quotaInodes
  | nextIno
  deriving DecidableEq

/-- The key of a record. -/
def RecordKey.bytes : RecordKey → Bytes
  | superblock => KEY_SUPERBLOCK
  | inode ino => Keys.inode ino
  | dirent parent encName => Keys.dirent parent encName
  | direntIdx parent direntId => Keys.direntIdx parent direntId
  | chunk ino idx => Keys.chunk ino idx
  | symlink ino => Keys.symlink ino
  | xattr ino name => Keys.xattr ino name
  | orphan ino => Keys.orphan ino
  | quotaBytes => KEY_QUOTA_BYTES
  | quotaInodes => KEY_QUOTA_INODES
  | nextIno => KEY_NEXT_INO

/-- The inode that a record belongs to. -/
def RecordKey.ino : RecordKey → Option UInt64
  | inode ino | dirent ino _ | direntIdx ino _ | chunk ino _ | symlink ino | xattr ino _
  | orphan ino => some ino
  | superblock | quotaBytes | quotaInodes | nextIno => none

/-! ## Numbers -/

lemma byte_lt : ∀ i < 256, ∀ j < 256, (UInt8.ofNat i < UInt8.ofNat j ↔ i < j) := by
  intro i hi j hj
  rw [UInt8.lt_iff_toNat_lt, UInt8.toNat_ofNat_of_lt' hi, UInt8.toNat_ofNat_of_lt' hj]

lemma be64_lt_iff {m n : UInt64} : be64 m < be64 n ↔ m < n :=
  (digits_lt_iff byte_lt (by decide) m.toNat_lt n.toNat_lt).trans UInt64.lt_iff_toNat_lt.symm

lemma be32_lt_iff {m n : UInt32} : be32 m < be32 n ↔ m < n :=
  (digits_lt_iff byte_lt (by decide) m.toNat_lt n.toNat_lt).trans UInt32.lt_iff_toNat_lt.symm

lemma fromBe_be64_toNat (n : UInt64) : fromBe (be64 n) = n.toNat := by
  rw [fromBe, be64, value_digits (fun i hi => UInt8.toNat_ofNat_of_lt' hi) (by decide) n.toNat_lt]

lemma fromBe_be64 (n : UInt64) : UInt64.ofNat (fromBe (be64 n)) = n := by
  rw [fromBe_be64_toNat, UInt64.ofNat_toNat]

lemma fromBe_be32 (n : UInt32) : UInt32.ofNat (fromBe (be32 n)) = n := by
  rw [fromBe, be32, value_digits (fun i hi => UInt8.toNat_ofNat_of_lt' hi) (by decide) n.toNat_lt]
  exact UInt32.ofNat_toNat

lemma digits_fromBe (bytes : Bytes) :
    digits 256 UInt8.ofNat bytes.length (fromBe bytes) = bytes ∧
      fromBe bytes < 256 ^ bytes.length :=
  digits_value (fun d => d.toNat_lt) (fun _ => UInt8.ofNat_toNat) bytes

lemma be64_fromBe {bytes : Bytes} (h : bytes.length = 8) :
    be64 (.ofNat (fromBe bytes)) = bytes := by
  obtain ⟨hdigits, hlt⟩ := digits_fromBe bytes
  rw [h] at hdigits hlt
  rw [be64, UInt64.toNat_ofNat_of_lt' hlt, hdigits]

lemma be32_fromBe {bytes : Bytes} (h : bytes.length = 4) :
    be32 (.ofNat (fromBe bytes)) = bytes := by
  obtain ⟨hdigits, hlt⟩ := digits_fromBe bytes
  rw [h] at hdigits hlt
  rw [be32, UInt32.toNat_ofNat_of_lt' hlt, hdigits]

@[simp] lemma length_be64 (n : UInt64) : (be64 n).length = 8 := length_digits ..

@[simp] lemma length_be32 (n : UInt32) : (be32 n).length = 4 := length_digits ..

/-! ## Tagged keys -/

variable {tag tag' : UInt8} {a b : UInt64} {r s : Bytes}

lemma be64_inj : be64 a = be64 b ↔ a = b := by
  constructor
  · intro h
    rw [← fromBe_be64 a, h, fromBe_be64]
  · exact congrArg be64

lemma be32_inj {m n : UInt32} : be32 m = be32 n ↔ m = n := by
  constructor
  · intro h
    rw [← fromBe_be32 m, h, fromBe_be32]
  · exact congrArg be32

lemma tagged_inj : tagged tag a r = tagged tag' b s ↔ tag = tag' ∧ a = b ∧ r = s := by
  rw [tagged, tagged, List.cons.injEq]
  refine and_congr_right fun _ => ⟨fun h => ?_, fun ⟨ha, hr⟩ => by rw [ha, hr]⟩
  obtain ⟨ha, hr⟩ := List.append_inj h (by simp)
  exact ⟨be64_inj.mp ha, hr⟩

lemma cons_eq_tagged {x : Bytes} : tag :: x = tagged tag' b s ↔ tag = tag' ∧ x = be64 b ++ s := by
  rw [tagged, List.cons.injEq]

/-- Keys of one family compare by the number first. -/
lemma tagged_lt_iff : tagged tag a r < tagged tag b s ↔ a < b ∨ a = b ∧ r < s := by
  rw [tagged, tagged, List.cons_lt_cons_iff, append_lt_append_iff (by simp), be64_lt_iff, be64_inj]
  simp

lemma head_of_between {x : Bytes} (h : tagged tag a r ≤ x) (h' : x < tagged tag b s) :
    x.head? = some tag := by
  obtain ⟨y, rfl⟩ := prefix_of_between (u := [tag]) h h'.le
  rfl

/-- Between the prefixes of an inode and of the next are the keys of the inode. -/
lemma between_tagged (ha : a.toNat + 1 < 2 ^ 64) :
    tagged tag a [] ≤ tagged tag' b s ∧ tagged tag' b s < tagged tag (a + 1) [] ↔
      tag' = tag ∧ b = a := by
  have hsucc : (a + 1).toNat = a.toNat + 1 := by
    rw [UInt64.toNat_add]
    exact Nat.mod_eq_of_lt ha
  constructor
  · rintro ⟨hlo, hhi⟩
    obtain rfl : tag' = tag := Option.some.inj (head_of_between hlo hhi)
    rw [← not_lt, tagged_lt_iff] at hlo
    rw [tagged_lt_iff] at hhi
    refine ⟨rfl, UInt64.toNat_inj.mp ?_⟩
    have hle : ¬ b < a := fun h => hlo (.inl h)
    have hlt : b < a + 1 := hhi.resolve_right fun h => List.not_lt_nil s h.2
    rw [UInt64.lt_iff_toNat_lt] at hle hlt
    omega
  · rintro ⟨rfl, rfl⟩
    rw [← not_lt, tagged_lt_iff, tagged_lt_iff, UInt64.lt_iff_toNat_lt, UInt64.lt_iff_toNat_lt]
    exact ⟨fun h => h.elim (lt_irrefl _) fun h => List.not_lt_nil s h.2, .inl (by omega)⟩

/-- **The range of an inode in a family.** Bare keys are told apart by their tags. -/
theorem range_iff (hbare : tag ∉ [77, 97, 113]) (ha : a.toNat + 1 < 2 ^ 64) (k : RecordKey) :
    tagged tag a [] ≤ k.bytes ∧ k.bytes < tagged tag (a + 1) [] ↔
      ∃ r, k.bytes = tagged tag a r := by
  have hout : ∀ {t : UInt8} {x : Bytes}, t ∈ [77, 97, 113] →
      (tagged tag a [] ≤ t :: x ∧ t :: x < tagged tag (a + 1) [] ↔
        ∃ r, t :: x = tagged tag a r) := by
    intro t x ht
    have hne : t ≠ tag := fun h => hbare (h ▸ ht)
    refine iff_of_false (fun h => hne ?_) fun ⟨r, h⟩ => hne (List.cons.inj h).1
    exact Option.some.inj (head_of_between h.1 h.2)
  cases k with
  | superblock | quotaBytes | quotaInodes | nextIno => exact hout (by simp)
  | _ =>
    refine (between_tagged ha).trans ?_
    simp [RecordKey.bytes, inode, dirent, direntIdx, chunk, symlink, xattr, orphan, tagged_inj]

/-! ## The schema -/

lemma bytes_injective : Function.Injective RecordKey.bytes := by
  intro k k' h
  cases k <;> cases k' <;> first
    | rfl
    | exact absurd (List.cons.inj h).1 (by decide)
    | simp_all [RecordKey.bytes, inode, dirent, direntIdx, chunk, symlink, xattr, orphan,
      tagged_inj,
        be64_inj, be32_inj, KEY_QUOTA_BYTES, KEY_QUOTA_INODES]

lemma head_tagged : (tagged tag a r).head? = some tag := rfl

lemma parseIno_tagged : parseIno (tagged tag a r) = some a := by
  have hlen : 9 ≤ (tagged tag a r).length := by simp [tagged]
  rw [parseIno, if_pos hlen, tagged, List.drop_one, List.tail_cons, List.take_left' (length_be64 a),
    fromBe_be64]

/-- A key with a number is its tag, the number and the rest. -/
lemma eq_tagged {key : Bytes} (hhead : key.head? = some tag) (h : parseIno key = some a) :
    key = tagged tag a (key.drop 9) := by
  unfold parseIno at h
  split at h
  · rename_i hlen
    cases h
    obtain ⟨rest, rfl⟩ := List.head?_eq_some_iff.mp hhead
    have hnumber : ((tag :: rest).drop 1).take 8 = rest.take 8 := rfl
    rw [tagged, hnumber, be64_fromBe (by simp at hlen ⊢; omega)]
    exact congrArg _ (List.take_append_drop 8 rest).symm
  · cases h

lemma parseIno_bytes (k : RecordKey) : parseIno k.bytes = k.ino := by
  cases k with
  | superblock | quotaBytes | quotaInodes | nextIno => rfl
  | _ => exact parseIno_tagged

/-- A key of two numbers is read back in two parts. -/
lemma drop_tagged : (tagged tag a r).drop 9 = r := by
  rw [tagged, List.drop_succ_cons, List.drop_left' (length_be64 a)]

lemma parseChunk_chunk (i : UInt32) : parseChunk (chunk a i) = some (a, i) := by
  have hino : some (UInt64.ofNat (fromBe (((chunk a i).drop 1).take 8))) = some a := parseIno_tagged
  rw [parseChunk, if_pos ⟨by simp [chunk, tagged], rfl⟩, Option.some.inj hino, chunk, drop_tagged,
    List.take_of_length_le (length_be32 i).le, fromBe_be32]

lemma parseDirentIdx_direntIdx (i : UInt64) : parseDirentIdx (direntIdx a i) = some (a, i) := by
  have hino : some (UInt64.ofNat (fromBe (((direntIdx a i).drop 1).take 8))) = some a :=
    parseIno_tagged
  rw [parseDirentIdx, if_pos ⟨by simp [direntIdx, tagged], rfl⟩, Option.some.inj hino, direntIdx,
    drop_tagged, List.take_of_length_le (length_be64 i).le, fromBe_be64]

/-- **The keys of a volume.** Different records have different keys, keys of a family are
ordered by their numbers, the parsers read the numbers back, and below the greatest number the
range from the prefix of an inode to that of the next holds the keys of the inode. -/
theorem keys_laid_out :
    (∀ k k' : RecordKey, k.bytes = k'.bytes → k = k') ∧
    (∀ a b, (inode a < inode b ↔ a < b) ∧ (symlink a < symlink b ↔ a < b) ∧
      (orphan a < orphan b ↔ a < b) ∧
      (∀ r s, (dirent a r < dirent b s ↔ a < b ∨ a = b ∧ r < s) ∧
        (xattr a r < xattr b s ↔ a < b ∨ a = b ∧ r < s)) ∧
      (∀ i j, direntIdx a i < direntIdx b j ↔ a < b ∨ a = b ∧ i < j) ∧
      ∀ i j, chunk a i < chunk b j ↔ a < b ∨ a = b ∧ i < j) ∧
    ((∀ k : RecordKey, parseIno k.bytes = k.ino) ∧ (∀ a i, parseChunk (chunk a i) = some (a, i)) ∧
      ∀ a i, parseDirentIdx (direntIdx a i) = some (a, i)) ∧
    ∀ a : UInt64, a.toNat + 1 < 2 ^ 64 → ∀ k : RecordKey,
      (direntPrefix a ≤ k.bytes ∧ k.bytes < direntPrefix (a + 1) ↔ ∃ r, k = .dirent a r) ∧
      (direntIdxPrefix a ≤ k.bytes ∧ k.bytes < direntIdxPrefix (a + 1) ↔
        ∃ i, k = .direntIdx a i) ∧
      (chunkPrefix a ≤ k.bytes ∧ k.bytes < chunkPrefix (a + 1) ↔ ∃ i, k = .chunk a i) ∧
      (xattrPrefix a ≤ k.bytes ∧ k.bytes < xattrPrefix (a + 1) ↔ ∃ r, k = .xattr a r) := by
  have hbare : ∀ {t : UInt8} {a b : UInt64}, tagged t a [] < tagged t b [] ↔ a < b := by
    intro t a b
    rw [tagged_lt_iff, or_iff_left fun h => List.not_lt_nil [] h.2]
  refine ⟨fun k k' h => bytes_injective h, fun a b => ⟨hbare, hbare, hbare, fun r s =>
    ⟨tagged_lt_iff, tagged_lt_iff⟩, fun i j => ?_, fun i j => ?_⟩,
    ⟨parseIno_bytes, fun a => parseChunk_chunk, fun a => parseDirentIdx_direntIdx⟩,
    fun a ha k => ⟨(range_iff (by decide) ha k).trans ?_, (range_iff (by decide) ha k).trans ?_,
      (range_iff (by decide) ha k).trans ?_, (range_iff (by decide) ha k).trans ?_⟩⟩
  · rw [direntIdx, direntIdx, tagged_lt_iff, be64_lt_iff]
  · rw [chunk, chunk, tagged_lt_iff, be32_lt_iff]
  all_goals
    cases k <;> simp [RecordKey.bytes, inode, dirent, direntIdx, chunk, symlink, xattr, orphan,
      tagged_inj, cons_eq_tagged, KEY_SUPERBLOCK, KEY_QUOTA_BYTES, KEY_QUOTA_INODES, KEY_NEXT_INO]

end SlateFs.Keys
