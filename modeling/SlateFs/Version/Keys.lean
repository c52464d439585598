import SlateFs.Core.Keys
import SlateFs.Version.Merge

/-!
# Keys of a version tree in bytes

The keys of a version tree are the path behind `m/`, or behind `c/` with a NUL and the index of
a chunk in four bytes. A path has no NUL, so it ends where the first one stands, whatever the
bytes of the index are.
-/

namespace SlateFs.Version

open Digits

/-- The path in the bytes of a key, and whether the key is one of metadata. -/
def keyBytesPath (key : Bytes) : Option (Bytes × Bool) :=
  -- the texts `m/` and `c/`
  if [109, 47].isPrefixOf key then some (key.drop 2, true)
  else if [99, 47].isPrefixOf key then some ((key.drop 2).takeWhile (· ≠ 0), false)
  else none

/-- `std::str::from_utf8` -/
def fromUtf8 (bytes : Bytes) : Option String := String.fromUTF8? bytes.toByteArray

/-- `version_path_from_tree_key` of the bytes of a key -/
def versionPathFromKeyBytes (key : Bytes) : Except Error (String × Bool) :=
  match keyBytesPath key with
  | none => .error (.versioning s!"version tree contains unknown key prefix {hexEncode key}")
  | some (bytes, metadata) =>
    match fromUtf8 bytes with
    | none => .error (.versioning "version tree contains a non-UTF-8 path")
    | some path => (canonicalPath path).map (·, metadata)

/-- `version_key_matches_any_path` of the bytes of a key -/
def versionKeyBytesMatchAnyPath (key : Bytes) (paths : List String) : Bool :=
  match keyBytesPath key with
  | none => false
  | some (bytes, _) => paths.any fun root => (fromUtf8 bytes).any fun path => pathIsWithin path root

/-- `file_meta_key` in bytes -/
def fileMetaBytes (path : String) : Bytes := keyBytes (fileMetaKey path)

/-- `file_chunk_key` in bytes -/
def fileChunkBytes (path : String) (index : UInt32) : Bytes :=
  keyBytes (fileChunkKey path index.toNat)

/-! ## Texts in bytes -/

lemma toList_loop (bytes : ByteArray) (i : Nat) (acc : List UInt8) :
    ByteArray.toList.loop bytes i acc = acc.reverse ++ bytes.data.toList.drop i := by
  fun_induction ByteArray.toList.loop bytes i acc with
  | case1 i acc hi ih =>
    have hi' : i < bytes.data.toList.length := hi
    rw [ih, List.drop_eq_getElem_cons hi', List.reverse_cons, List.append_assoc]
    congr 2
    simp [ByteArray.get!, getElem!_pos, hi]
  | case2 i acc hi =>
    rw [List.drop_of_length_le (by simpa using hi), List.append_nil]

lemma toUTF8_toList (s : String) : s.toUTF8.toList = s.toList.flatMap String.utf8EncodeChar := by
  rw [ByteArray.toList, toList_loop]
  have h := congrArg (fun b => b.data.toList) (String.toByteArray_ofList (l := s.toList))
  rw [String.ofList_toList] at h
  exact h.trans List.toList_data_toByteArray

lemma fromUtf8_toUTF8 (s : String) : fromUtf8 s.toUTF8.toList = some s := by
  have h : s.toUTF8.toList.toByteArray = s.toByteArray := by
    rw [toUTF8_toList, ← List.utf8Encode, ← String.toByteArray_ofList, String.ofList_toList]
  rw [fromUtf8, h, String.fromUTF8?, dif_pos s.isValidUTF8]
  rfl

lemma zero_notMem_toUTF8 {s : String} (h : '\x00' ∉ s.toList) : 0 ∉ s.toUTF8.toList := by
  rw [toUTF8_toList, List.mem_flatMap]
  rintro ⟨c, hc, h0⟩
  have hne : c.val.toNat ≠ 0 := fun hval => h (by
    have : c = '\x00' := Char.toNat_inj.mp hval
    rwa [← this])
  have hbyte : ∀ {n : Nat}, n % 256 ≠ 0 → (0 : UInt8) ≠ UInt8.ofNat n := by
    intro n hn he
    have := congrArg UInt8.toNat he
    rw [UInt8.toNat_ofNat'] at this
    exact hn this.symm
  simp only [String.utf8EncodeChar] at h0
  split_ifs at h0 <;> simp only [List.mem_cons, List.not_mem_nil, or_false] at h0
  · exact hbyte (by omega) h0
  · rcases h0 with h0 | h0 <;> exact hbyte (by omega) h0
  · rcases h0 with h0 | h0 | h0 <;> exact hbyte (by omega) h0
  · rcases h0 with h0 | h0 | h0 | h0 <;> exact hbyte (by omega) h0

/-! ## Keys in bytes -/

lemma fileMetaBytes_eq (path : String) : fileMetaBytes path = [109, 47] ++ path.toUTF8.toList := by
  rw [show [109, 47] = "m/".toUTF8.toList by rw [toUTF8_toList]; rfl]
  rfl

lemma fileChunkBytes_eq (path : String) (i : UInt32) : fileChunkBytes path i =
    [99, 47] ++ path.toUTF8.toList ++ [0] ++ Keys.be32 i := by
  have hbyte : ∀ n : Nat, UInt8.ofNat (n % 256) = UInt8.ofNat n := fun n =>
    UInt8.toNat_inj.mp (by simp)
  rw [show [99, 47] = "c/".toUTF8.toList by rw [toUTF8_toList]; rfl]
  simp [fileChunkBytes, keyBytes, fileChunkKey, Keys.be32, digits, hbyte, Nat.div_div_eq_div_mul]

lemma keyBytesPath_meta (path : String) :
    keyBytesPath (fileMetaBytes path) = some (path.toUTF8.toList, true) := by
  rw [fileMetaBytes_eq]
  rfl

/-- The path of a chunk key ends at the first NUL. -/
lemma keyBytesPath_chunk {path : String} (h : '\x00' ∉ path.toList) (rest : Bytes) :
    keyBytesPath ([99, 47] ++ path.toUTF8.toList ++ [0] ++ rest) =
      some (path.toUTF8.toList, false) := by
  have hwhile : (path.toUTF8.toList ++ [0] ++ rest).takeWhile (· ≠ 0) = path.toUTF8.toList := by
    rw [List.append_assoc, List.takeWhile_append_of_pos]
    · simp
    · intro x hx
      have : x ≠ 0 := fun h0 => zero_notMem_toUTF8 h (h0 ▸ hx)
      simpa using this
  exact congrArg (fun bytes => some (bytes, false)) hwhile

lemma toUTF8_inj {p q : String} (h : p.toUTF8.toList = q.toUTF8.toList) : p = q := by
  rw [← Option.some.injEq, ← fromUtf8_toUTF8, h, fromUtf8_toUTF8]

/-- The keys of a tree whose paths are canonical. -/
inductive Built : Bytes → String → Prop
  | metadata {path : String} (h : Canonical path) : Built (fileMetaBytes path) path
  | chunk {path : String} (h : Canonical path) (i : UInt32) : Built (fileChunkBytes path i) path

/-- **A key is read back.** -/
lemma Built.path {key : Bytes} {path : String} (h : Built key path) :
    ∃ metadata, keyBytesPath key = some (path.toUTF8.toList, metadata) := by
  cases h with
  | metadata h => exact ⟨_, keyBytesPath_meta path⟩
  | chunk h i => exact ⟨false, by rw [fileChunkBytes_eq, keyBytesPath_chunk h.no_nul]⟩

lemma Built.canonical {key : Bytes} {path : String} (h : Built key path) : Canonical path := by
  cases h with
  | metadata h => exact h
  | chunk h i => exact h

/-- Being inside one of some roots is having the components of one of them first. -/
lemma Built.matches {key : Bytes} {path : String} (h : Built key path) {roots : List String}
    (hroots : ∀ r ∈ roots, r = "/" ∨ Canonical r) :
    versionKeyBytesMatchAnyPath key roots = true ↔
      ∃ r ∈ roots, pathComponents r <+: pathComponents path := by
  obtain ⟨metadata, hkey⟩ := h.path
  obtain ⟨cs, hne, hcs, rfl⟩ := h.canonical
  rw [versionKeyBytesMatchAnyPath, hkey]
  simp only [fromUtf8_toUTF8, Option.any_some, List.any_eq_true]
  refine exists_congr fun r => and_congr_right fun hr => ?_
  have habs : ∃ ds, (∀ d ∈ ds, Component d) ∧ r = absolute ds := by
    rcases hroots r hr with rfl | ⟨ds, -, hds, hr⟩
    · exact ⟨[], nofun, rfl⟩
    · exact ⟨ds, hds, hr⟩
  obtain ⟨ds, hds, rfl⟩ := habs
  rw [pathIsWithin_absolute hcs hds, pathComponents_absolute hcs, pathComponents_absolute hds]

lemma fileChunkBytes_lt_iff {path : String} {i j : UInt32} :
    fileChunkBytes path i < fileChunkBytes path j ↔ i < j := by
  rw [fileChunkBytes_eq, fileChunkBytes_eq, append_lt_append_iff rfl, or_iff_right (lt_irrefl _),
    and_iff_right rfl, Keys.be32_lt_iff]

/-- **The keys of a tree.** Keys of metadata and of chunks are different, the parser gives back
the path and the kind, the chunks of a path follow each other by their index, and a key matches
roots just when its path is one of them or lies below one. -/
theorem tree_keys_laid_out :
    (∀ p q, Canonical p → Canonical q → ∀ i j : UInt32,
      (fileMetaBytes p = fileMetaBytes q → p = q) ∧
      (fileChunkBytes p i = fileChunkBytes q j → p = q ∧ i = j) ∧
      fileMetaBytes p ≠ fileChunkBytes q j) ∧
    (∀ p, Canonical p → versionPathFromKeyBytes (fileMetaBytes p) = .ok (p, true) ∧
      ∀ i, versionPathFromKeyBytes (fileChunkBytes p i) = .ok (p, false)) ∧
    (∀ p, Canonical p → ∀ i j : UInt32, (fileChunkBytes p i < fileChunkBytes p j ↔ i < j) ∧
      ∀ key q, Built key q → fileChunkBytes p i ≤ key → key ≤ fileChunkBytes p j →
        ∃ k, key = fileChunkBytes p k) ∧
    ∀ roots : List String, (∀ r ∈ roots, r = "/" ∨ Canonical r) → ∀ key p, Built key p →
      (versionKeyBytesMatchAnyPath key roots = true ↔
        ∃ r ∈ roots, pathComponents r <+: pathComponents p) := by
  have hchunk : ∀ {p : String} (hp : Canonical p) (i : UInt32),
      keyBytesPath (fileChunkBytes p i) = some (p.toUTF8.toList, false) := fun hp i => by
    rw [fileChunkBytes_eq, keyBytesPath_chunk hp.no_nul]
  refine ⟨fun p q hp hq i j => ⟨fun h => ?_, fun h => ?_, fun h => ?_⟩,
    fun p hp => ⟨?_, fun i => ?_⟩,
    fun p hp i j => ⟨fileChunkBytes_lt_iff, fun key q hkey hlo hhi => ?_⟩,
    fun roots hroots key p hkey => hkey.matches hroots⟩
  · rw [fileMetaBytes_eq, fileMetaBytes_eq] at h
    exact toUTF8_inj (List.append_cancel_left h)
  · have hpath := congrArg keyBytesPath h
    rw [hchunk hp, hchunk hq] at hpath
    obtain rfl := toUTF8_inj (Prod.mk.inj (Option.some.inj hpath)).1
    rw [fileChunkBytes_eq, fileChunkBytes_eq] at h
    exact ⟨rfl, Keys.be32_inj.mp (List.append_cancel_left h)⟩
  · have hpath := congrArg keyBytesPath h
    rw [keyBytesPath_meta, hchunk hq] at hpath
    exact absurd (Prod.mk.inj (Option.some.inj hpath)).2 nofun
  · simp only [versionPathFromKeyBytes, keyBytesPath_meta, fromUtf8_toUTF8, hp.path_eq]
    rfl
  · simp only [versionPathFromKeyBytes, hchunk hp, fromUtf8_toUTF8, hp.path_eq]
    rfl
  · -- what lies between two chunks of a path begins with the path and a NUL
    rw [fileChunkBytes_eq] at hlo hhi
    obtain ⟨rest, hrest⟩ := prefix_of_between hlo hhi
    have hpath := keyBytesPath_chunk hp.no_nul rest
    rw [hrest] at hpath
    cases hkey with
    | metadata hq =>
      rw [keyBytesPath_meta] at hpath
      exact absurd (Prod.mk.inj (Option.some.inj hpath)).2 nofun
    | chunk hq k =>
      rw [hchunk hq] at hpath
      obtain rfl := toUTF8_inj (Prod.mk.inj (Option.some.inj hpath)).1
      exact ⟨k, rfl⟩

end SlateFs.Version
