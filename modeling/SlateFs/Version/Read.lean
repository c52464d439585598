import SlateFs.Version.Live
import SlateFs.Version.Refs

/-!
# Reading a range of a versioned file

`read_file_range` clips a range to the file, fetches the chunks it crosses and copies
the part of each that lies in the range. Where the chunks begin is not recorded: the
reader takes the chunk size of the volume it runs in. So a file reads well where it was
captured, and elsewhere only if it is no longer than a chunk of either volume.
-/

namespace SlateFs.Version

variable {Id : Type} [ObjectId Id] {env : Env Id}

structure VersionFileRange where
  offset : Nat
  totalSize : Nat
  data : Bytes
  eof : Bool
  deriving DecidableEq, Repr

/-- A chunk size of zero ends the call in a division by zero. -/
def panicked : Error := .versioning "attempt to divide by zero"

/-- What is said of a file whose chunks end too soon. -/
def contentsShorter (path : String) : Error :=
  .versioning s!"versioned contents for {path} are shorter than its recorded size"

/-- The bytes of one chunk of a file; `get` reads the tree. -/
def readChunk (env : Env Id) (s : Objects Id)
    (get : TreeKey → Except Error (Option (TreeValue Id))) (path : String) (index : Nat) :
    Except Error Bytes := do
  match ← get (fileChunkKey path index) with
  | none => .error (.versioning s!"missing chunk {index} for {path}")
  | some (.entry _) => .error (.versioning s!"chunk {index} for {path} is not a blob reference")
  | some (.chunk reference) =>
    match ← getBlob env s reference with
    | none => .error (.versioning s!"missing blob for chunk {index} of {path}")
    | some bytes => .ok bytes

/-- The parts of some chunks that lie between two offsets, one after the other. -/
def readParts (env : Env Id) (s : Objects Id)
    (get : TreeKey → Except Error (Option (TreeValue Id))) (path : String)
    (chunkSize start stop : Nat) : List Nat → Except Error Bytes
  | [] => .ok []
  | index :: rest => do
      let chunk ← readChunk env s get path index
      let copyStart := start - index * chunkSize
      let copyEnd := min (stop - index * chunkSize) chunk.length
      refuseIf (copyStart > copyEnd)
        (.versioning s!"invalid chunk {index} length for {path}")
      let parts ← readParts env s get path chunkSize start stop rest
      return (chunk.take copyEnd).drop copyStart ++ parts

/-- A non-empty range of a file. -/
def readRange (env : Env Id) (s : Objects Id)
    (get : TreeKey → Except Error (Option (TreeValue Id))) (path : String)
    (chunkSize count start stop : Nat) : Except Error Bytes := do
  refuseIf (chunkSize = 0) panicked
  let first := start / chunkSize
  let last := (stop - 1) / chunkSize
  refuseIf (last ≥ count) (contentsShorter path)
  let output ← readParts env s get path chunkSize start stop (List.range' first (last + 1 - first))
  refuseIf (output.length ≠ stop - start) (contentsShorter path)
  return output

/-- The range of an entry, clipped to its size. -/
def readEntry (env : Env Id) (s : Objects Id)
    (get : TreeKey → Except Error (Option (TreeValue Id))) (path : String) (chunkSize : Nat)
    (metadata : VersionEntry) (offset length : Nat) : Except Error VersionFileRange :=
  match metadata.data with
  | .symlink target =>
    let start := min offset target.length
    let stop := min (start + length) target.length
    .ok ⟨start, target.length, (target.take stop).drop start, stop = target.length⟩
  | .directory => .error (invalidPath s!"{path} is a directory")
  | .file count =>
    let start := min offset metadata.size
    let stop := min (start + length) metadata.size
    if stop = start then .ok ⟨start, metadata.size, [], stop = metadata.size⟩
    else do
      let data ← readRange env s get path chunkSize count start stop
      return ⟨start, metadata.size, data, stop = metadata.size⟩

/-- The metadata of a path; a value of another kind does not decode. -/
def entryOf (path : String) : Option (TreeValue Id) → Except Error VersionEntry
  | none => .error (.notFound "versioned path" path)
  | some (.chunk _) => .error .codec
  | some (.entry metadata) => .ok metadata

/-- The range of a path in a tree. -/
def readTree (P : Prolly env) (chunkSize : Nat) (s : Objects Id) (tree : Root Id) (path : String)
    (offset length : Nat) : Except Error VersionFileRange := do
  let canonical ← canonicalPath path
  let value ← P.get s.nodes.get? tree (fileMetaKey canonical)
  let metadata ← entryOf canonical value
  readEntry env s (P.get s.nodes.get? tree) canonical chunkSize metadata offset length

/-- `read_file_range` -/
def readFileRange (P : Prolly env) (chunkSize : Nat) (s : Store Id) (reference path : String)
    (offset length : Nat) : Except Error VersionFileRange := do
  let commit ← s.resolveCommit reference
  readTree P chunkSize s.toObjects commit.tree path offset length

/-! ## What a read depends on -/

section

variable {s : Objects Id} {get : TreeKey → Except Error (Option (TreeValue Id))} {path : String}
  {metadata : VersionEntry} {cs cd offset length : Nat}

/-- A file that is no longer than a chunk is read from its first chunk. -/
lemma readRange_short {count start stop : Nat} (hstart : start < stop) (hcs : stop ≤ cs) :
    readRange env s get path cs count start stop = do
      refuseIf (0 ≥ count) (contentsShorter path)
      let output ← readParts env s get path 0 start stop [0]
      refuseIf (output.length ≠ stop - start) (contentsShorter path)
      return output := by
  have hfirst : start / cs = 0 := Nat.div_eq_of_lt (by omega)
  have hlast : (stop - 1) / cs = 0 := Nat.div_eq_of_lt (by omega)
  have hpos : refuseIf (cs = 0) panicked = .ok () := refuseIf_eq_ok.mpr (by omega)
  have hparts : readParts env s get path cs start stop [0] =
      readParts env s get path 0 start stop [0] := by
    simp only [readParts, Nat.zero_mul]
  unfold readRange
  rw [hpos, hfirst, hlast, ← hparts]
  rfl

/-- **Short files read the same at every chunk size.** -/
theorem readEntry_short (h : ∀ count, metadata.data = .file count →
      metadata.size ≤ cs ∧ metadata.size ≤ cd) :
    readEntry env s get path cs metadata offset length =
      readEntry env s get path cd metadata offset length := by
  unfold readEntry
  cases hd : metadata.data with
  | symlink target => rfl
  | directory => rfl
  | file count =>
    obtain ⟨hcs, hcd⟩ := h count hd
    simp only []
    split
    · rfl
    · rw [readRange_short (by omega) (by omega), readRange_short (by omega) (by omega)]

end

/-! ## Files as they are captured -/

/-- A file that a path names in a tree. -/
structure FileIn (P : Prolly env) (s : Objects Id) (tree : Root Id) (path canonical : String)
    (metadata : VersionEntry) (count : Nat) : Prop where
  canonical_ok : canonicalPath path = .ok canonical
  found : P.get s.nodes.get? tree (fileMetaKey canonical) = .ok (some (.entry metadata))
  file : metadata.data = .file count

/-- No file of a tree is longer than a chunk of either size. -/
def FilesShort (P : Prolly env) (s : Objects Id) (tree : Root Id) (cs cd : Nat) : Prop :=
  ∀ path canonical metadata count, FileIn P s tree path canonical metadata count →
    metadata.size ≤ cs ∧ metadata.size ≤ cd

/-- A file is cut into chunks of a size, the last one shorter. -/
structure Laid (env : Env Id) (s : Objects Id)
    (get : TreeKey → Except Error (Option (TreeValue Id))) (chunkSize : Nat) (path : String)
    (size count : Nat) : Prop where
  positive : 0 < chunkSize
  count_eq : count = chunkCount size chunkSize
  chunk : ∀ i < count, ∃ bytes, readChunk env s get path i = .ok bytes ∧
    bytes.length = min chunkSize (size - i * chunkSize)

/-- Every file of a tree is cut into chunks of a size, as captures cut it. -/
def TreeLaid (P : Prolly env) (s : Objects Id) (tree : Root Id) (chunkSize : Nat) : Prop :=
  ∀ path canonical metadata count, FileIn P s tree path canonical metadata count →
    Laid env s (P.get s.nodes.get? tree) chunkSize canonical metadata.size count

section

variable {s : Objects Id} {get : TreeKey → Except Error (Option (TreeValue Id))} {path : String}
  {cs cd size count start stop : Nat}
variable {i : Nat}

lemma Laid.lt_count (h : Laid env s get cs path size count) : i < count ↔ i * cs < size := by
  rw [h.count_eq, Live.lt_chunkCount h.positive]

lemma readParts_cons {rest : List Nat} {out : Bytes} :
    readParts env s get path cs start stop (i :: rest) = .ok out ↔
      ∃ chunk parts, readChunk env s get path i = .ok chunk ∧
        start - i * cs ≤ min (stop - i * cs) chunk.length ∧
        readParts env s get path cs start stop rest = .ok parts ∧
        out = (chunk.take (min (stop - i * cs) chunk.length)).drop (start - i * cs) ++ parts := by
  rw [readParts]
  simp only [↓then_eq_ok, bind_eq_ok, refuseIf_eq_ok, Nat.not_lt, gt_iff_lt]
  constructor
  · rintro ⟨chunk, hc, hle, parts, hp, ⟨⟩⟩
    exact ⟨chunk, parts, hc, hle, hp, rfl⟩
  · rintro ⟨chunk, parts, hc, hle, hp, rfl⟩
    exact ⟨chunk, hc, hle, parts, hp, rfl⟩

/-- **A laid file can be read.** The parts from a chunk on reach to the end of the range. -/
theorem Laid.readParts (h : Laid env s get cs path size count) (hstop : stop ≤ size)
    (hlt : start < stop) : ∀ (n i : Nat), i + n = (stop - 1) / cs →
      (i * cs ≤ start ∧ start < (i + 1) * cs ∨ start ≤ i * cs) →
      ∃ out, Version.readParts env s get path cs start stop (List.range' i (n + 1)) = .ok out ∧
        out.length = stop - max start (i * cs)
  | n, i, hn, hi => by
    have hpos := h.positive
    have hlast : ((stop - 1) / cs) * cs ≤ stop - 1 := Nat.div_mul_le_self ..
    have hnext : stop - 1 < ((stop - 1) / cs + 1) * cs := by
      rw [Nat.add_mul, Nat.one_mul]
      exact Nat.lt_div_mul_add hpos
    have hle : i * cs ≤ ((stop - 1) / cs) * cs := Nat.mul_le_mul_right cs (by omega)
    obtain ⟨bytes, hb, hlen⟩ := h.chunk i (h.lt_count.mpr (by omega))
    rw [Nat.add_mul, Nat.one_mul] at hi
    cases n with
    | zero =>
      -- The last chunk: it reaches at least to the end of the range.
      rw [show i = (stop - 1) / cs from hn] at hi hb hlen ⊢
      rw [Nat.add_mul, Nat.one_mul] at hnext
      refine ⟨_, readParts_cons.mpr ⟨bytes, [], hb, by omega, rfl, rfl⟩, ?_⟩
      rw [List.append_nil, List.length_drop, List.length_take]
      omega
    | succ n =>
      -- A chunk before the last is full, and all of it from the start on is copied.
      have hfull : (i + 1) * cs ≤ ((stop - 1) / cs) * cs := Nat.mul_le_mul_right cs (by omega)
      obtain ⟨parts, hp, hpl⟩ := h.readParts hstop hlt n (i + 1) (by omega) (by
        rw [Nat.add_mul, Nat.one_mul]
        omega)
      rw [Nat.add_mul, Nat.one_mul] at hfull hpl
      refine ⟨_, readParts_cons.mpr ⟨bytes, parts, hb, by omega, hp, rfl⟩, ?_⟩
      rw [List.length_append, List.length_drop, List.length_take]
      omega

lemma Laid.readRange (h : Laid env s get cs path size count) (hstop : stop ≤ size)
    (hlt : start < stop) :
    ∃ out, Version.readRange env s get path cs count start stop = .ok out := by
  have hpos := h.positive
  have hlast : ((stop - 1) / cs) * cs ≤ stop - 1 := Nat.div_mul_le_self ..
  have hfirst : (start / cs) * cs ≤ start := Nat.div_mul_le_self ..
  have hnext : start < (start / cs + 1) * cs := by
    rw [Nat.add_mul, Nat.one_mul]
    exact Nat.lt_div_mul_add hpos
  have hle : start / cs ≤ (stop - 1) / cs := Nat.div_le_div_right (by omega)
  obtain ⟨out, hout, hlen⟩ := h.readParts hstop hlt ((stop - 1) / cs - start / cs) (start / cs)
    (by omega) (.inl ⟨hfirst, hnext⟩)
  rw [show (stop - 1) / cs - start / cs + 1 = (stop - 1) / cs + 1 - start / cs by omega] at hout
  refine ⟨out, ?_⟩
  unfold Version.readRange
  simp only [↓then_eq_ok, bind_eq_ok, refuseIf_eq_ok]
  refine ⟨by omega, ?_, out, hout, by omega, rfl⟩
  have := h.lt_count.mpr (show (stop - 1) / cs * cs < size by omega)
  omega

lemma readRange_ok {out : Bytes}
    (h : readRange env s get path cs count start stop = .ok out) :
    cs ≠ 0 ∧ (stop - 1) / cs < count ∧ out.length = stop - start ∧
      readParts env s get path cs start stop
        (List.range' (start / cs) ((stop - 1) / cs + 1 - start / cs)) = .ok out := by
  unfold readRange at h
  simp only [↓then_eq_ok, bind_eq_ok, refuseIf_eq_ok] at h
  obtain ⟨hpos, hcount, out', hout, hlen, ⟨⟩⟩ := h
  exact ⟨hpos, by omega, by omega, hout⟩

/-- **Smaller chunks lose the end of a file**: its last byte lies behind the end of the chunk
that is fetched for it. -/
theorem Laid.last_byte_lost (h : Laid env s get cs path size count) (hcd : cd < cs)
    (hsize : cd < size) : ∀ out,
      Version.readRange env s get path cd count (size - 1) size ≠ .ok out := by
  intro out hout
  obtain ⟨hpos, hcount, hlen, hparts⟩ := readRange_ok hout
  rw [show (size - 1) / cd + 1 - (size - 1) / cd = 1 by omega] at hparts
  obtain ⟨chunk, parts, hc, hle, hnil, rfl⟩ := readParts_cons.mp hparts
  cases hnil
  obtain ⟨bytes, hb, hbl⟩ := h.chunk _ hcount
  rw [hb] at hc
  cases hc
  -- The index is at least one, so the chunk begins later than the reader believes.
  have hindex : 1 ≤ (size - 1) / cd := (Nat.one_le_div_iff (by omega)).mpr (by omega)
  generalize (size - 1) / cd = i at *
  have hgap : i * cd + i ≤ i * cs := by
    exact Nat.mul_le_mul_left i hcd
  rw [List.append_nil, List.length_drop, List.length_take] at hlen
  omega

/-- **Larger chunks are cut short**: the first chunk ends before the range that should lie
inside it. -/
theorem Laid.first_chunk_short (h : Laid env s get cs path size count) (hcd : cs < cd)
    (hsize : cs < size) :
    ∀ out, Version.readRange env s get path cd count 0 (cs + 1) ≠ .ok out := by
  intro out hout
  obtain ⟨hpos, hcount, hlen, hparts⟩ := readRange_ok hout
  have hzero : (cs + 1 - 1) / cd = 0 := Nat.div_eq_of_lt (by omega)
  rw [hzero] at hparts hcount
  rw [Nat.zero_div] at hparts
  obtain ⟨chunk, parts, hc, hle, hnil, rfl⟩ := readParts_cons.mp hparts
  cases hnil
  obtain ⟨bytes, hb, hbl⟩ := h.chunk 0 hcount
  rw [hb] at hc
  cases hc
  rw [List.append_nil, List.length_drop, List.length_take] at hlen
  omega

end

/-! ## Two stores -/

section

variable {P : Prolly env} {s o : Objects Id} {tree : Root Id} {m : Contents Id}

lemma readParts_congr {get : TreeKey → Except Error (Option (TreeValue Id))} {path : String}
    {chunkSize start stop : Nat}
    (h : ∀ i, readChunk env o get path i = readChunk env s get path i) : ∀ indices : List Nat,
    readParts env o get path chunkSize start stop indices =
      readParts env s get path chunkSize start stop indices
  | [] => rfl
  | i :: indices => by
    unfold readParts
    rw [h i, readParts_congr h indices]

/-- **A tree reads the same in two stores that hold the same nodes and blobs of it.** -/
theorem readTree_congr (chunkSize : Nat) (hload : P.load s.nodes.get? tree = .ok m)
    (hnodes : ∀ id, Worklist.Reach (childrenOf s.nodes.get?) (tree = some ·) id →
      s.nodes.get? id = o.nodes.get? id)
    (hblobs : ∀ id node, Worklist.Reach (childrenOf s.nodes.get?) (tree = some ·) id →
      s.nodes.get? id = some node → ∀ r ∈ node.blobRefs, getBlob env o r = getBlob env s r) :
    readTree P chunkSize o tree = readTree P chunkSize s tree := by
  have hget : P.get o.nodes.get? tree = P.get s.nodes.get? tree :=
    (P.get_congr _ _ tree hnodes).symm
  have hchunk : ∀ path i, readChunk env o (P.get s.nodes.get? tree) path i =
      readChunk env s (P.get s.nodes.get? tree) path i := by
    intro path i
    unfold readChunk
    rw [P.get_load _ _ _ hload]
    rcases hk : m.get? (fileChunkKey path i) with - | metadata | r
    · rfl
    · rfl
    obtain ⟨id, node, hreach, hnode, hr⟩ := P.load_chunk _ _ _ hload _ _ hk
    show (getBlob env o r >>= _) = (getBlob env s r >>= _)
    rw [hblobs id node hreach hnode r hr]
  funext path offset length
  unfold readTree
  simp only [hget, readEntry, readRange, readParts_congr (hchunk _)]

end

/-! ## Two chunk sizes -/

section

variable {P : Prolly env} {s : Objects Id} {tree : Root Id} {cs cd : Nat}
variable {metadata : VersionEntry}

lemma readTree_file {path canonical : String} {count : Nat}
    (h : FileIn P s tree path canonical metadata count) (chunkSize offset length : Nat) :
    readTree P chunkSize s tree path offset length =
      readEntry env s (P.get s.nodes.get? tree) canonical chunkSize metadata offset length := by
  unfold readTree
  rw [h.canonical_ok]
  show (P.get s.nodes.get? tree (fileMetaKey canonical) >>= _) = _
  rw [h.found]
  rfl

/-- **Trees of short files read the same.** -/
theorem readTree_short (h : FilesShort P s tree cs cd) :
    readTree P cd s tree = readTree P cs s tree := by
  funext path offset length
  -- The two reads take the same steps up to the metadata of the file.
  unfold readTree
  cases hc : canonicalPath path with
  | error e => rfl
  | ok canonical =>
    show (P.get s.nodes.get? tree (fileMetaKey canonical) >>= _) =
      (P.get s.nodes.get? tree (fileMetaKey canonical) >>= _)
    cases hg : P.get s.nodes.get? tree (fileMetaKey canonical) with
    | error e => rfl
    | ok value =>
      rcases value with - | metadata | reference
      · rfl
      · exact readEntry_short fun count hd => (h path canonical metadata count ⟨hc, hg, hd⟩).symm
      · rfl

/-- A range of a file that reads at one chunk size reads at the other. -/
lemma readRange_of_readTree {path canonical : String} {count start stop : Nat}
    (h : readTree P cd s tree = readTree P cs s tree)
    (hf : FileIn P s tree path canonical metadata count) (hlt : start < stop)
    (hstop : stop ≤ metadata.size) {out : Bytes}
    (hout : readRange env s (P.get s.nodes.get? tree) canonical cs count start stop = .ok out) :
    readRange env s (P.get s.nodes.get? tree) canonical cd count start stop = .ok out := by
  have hread := congrFun (congrFun (congrFun h path) start) (stop - start)
  rw [readTree_file hf, readTree_file hf] at hread
  unfold readEntry at hread
  rw [hf.file] at hread
  have hstart : min start metadata.size = start := by omega
  have hend : min (start + (stop - start)) metadata.size = stop := by omega
  simp only [hstart, hend, if_neg (Nat.ne_of_gt hlt), hout] at hread
  obtain ⟨out', hout', he⟩ := bind_eq_ok.mp hread
  cases he
  exact hout'

/-- **A captured tree that reads the same at two chunk sizes has short files only.** -/
theorem short_of_readTree (hlaid : TreeLaid P s tree cs) (hne : cs ≠ cd)
    (h : readTree P cd s tree = readTree P cs s tree) : FilesShort P s tree cs cd := by
  intro path canonical metadata count hf
  have hl := hlaid path canonical metadata count hf
  rcases Nat.lt_or_gt_of_ne hne with hlt | hlt
  · -- The reader's chunks are larger: its first one would be longer than the one there is.
    suffices metadata.size ≤ cs by omega
    by_contra hsize
    obtain ⟨out, hout⟩ := hl.readRange (show cs + 1 ≤ metadata.size by omega)
      (show 0 < cs + 1 by omega)
    exact hl.first_chunk_short hlt (by omega) out
      (readRange_of_readTree h hf (by omega) (by omega) hout)
  · suffices metadata.size ≤ cd by omega
    by_contra hsize
    obtain ⟨out, hout⟩ := hl.readRange (Nat.le_refl metadata.size)
      (show metadata.size - 1 < metadata.size by omega)
    exact hl.last_byte_lost hlt (by omega) out
      (readRange_of_readTree h hf (by omega) (by omega) hout)

end

end SlateFs.Version
