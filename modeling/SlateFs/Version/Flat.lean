import SlateFs.Version.Tree
import SlateFs.Lib.Format

/-!
# Trees of one leaf

The simplest Prolly trees: all bindings of a map in one leaf, in order. They meet
everything that `Prolly` asks for, and small repositories can be computed with them.
-/

namespace SlateFs.Version

namespace Flat

open OrdMap Worklist

variable {Id : Type}

/-! ## Keys and entries as bytes -/

def keyFormat : Format TreeKey := ((Format.string.prod Format.nat).lex.sum Format.string).lex

def timeFormat : Format Timespec :=
  (Format.int.prod Format.nat).comap (fun t => (t.secs, t.nanos)) (fun t => ⟨t.1, t.2⟩) fun _ => rfl

def dataFormat : Format VersionEntryData :=
  (Format.nat.sum (Format.list (Format.list Format.byte))).comap
    (fun | .file n => .inl n | .directory => .inr [] | .symlink t => .inr [t])
    (fun | .inl n => .file n | .inr [] => .directory | .inr (t :: _) => .symlink t)
    (fun a => by cases a <;> rfl)

def entryFormat : Format VersionEntry :=
  ((Format.nat.prod (Format.nat.prod (Format.nat.prod Format.nat))).prod
    (timeFormat.prod (timeFormat.prod dataFormat))).comap
    (fun e => ((e.mode, e.uid, e.gid, e.size), e.atime, e.mtime, e.data))
    (fun x => ⟨x.1.1, x.1.2.1, x.1.2.2.1, x.1.2.2.2, x.2.1, x.2.2.1, x.2.2.2⟩) fun _ => rfl

/-! ## The leaf of a map -/

/-- The key in the leaf: its position comes first, so that keys are in order. -/
def position : Nat → Bytes → Bytes
  | 0, key => 1 :: key
  | i + 1, key => 2 :: position i key

def unposition : Bytes → Bytes
  | [] => []
  | b :: key => if b = 1 then key else unposition key

def valueRef : TreeValue Id → ValueRef Id
  | .entry metadata => .inline (entryFormat.enc metadata)
  | .chunk reference => .blob reference

def leafEntries (i : Nat) : List (TreeKey × TreeValue Id) → List (Bytes × ValueRef Id)
  | [] => []
  | e :: es => (position i (keyFormat.enc e.1), valueRef e.2) :: leafEntries (i + 1) es

def leaf (m : Contents Id) : Node Id := .leaf (leafEntries 0 m.entries)

def readValue : ValueRef Id → Option (TreeValue Id)
  | .inline bytes => (entryFormat.dec bytes).map (.entry ·.1)
  | .blob reference => some (.chunk reference)

def readEntry (e : Bytes × ValueRef Id) : Option (TreeKey × TreeValue Id) :=
  (keyFormat.dec (unposition e.1)).bind fun k => (readValue e.2).map (k.1, ·)

def readLeaf : Node Id → Option (Contents Id)
  | .internal _ => none
  | .leaf es => (es.mapM readEntry).map (insertAll ∅)

lemma unposition_position (i : Nat) (key : Bytes) : unposition (position i key) = key := by
  induction i with
  | zero => rfl
  | succ i ih => exact ih

lemma dec_enc_self {α : Type} (c : Format α) (a : α) : c.dec (c.enc a) = some (a, []) := by
  have := c.dec_enc a []
  rwa [List.append_nil] at this

lemma readValue_valueRef (v : TreeValue Id) : readValue (valueRef v) = some v := by
  cases v with
  | entry metadata =>
    show (entryFormat.dec (entryFormat.enc metadata)).map _ = _
    rw [dec_enc_self]
    rfl
  | chunk reference => rfl

lemma mapM_leafEntries : ∀ (i : Nat) (es : List (TreeKey × TreeValue Id)),
    (leafEntries i es).mapM readEntry = some es
  | _, [] => rfl
  | i, e :: es => by
    rw [leafEntries, List.mapM_cons, mapM_leafEntries (i + 1) es]
    have : readEntry (position i (keyFormat.enc e.1), valueRef e.2) = some e := by
      unfold readEntry
      simp only [unposition_position, dec_enc_self, readValue_valueRef, Option.bind_some,
        Option.map_some]
    rw [this]
    rfl

lemma readLeaf_leaf (m : Contents Id) : readLeaf (leaf m) = some m := by
  show (List.mapM readEntry (leafEntries 0 m.entries)).map _ = _
  rw [mapM_leafEntries, Option.map_some, insertAll_entries]

lemma position_lt : ∀ {i j : Nat} (a b : Bytes), i < j → position i a < position j b
  | 0, j + 1, a, b, _ => List.cons_lt_cons_iff.mpr (.inl (by decide))
  | i + 1, j + 1, a, b, h => List.cons_lt_cons_iff.mpr
      (.inr ⟨rfl, position_lt a b (Nat.lt_of_succ_lt_succ h)⟩)

lemma leafEntries_sorted : ∀ (i : Nat) (es : List (TreeKey × TreeValue Id)),
    strictlySorted ((leafEntries i es).map (·.1)) = true
  | _, [] => rfl
  | _, [_] => rfl
  | i, e :: e' :: es => by
    have := leafEntries_sorted (i + 1) (e' :: es)
    simp only [leafEntries, List.map_cons, strictlySorted] at this ⊢
    rw [this, Bool.and_true]
    exact decide_eq_true (position_lt _ _ (Nat.lt_succ_self i))

variable {x : Bytes × ValueRef Id} {b : BlobRef Id} {m : Contents Id}

lemma mem_leafEntries : ∀ {i : Nat}
    {es : List (TreeKey × TreeValue Id)}, x ∈ leafEntries i es →
    ∃ e ∈ es, x.2 = valueRef e.2
  | _, [], h => by cases h
  | i, e :: es, h => by
    rcases List.mem_cons.mp h with rfl | h
    · exact ⟨e, List.mem_cons_self .., rfl⟩
    · obtain ⟨e', he', hv⟩ := mem_leafEntries h
      exact ⟨e', List.mem_cons_of_mem _ he', hv⟩

/-- A blob that a node is read as a chunk of is one the node refers to. -/
lemma readEntry_chunk {k : TreeKey} (h : readEntry x = some (k, .chunk b)) :
    x.2.blobRef = some b := by
  obtain ⟨k', -, hv⟩ := Option.bind_eq_some_iff.mp h
  obtain ⟨v, hv, he⟩ := Option.map_eq_some_iff.mp hv
  cases he
  cases hx : x.2 with
  | inline bytes =>
    rw [hx] at hv
    obtain ⟨e, -, he⟩ := Option.map_eq_some_iff.mp hv
    cases he
  | blob reference =>
    rw [hx] at hv
    cases hv
    rfl

lemma mem_mapM_option {α β : Type} {f : α → Option β} {y : β} : ∀ {xs : List α} {ys : List β},
    xs.mapM f = some ys → y ∈ ys → ∃ x ∈ xs, f x = some y
  | [], ys, h, hy => by
    cases h
    cases hy
  | x :: xs, ys, h, hy => by
    rw [List.mapM_cons] at h
    obtain ⟨z, hz, h⟩ := Option.bind_eq_some_iff.mp h
    obtain ⟨zs, hzs, h⟩ := Option.bind_eq_some_iff.mp h
    cases h
    rcases List.mem_cons.mp hy with rfl | hy
    · exact ⟨x, List.mem_cons_self .., hz⟩
    · obtain ⟨x', hx', hf⟩ := mem_mapM_option hzs hy
      exact ⟨x', List.mem_cons_of_mem _ hx', hf⟩

/-- A chunk in a map that was read from a node is a blob the node refers to. -/
lemma blob_of_readLeaf {n : Node Id} (h : readLeaf n = some m) {k : TreeKey}
    (hk : m.get? k = some (.chunk b)) : b ∈ n.blobRefs := by
  cases n with
  | internal es => cases h
  | leaf es =>
    obtain ⟨ds, hds, rfl⟩ := Option.map_eq_some_iff.mp h
    have hmem := (mem_of_get?_insertAll hk).resolve_left (by simp)
    obtain ⟨x, hx, hread⟩ := mem_mapM_option hds hmem
    exact List.mem_filterMap.mpr ⟨x, hx, readEntry_chunk hread⟩

/-! ## The trees -/

def nodes (m : Contents Id) : List (Node Id) := if m.entries = [] then [] else [leaf m]

lemma nodes_eq {n : Node Id} (h : n ∈ nodes m) : n = leaf m := by
  unfold nodes at h
  split at h
  · cases h
  · exact List.mem_singleton.mp h

lemma leaf_children (m : Contents Id) : (leaf m).children = [] := rfl

lemma leaf_blob {r : BlobRef Id} (h : r ∈ (leaf m).blobRefs) :
    ∃ k, m.get? k = some (.chunk r) := by
  obtain ⟨x, hx, hr⟩ := List.mem_filterMap.mp h
  obtain ⟨e, he, hv⟩ := mem_leafEntries hx
  rw [hv] at hr
  cases h2 : e.2 with
  | entry metadata =>
    rw [h2] at hr
    cases hr
  | chunk reference =>
    rw [h2] at hr
    cases hr
    exact ⟨e.1, mem_entries.mp (h2 ▸ he)⟩

section

variable [ObjectId Id] (env : Env Id)

def root (m : Contents Id) : Root Id :=
  if m.entries = [] then none else some (env.nodeDigest (leaf m))

def load (lookup : Id → Option (Node Id)) : Root Id → Except Error (Contents Id)
  | none => .ok ∅
  | some id =>
    match lookup id with
    | none => .error (prollyError id)
    | some node =>
      match readLeaf node with
      | none => .error (.versioning "invalid node")
      | some m => .ok m

def get (lookup : Id → Option (Node Id)) (r : Root Id) (k : TreeKey) :
    Except Error (Option (TreeValue Id)) :=
  match load lookup r with
  | .error e => .error e
  | .ok m => .ok (m.get? k)

variable {lookup : Id → Option (Node Id)} {r : Root Id} {m : Contents Id}

lemma load_congr {lookup' : Id → Option (Node Id)}
    (h : ∀ id, Reach (childrenOf lookup) (r = some ·) id → lookup id = lookup' id) :
    load lookup r = load lookup' r := by
  cases r with
  | none => rfl
  | some id => rw [load, load, h id (.root rfl)]

variable {env}

lemma load_root (h : ∀ n ∈ nodes m, lookup (env.nodeDigest n) = some n) :
    load lookup (root env m) = .ok m := by
  unfold root
  unfold nodes at h
  split
  · rename_i hm
    rw [eq_empty_of_entries hm]
    rfl
  · rename_i hm
    rw [if_neg hm] at h
    rw [load, h _ (List.mem_singleton_self _)]
    simp only [readLeaf_leaf]

lemma load_present (h : load lookup r = .ok m) {id : Id}
    (hid : Reach (childrenOf lookup) (r = some ·) id) :
    (lookup id).isSome := by
  cases r with
  | none =>
    have := hid.mem_of_closed (S := fun _ => False) nofun fun _ _ h => h.elim
    exact this.elim
  | some root =>
    rw [load] at h
    split at h
    · cases h
    rename_i node hnode
    split at h
    · cases h
    rename_i m' hm'
    -- the root is a leaf
    have hleaf : childrenOf lookup root = [] := by
      rw [childrenOf, hnode]
      cases node with
      | leaf es => rfl
      | internal es => cases hm'
    have hroot := hid.mem_of_closed (fun y hy => Option.some.inj hy)
      (fun y z hy hz => by rw [← hy, hleaf] at hz; cases hz)
    rw [← hroot, hnode]
    rfl

lemma load_chunk (h : load lookup r = .ok m) {k : TreeKey} {b : BlobRef Id}
    (hk : m.get? k = some (.chunk b)) : ∃ id node,
      Reach (childrenOf lookup) (r = some ·) id ∧ lookup id = some node ∧ b ∈ node.blobRefs := by
  cases r with
  | none =>
    cases h
    cases hk
  | some id =>
    rw [load] at h
    split at h
    · cases h
    rename_i node hnode
    split at h
    · cases h
    rename_i m' hm'
    cases h
    exact ⟨id, node, .root rfl, hnode, blob_of_readLeaf hm' hk⟩

end

end Flat

/-- Trees of one leaf. -/
def Prolly.flat {Id : Type} [ObjectId Id] (env : Env Id) : Prolly env where
  root := Flat.root env
  nodes := Flat.nodes
  load := Flat.load
  get := Flat.get
  diff := OrdMap.diff
  batch := OrdMap.batch
  diff_eq _ _ := rfl
  batch_eq _ _ := rfl
  root_empty := rfl
  root_mem m r h := by
    unfold Flat.root at h
    unfold Flat.nodes
    split at h
    · cases h
    rename_i hm
    cases h
    rw [if_neg hm]
    exact ⟨_, List.mem_singleton_self _, rfl⟩
  child_mem m n hn c hc := by
    rw [Flat.nodes_eq hn, Flat.leaf_children] at hc
    cases hc
  keys_sorted m n hn := by
    rw [Flat.nodes_eq hn]
    exact Flat.leafEntries_sorted 0 m.entries
  blob_mem m n hn r hr := by
    rw [Flat.nodes_eq hn] at hr
    exact Flat.leaf_blob hr
  load_root _ _ h := Flat.load_root h
  get_load lookup r m h k := by
    show Flat.get lookup r k = _
    rw [Flat.get, h]
  load_present _ _ _ h _ hid := Flat.load_present h hid
  load_chunk _ _ _ h _ _ hk := Flat.load_chunk h hk
  load_congr _ _ _ h := Flat.load_congr h
  get_congr lookup lookup' r h := by
    funext k
    show Flat.get lookup r k = Flat.get lookup' r k
    rw [Flat.get, Flat.get, Flat.load_congr h]

end SlateFs.Version
