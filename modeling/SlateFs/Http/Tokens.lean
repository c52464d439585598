import SlateFs.Core.Keys
import SlateFs.Lib.Format

/-!
# Entry identifiers and page tokens

The consumer interface names an entry and a place in a listing by texts that it signs. Both kinds
are signed with one key, and a text does not say which kind it is: it is read as whatever the
request has it for. The reader takes what it needs from the front of the payload and ignores the
rest, and a page token has the fields that an entry identifier starts with. So the identifier of
an entry reads as a page token of the directory that the entry is in.
-/

namespace SlateFs.Http

inductive ErrorCode where
  | preconditionFailed | invalidRequest
  deriving DecidableEq, Repr

structure HttpError where
  code : ErrorCode
  message : String
  deriving DecidableEq, Repr

inductive ViewKind where
  | live | snapshot | version
  deriving DecidableEq, Repr

/-- A text of the source: its length is a `u64`. -/
def Text := { value : String // value.utf8ByteSize < 2 ^ 64 }
  deriving DecidableEq, Repr

namespace Text

/-- `as_bytes` -/
def asBytes (text : Text) : Bytes := text.1.toByteArray.data.toList

lemma length_asBytes (text : Text) : text.asBytes.length = text.1.utf8ByteSize := by
  rw [asBytes, Array.length_toList]
  rfl

/-- What `view_binding` hashes of a text: the length in eight bytes, then the bytes. -/
def hashed (text : Text) : Bytes := Keys.be64 (UInt64.ofNat text.asBytes.length) ++ text.asBytes

/-- Read a text from the front: the length says where it ends. -/
def read (bytes : Bytes) : Option (Text × Bytes) :=
  let len := Keys.fromBe (bytes.take 8)
  let rest := bytes.drop 8
  (String.fromUTF8? ⟨(rest.take len).toArray⟩).bind fun value =>
    if h : value.utf8ByteSize < 2 ^ 64 then some (⟨value, h⟩, rest.drop len) else none

lemma fromUTF8_asBytes (text : Text) :
    String.fromUTF8? ⟨text.asBytes.toArray⟩ = some text.1 := by
  have hbytes : (⟨text.asBytes.toArray⟩ : ByteArray) = text.1.toByteArray := by
    rw [asBytes, Array.toArray_toList]
  rw [hbytes, String.fromUTF8?, dif_pos text.1.isValidUTF8]
  rfl

/-- **A hashed text can be read back from the front of whatever follows it.** -/
theorem read_hashed (text : Text) (rest : Bytes) :
    read (text.hashed ++ rest) = some (text, rest) := by
  have hlen : Keys.fromBe (Keys.be64 (UInt64.ofNat text.asBytes.length)) = text.asBytes.length := by
    have hfits : text.asBytes.length < 2 ^ 64 := text.length_asBytes ▸ text.2
    rw [Keys.fromBe_be64_toNat, UInt64.toNat_ofNat_of_lt' hfits]
  rw [read, hashed, List.append_assoc, List.take_left' (by simp), List.drop_left' (by simp), hlen]
  simp only [List.take_left' rfl, List.drop_left' rfl, fromUTF8_asBytes, Option.bind_some,
    dif_pos text.2]
  rfl

/-- The texts that `view_binding` hashes, one after another. -/
def format : Format Text := ⟨hashed, read, read_hashed⟩

end Text

def ViewKind.text : ViewKind → Text
  | .live => ⟨"live", by decide⟩
  | .snapshot => ⟨"snapshot", by decide⟩
  | .version => ⟨"version", by decide⟩

lemma ViewKind.text_injective : Function.Injective ViewKind.text := by
  intro kind kind' h
  have hvalue := congrArg Subtype.val h
  cases kind <;> cases kind' <;> first | rfl | simp [ViewKind.text] at hvalue

/-- What a request reads. The live view has no identity of its own: it is the empty text. -/
structure View where
  tenant : Text
  volume : Text
  kind : ViewKind
  exactId : Text
  deriving DecidableEq, Repr

structure EntryToken (H : Type) where
  version : UInt8
  viewBinding : H
  fsid : UInt64
  parentIno : UInt64
  parentGeneration : UInt32
  ino : UInt64
  generation : UInt32
  name : Bytes

structure PageToken (H : Type) where
  version : UInt8
  viewBinding : H
  fsid : UInt64
  dirIno : UInt64
  dirGeneration : UInt32
  cookie : UInt64

/-- The libraries below the tokens: how `postcard` writes the fields, SHA-256, base64 and the HMAC
of the server's key. No number is read from no bytes. -/
structure Signer (H : Type) where
  u64 : Format UInt64
  u32 : Format UInt32
  binding : Format H
  bytes : Format (Bytes)
  sha256 : Bytes → H
  encode64 : Bytes → List Char
  decode64 : List Char → Option (Bytes)
  hmac : Bytes → Bytes
  u32_nil : u32.dec [] = none
  sha256_injective : Function.Injective sha256

/-- `str::split_once` -/
def splitOnce (c : Char) : List Char → Option (List Char × List Char)
  | [] => none
  | d :: cs => if d = c then some ([], cs) else (splitOnce c cs).map fun p => (d :: p.1, p.2)

namespace Signer

variable {H : Type} (s : Signer H)

def entryToken : Format (EntryToken H) :=
  (Format.byte.prod (s.binding.prod (s.u64.prod (s.u64.prod (s.u32.prod (s.u64.prod
      (s.u32.prod s.bytes))))))).comap
    (fun t => (t.version, t.viewBinding, t.fsid, t.parentIno, t.parentGeneration, t.ino,
      t.generation, t.name))
    (fun (v, b, f, p, g, i, n, l) => ⟨v, b, f, p, g, i, n, l⟩) fun _ => rfl

def pageToken : Format (PageToken H) :=
  (Format.byte.prod (s.binding.prod (s.u64.prod (s.u64.prod (s.u32.prod s.u64))))).comap
    (fun t => (t.version, t.viewBinding, t.fsid, t.dirIno, t.dirGeneration, t.cookie))
    (fun (v, b, f, i, g, c) => ⟨v, b, f, i, g, c⟩) fun _ => rfl

def sign {α : Type} (f : Format α) (value : α) : List Char :=
  s.encode64 (f.enc value) ++ '.' :: s.encode64 (s.hmac (f.enc value))

/-- The payload of a text that the server's key has signed. -/
def payload (token : List Char) : Option (Bytes) := do
  let (payload, signature) ← splitOnce '.' token
  let payload ← s.decode64 payload
  let signature ← s.decode64 signature
  if s.hmac payload = signature then some payload else none

def verify {α : Type} (f : Format α) (token : List Char) : Option α :=
  (s.payload token).bind fun payload => (f.dec payload).map (·.1)

def viewBinding (view : View) : H :=
  s.sha256 ([view.tenant, view.volume, view.kind.text, view.exactId].flatMap Text.hashed)

lemma viewBinding_inj {view view' : View} : s.viewBinding view = s.viewBinding view' ↔
    view = view' := by
  refine ⟨fun h => ?_, congrArg _⟩
  let f := Text.format.prod (Text.format.prod (Text.format.prod Text.format))
  have henc : f.enc (view.tenant, view.volume, view.kind.text, view.exactId) =
      f.enc (view'.tenant, view'.volume, view'.kind.text, view'.exactId) := by
    simpa [f, Format.prod, Text.format] using s.sha256_injective h
  have hdec := congrArg f.dec (congrArg (· ++ []) henc)
  simp only [f.dec_enc, Option.some.injEq, Prod.mk.injEq, and_true] at hdec
  obtain ⟨ht, hv, hk, hi⟩ := hdec
  have hkind : view.kind = view'.kind := ViewKind.text_injective hk
  cases view
  cases view'
  simp_all

/-- An identifier starts with the fields of a page token, with its own inode for the cookie. -/
lemma pageToken_dec_entry (t : EntryToken H) :
    (s.pageToken.dec (s.entryToken.enc t)).map (·.1) = some
      ⟨t.version, t.viewBinding, t.fsid, t.parentIno, t.parentGeneration, t.ino⟩ := by
  have hfront := s.pageToken.dec_enc ⟨t.version, t.viewBinding, t.fsid, t.parentIno,
    t.parentGeneration, t.ino⟩ (s.u32.enc t.generation ++ s.bytes.enc t.name)
  simp only [pageToken, entryToken, Format.comap, Format.prod, List.append_assoc] at hfront ⊢
  rw [hfront, Option.map_some]

/-- A page token ends before the generation of an entry. -/
lemma entryToken_dec_page (t : PageToken H) : s.entryToken.dec (s.pageToken.enc t) = none := by
  have hlast := s.u64.dec_enc t.cookie []
  rw [List.append_nil] at hlast
  simp only [entryToken, pageToken, Format.comap, Format.prod, Format.dec_enc, hlast, s.u32_nil,
    Option.bind_some, Option.bind_none, Option.map_none]

variable [DecidableEq H]

/-- `resolve`, up to the first question to the volume: the later checks only refuse more. -/
def resolve (view : View) (fsid : UInt64) (entryId : List Char) :
    Except HttpError (EntryToken H) :=
  match s.verify s.entryToken entryId with
  | none => .error ⟨.preconditionFailed, "entry identifier is invalid or stale"⟩
  | some token =>
    if token.version ≠ 2 ∨ token.viewBinding ≠ s.viewBinding view ∨ token.fsid ≠ fsid then
      .error ⟨.preconditionFailed, "entry identifier is foreign or stale"⟩
    else .ok token

/-- `entries`: where the listing of a directory, its inode and generation, goes on. -/
def pageCookie (view : View) (fsid : UInt64) (dir : UInt64 × UInt32) :
    Option (List Char) → Except HttpError UInt64
  | none => .ok 0
  | some token =>
    match s.verify s.pageToken token with
    | none => .error ⟨.preconditionFailed, "page token is invalid"⟩
    | some page =>
      if page.version ≠ 2 ∨ page.viewBinding ≠ s.viewBinding view ∨ page.fsid ≠ fsid ∨
          page.dirIno ≠ dir.1 ∨ page.dirGeneration ≠ dir.2 then
        .error ⟨.preconditionFailed, "page token is stale"⟩
      else .ok page.cookie

end Signer

/-- What the server has signed: the identifier of an entry below a parent, or of a root, whose
parent is `(0, 0)`; or the token of a page of a directory. -/
inductive Issued where
  | entry (view : View) (fsid : UInt64) (parent : UInt64 × UInt32) (ino : UInt64)
      (generation : UInt32) (name : Bytes)
  | page (view : View) (fsid : UInt64) (dir : UInt64 × UInt32) (cookie : UInt64)

/-- A text that comes with a request, to be read as one kind of token. -/
inductive Request where
  | entryId (view : View) (fsid : UInt64)
  | pageToken (view : View) (fsid : UInt64) (dir : UInt64 × UInt32)

namespace Issued

def payload {H : Type} (s : Signer H) : Issued → Bytes
  | entry view fsid parent ino generation name =>
    s.entryToken.enc ⟨2, s.viewBinding view, fsid, parent.1, parent.2, ino, generation, name⟩
  | page view fsid dir cookie =>
    s.pageToken.enc ⟨2, s.viewBinding view, fsid, dir.1, dir.2, cookie⟩

/-- Signed as the kind of token that the request has it for, and for the same view. -/
def Answers : Issued → Request → Prop
  | entry view fsid .., .entryId view' fsid' => view = view' ∧ fsid = fsid'
  | page view fsid dir _, .pageToken view' fsid' dir' => view = view' ∧ fsid = fsid' ∧ dir = dir'
  | _, _ => False

/-- The identifier of an entry of the directory that the request lists. -/
def ChildOf : Issued → Request → Prop
  | entry view fsid parent .., .pageToken view' fsid' dir =>
    view = view' ∧ fsid = fsid' ∧ parent = dir
  | _, _ => False

end Issued

namespace Request

variable {H : Type} [DecidableEq H]

def Accepts (s : Signer H) (text : List Char) : Request → Prop
  | entryId view fsid => ∃ token, s.resolve view fsid text = .ok token
  | pageToken view fsid dir => ∃ cookie, s.pageCookie view fsid dir (some text) = .ok cookie

lemma exists_ok_iff {ε α : Type} {c : Prop} [Decidable c] {e : ε} {a : α} :
    (∃ b, (if c then Except.error e else .ok a) = .ok b) ↔ ¬c := by
  split <;> simp [*]

/-- A text that is accepted was signed for this, and for nothing else. -/
def Sound (s : Signer H) (log : List Issued) (text : List Char) (r : Request) : Prop :=
  r.Accepts s text → (∃ i ∈ log, s.payload text = some (i.payload s)) ∧
    ∀ i ∈ log, s.payload text = some (i.payload s) → i.Answers r

variable {s : Signer H} {text : List Char}

/-- A signed text is accepted for what it was signed for, and as a page token of the parent. -/
lemma accepts_iff {i : Issued} (h : s.payload text = some (i.payload s)) (r : Request) :
    r.Accepts s text ↔ i.Answers r ∨ i.ChildOf r := by
  have hread : ∀ {α : Type} (f : Format α) a, f.dec (f.enc a) = some (a, []) := fun f a => by
    simpa using f.dec_enc a []
  cases r <;> cases i <;>
    simp [Accepts, Signer.resolve, Signer.pageCookie, Signer.verify, h, Issued.payload, hread,
      Signer.entryToken_dec_page, Signer.pageToken_dec_entry, Issued.Answers, Issued.ChildOf,
      Signer.viewBinding_inj, exists_ok_iff, Prod.ext_iff]

/-- **A text is accepted only for what it was signed for, except that the identifier of an entry
is taken for a page token of its directory.** -/
theorem sound_iff (s : Signer H) (log : List Issued) (text : List Char) (r : Request)
    (unforgeable : ∀ p, s.payload text = some p → ∃ i ∈ log, i.payload s = p) :
    r.Sound s log text ↔ ∀ i ∈ log, s.payload text = some (i.payload s) → ¬i.ChildOf r := by
  constructor
  · intro hsound i hi hp hchild
    have hanswers := (hsound ((accepts_iff hp r).2 (.inr hchild))).2 i hi hp
    cases i <;> cases r <;> simp_all [Issued.Answers, Issued.ChildOf]
  · intro hno haccepts
    constructor
    · cases hp : s.payload text with
      | none =>
        cases r <;>
          simp [Accepts, Signer.resolve, Signer.pageCookie, Signer.verify, hp] at haccepts
      | some p =>
        obtain ⟨i, hi, rfl⟩ := unforgeable p hp
        exact ⟨i, hi, rfl⟩
    · intro i hi hp
      exact ((accepts_iff hp r).1 haccepts).resolve_right (hno i hi hp)

end Request

/-- Texts that are their own signature. -/
def plainSigner : Signer Bytes where
  u64 := Format.nat.comap UInt64.toNat UInt64.ofNat fun _ => UInt64.ofNat_toNat
  u32 := Format.nat.comap UInt32.toNat UInt32.ofNat fun _ => UInt32.ofNat_toNat
  binding := Format.byte.list
  bytes := Format.byte.list
  sha256 := id
  encode64 := List.map fun b => Char.ofNat b.toNat
  decode64 text := some (text.map fun c => UInt8.ofNat c.toNat)
  hmac := id
  u32_nil := rfl
  sha256_injective := Function.injective_id

def plainView : View := ⟨⟨"t", by decide⟩, ⟨"v", by decide⟩, .live, ⟨"", by decide⟩⟩

/-- The identifier of an entry `a` of the directory 1. -/
def plainEntry : Issued := .entry plainView 7 (1, 1) 2 1 [97]

def plainText : List Char :=
  plainSigner.sign plainSigner.entryToken
    ⟨2, plainSigner.viewBinding plainView, 7, 1, 1, 2, 1, [97]⟩

lemma payload_plainText :
    plainSigner.payload plainText = some (plainEntry.payload plainSigner) := by
  decide +kernel

theorem sound_plainText_entryId :
    (Request.entryId plainView 7).Accepts plainSigner plainText ∧
      (Request.entryId plainView 7).Sound plainSigner [plainEntry] plainText :=
  ⟨(Request.accepts_iff payload_plainText _).2 (.inl ⟨rfl, rfl⟩),
    (Request.sound_iff plainSigner [plainEntry] plainText _ fun p hp =>
      ⟨plainEntry, List.mem_singleton.2 rfl, by simpa [payload_plainText] using hp⟩).2
        fun i hi _ => by simp_all [plainEntry, Issued.ChildOf]⟩

theorem not_sound_plainText_pageToken : ¬(Request.pageToken plainView 7 (1, 1)).Sound
    plainSigner [plainEntry] plainText := by
  intro h
  have haccepts := (Request.accepts_iff payload_plainText
    (.pageToken plainView 7 (1, 1))).2 (.inr ⟨rfl, rfl, rfl⟩)
  exact (h haccepts).2 plainEntry (List.mem_singleton.2 rfl) payload_plainText

end SlateFs.Http
