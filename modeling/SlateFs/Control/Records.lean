import SlateFs.Block.Device

/-!
# Records of the control plane

What the control plane and a volume's superblock say about a volume, and the checks
made on them (`control.rs`, `volume.rs`, `meta/superblock.rs`). Opening a wrapped
key is left to a parameter: it depends on the owner and the wrapped bytes only.
-/

namespace SlateFs

/-- `error::Error`; the errors of libraries carry nothing here. -/
inductive Error where
  | slateDb
  | objectStore
  | crypto (msg : String)
  | notFound (kind name : String)
  | alreadyExists (kind name : String)
  | invalid (what reason : String)
  | codec
  | config (msg : String)
  | io
  | versioning (msg : String)
  deriving DecidableEq, Repr

def Error.ofInvalid (e : Invalid) : Error := .invalid e.what e.reason

inductive VolumeKind where
  | filesystem
  | block (sizeBytes : UInt64)
  deriving DecidableEq, Repr

inductive Cipher where
  | aes256Gcm | xChaCha20Poly1305
  deriving DecidableEq, Repr

inductive Compression where
  | none | lz4 | zstd
  deriving DecidableEq, Repr

inductive VolumeState where
  | creating | active | deleting
  deriving DecidableEq, Repr

/-- The superblock of a volume (key `M`). -/
structure Superblock where
  fsid : UInt64
  cipher : Cipher
  chunkSize : UInt32
  nameEnc : Bool
  createdAt : UInt64
  kind : VolumeKind
  deriving DecidableEq, Repr

structure CloneParent where
  tenant : String
  volume : String
  deriving DecidableEq, Repr

structure VolumeRecord where
  tenant : String
  name : String
  state : VolumeState
  cloneParent : Option CloneParent
  cloneParentCheckpointIds : Option (List String)
  fsid : UInt64
  wrappedDek : Bytes
  cipher : Cipher
  chunkSize : UInt32
  compression : Compression
  quota : QuotaLimits
  kind : VolumeKind
  note : Option String
  createdAt : UInt64
  deriving DecidableEq, Repr

/-- `[a-z0-9]` -/
def lowerOrDigit (c : Char) : Bool := c.isLower || c.isDigit

/-- `store::validate_name`: names become path segments and key components. -/
def Store.validateName (kind name : String) : Except Error Unit :=
  if name ≠ "" ∧ name.utf8ByteSize ≤ 64
      ∧ name.toList.all (fun c => lowerOrDigit c || c = '-' || c = '_')
      ∧ name.toList.head?.any lowerOrDigit then .ok ()
  else .error (.invalid kind s!"{name.quote}: must be [a-z0-9][a-z0-9-_]\x7b0,63\x7d")

/-- Sixteen hexadecimal digits. -/
def hex16 (n : UInt64) : String :=
  let digits := Nat.toDigits 16 n.toNat
  String.ofList (List.replicate (16 - digits.length) '0' ++ digits)

/-- `volume::verify_superblock_matches_record` up to the kind. -/
def verifySuperblockIdentity (record : VolumeRecord) (superblock : Superblock) (what : String) :
    Except Error Unit :=
  if superblock.fsid ≠ record.fsid then
    .error (.invalid what
      s!"fsid {hex16 superblock.fsid} does not match control record {hex16 record.fsid}")
  else if superblock.cipher ≠ record.cipher then
    .error (.invalid what "cipher does not match control record")
  else if superblock.chunkSize ≠ record.chunkSize then
    .error (.invalid what "chunk size does not match control record")
  else .ok ()

def VolumeState.debug : VolumeState → String
  | .creating => "Creating"
  | .active => "Active"
  | .deleting => "Deleting"

lemma then_eq_ok {ε α : Type} {x : Except ε Unit} {f : Unit → Except ε α} {r : α} :
    (x >>= f) = .ok r ↔ x = .ok () ∧ f () = .ok r := by
  cases x with
  | error e => simp [bind, Except.bind]
  | ok u => simp [bind, Except.bind]

lemma exists_ok_of_any {ε α : Type} {x : Except ε α} {p : α → Bool}
    (h : x.toOption.any p = true) : ∃ a, x = .ok a ∧ p a = true := by
  cases x with
  | error e => cases h
  | ok a => exact ⟨a, rfl, h⟩

lemma mapError_eq_ok {ε ε' α : Type} {x : Except ε α} {f : ε → ε'} {a : α} :
    x.mapError f = .ok a ↔ x = .ok a := by
  cases x <;> simp [Except.mapError]

lemma bind_eq_ok {ε α β : Type} {x : Except ε α} {f : α → Except ε β} {r : β} :
    (x >>= f) = .ok r ↔ ∃ a, x = .ok a ∧ f a = .ok r := by
  cases x with
  | error e => simp [bind, Except.bind]
  | ok a => simp [bind, Except.bind]

end SlateFs
