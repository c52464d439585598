import SlateFs.Data.Chunks
import SlateFs.Seq.Quiet
import SlateFs.Shapes.Alone

/-!
# Extended attributes over 9P

A fid collects the value of an extended attribute by writes, and the value is set when the
fid is clunked (`filesystem.rs`). The buffer grows up to the offset that the client names.
How long a value may be is known to the volume only, which is asked at the end.
-/

namespace SlateFs.P9

inductive XattrFid where
  /-- A value, or the list of names. No vector is longer than this. -/
  | read (buf : Bytes) (short : buf.length < 2 ^ 63)
  | write (name buf : Bytes)

structure FidState where
  ino : Ino
  uid : UInt32
  gid : UInt32
  handle : Option Nat
  /-- The directory and the name by which the node was reached. -/
  provenance : Option (Ino × Bytes)
  xattr : Option XattrFid

def FidState.creds (st : FidState) : Credentials := ⟨st.uid, st.gid, [], true⟩

/-- The requests that an extended attribute is written and read by. -/
inductive Request where
  | xattrcreate (name : Bytes)
  | write (offset : UInt64) (data : Bytes)
  | read (offset : UInt64) (count : UInt32)
  | clunk

/-- `buf.resize(..)` and `copy_from_slice`. A sum that wraps gives a range that ends before it
starts, and a longer vector cannot be allocated. -/
def bufferWrite (buf : Bytes) (offset : UInt64) (data : Bytes) : Except Abort Bytes :=
  let stop := offset.toNat + data.length
  if 2 ^ 63 ≤ stop then .error .panic else .ok (splice (growTo buf stop) offset.toNat data)

def bufferRead (buf : Bytes) (offset : UInt64) (count : UInt32) : Except Abort Bytes :=
  let start := min offset.toNat buf.length
  if 2 ^ 64 ≤ start + count.toNat then .error .panic
  else .ok ((buf.take (start + count.toNat)).drop start)

/-- The volume is asked, and the fid stays as it is. -/
def told (answered : Except FsError Reply) (st : FidState) : Except Abort FidState :=
  match answered with
  | .ok _ => .ok st
  | .error e => .error (.err e)

variable (rate : Except FsError Unit) (policy : AtimeMode) (answer : Op → Except FsError Reply)

/-- `rxattrcreate`, `rwrite`, `rread` and `rclunk`: what becomes of the fid, given the verdict of
the rate limiter and the answers of the volume. An error leaves the fid as it was. -/
def serve (st : FidState) (r : Request) : Except Abort FidState :=
  match rate, r, st.xattr with
  | .error e, _, _ => .error (.err e)
  | .ok _, .xattrcreate name, _ => .ok { st with xattr := some (.write name []) }
  | .ok _, .write offset data, some (.write name buf) =>
    (bufferWrite buf offset data).map fun buf => { st with xattr := some (.write name buf) }
  | .ok _, .write offset data, _ => told (answer (.write st.ino offset.toNat data)) st
  | .ok _, .read offset count, some (.read buf _) =>
    (bufferRead buf offset count).map fun _ => st
  | .ok _, .read offset count, _ =>
    told (answer (.read st.ino offset.toNat count.toNat policy)) st
  -- a handle is closed then, whatever the volume says
  | .ok _, .clunk, some (.write name buf) => told (answer (.setxattr st.ino name buf)) st
  | .ok _, .clunk, _ => .ok st

/-! ## What the writes mean -/

/-- A byte array: its length, and its bytes, which are zero beyond it. -/
structure Value where
  length : Nat
  byte : Nat → UInt8

def Value.empty : Value := ⟨0, fun _ => 0⟩

def Value.write (a : Value) (offset : Nat) (data : Bytes) : Value where
  length := max a.length (offset + data.length)
  byte q := if offset ≤ q ∧ q < offset + data.length then data.getD (q - offset) 0 else a.byte q

def Value.after (a : Value) : Request → Value
  | .xattrcreate _ => .empty
  | .write offset data => a.write offset.toNat data
  | _ => a

def Value.Is (a : Value) (buf : Bytes) : Prop :=
  buf.length = a.length ∧ ∀ q, buf.getD q 0 = a.byte q

/-- A write that is buffered ends within the longest value. -/
def Fits (st : FidState) : Request → Prop
  | .write offset data => ∀ name buf, st.xattr = some (.write name buf) →
    offset.toNat + data.length ≤ MAX_XATTR_VALUE
  | _ => True

/-- Requests that fit, from a fid that collects nothing yet, and the array they write. -/
inductive Reached : FidState → Value → Prop where
  | start {st : FidState} (h : ∀ name buf, st.xattr ≠ some (.write name buf)) : Reached st .empty
  | step {st st' : FidState} {a : Value} (rate policy answer) (r : Request) (h : Reached st a)
      (hfit : Fits st r) (hs : serve rate policy answer st r = .ok st') : Reached st' (a.after r)

variable {rate policy answer} {st st' : FidState} {a : Value} {buf name : Bytes}

lemma Value.Is.write (h : a.Is buf) (offset : Nat) (data : Bytes) :
    (a.write offset data).Is (splice (growTo buf (offset + data.length)) offset data) := by
  have hlen := growTo_length buf (offset + data.length)
  constructor
  · rw [splice_length (by omega), hlen, h.1]
    rfl
  · intro q
    rw [splice_getD _ (by omega), growTo_getD, h.2]
    rfl

lemma told_eq_ok {x : Except FsError Reply} (h : told x st = .ok st') :
    st' = st ∧ ∃ reply, x = .ok reply := by
  cases x with
  | error e => cases h
  | ok reply => cases h; exact ⟨rfl, reply, rfl⟩

lemma told_ne_panic {x : Except FsError Reply} : told x st ≠ .error .panic := by
  cases x <;> exact nofun

/-- A write that fits is spliced into the buffer. -/
lemma bufferWrite_eq {offset : UInt64} {data : Bytes}
    (h : offset.toNat + data.length ≤ MAX_XATTR_VALUE) : bufferWrite buf offset data =
      .ok (splice (growTo buf (offset.toNat + data.length)) offset.toNat data) := by
  have hmax : MAX_XATTR_VALUE = 65536 := rfl
  exact if_neg (by omega)

/-- What is buffered is what was written, and is no longer than a value may be. -/
lemma Reached.is (h : Reached st a) (hx : st.xattr = some (.write name buf)) :
    a.Is buf ∧ buf.length ≤ MAX_XATTR_VALUE := by
  induction h generalizing name buf with
  | start h => exact absurd hx (h name buf)
  | step rate policy answer r h hfit hs ih =>
    unfold serve at hs
    split at hs
    case h_1 => cases hs
    case h_2 =>
      cases hs
      cases hx
      exact ⟨⟨rfl, fun _ => rfl⟩, Nat.zero_le _⟩
    case h_3 offset data name' buf' hst =>
      have hfits := hfit name' buf' hst
      rw [bufferWrite_eq hfits] at hs
      cases hs
      cases hx
      obtain ⟨his, hlen⟩ := ih hst
      have hgrow := growTo_length buf' (offset.toNat + data.length)
      refine ⟨his.write _ _, ?_⟩
      rw [splice_length (by omega)]
      omega
    case h_4 hno =>
      obtain ⟨rfl, -⟩ := told_eq_ok hs
      exact absurd hx (hno name buf)
    case h_5 offset count buf' _ hst =>
      cases hb : bufferRead buf' offset count <;> rw [hb] at hs <;> cases hs
      rw [hst] at hx
      cases hx
    case h_6 =>
      obtain ⟨rfl, -⟩ := told_eq_ok hs
      exact ih hx
    case h_7 =>
      obtain ⟨rfl, -⟩ := told_eq_ok hs
      exact ih hx
    case h_8 =>
      cases hs
      exact ih hx

lemma serve_ne_panic {r : Request} (hfit : Fits st r) :
    serve rate policy answer st r ≠ .error .panic := by
  unfold serve
  split
  case h_3 name' buf' hst =>
    rw [bufferWrite_eq (hfit name' buf' hst)]
    exact nofun
  case h_5 offset count buf' short hst =>
    have hcount := count.toNat_lt
    rw [bufferRead, if_neg (by omega)]
    exact nofun
  all_goals first | exact told_ne_panic | exact nofun

lemma setxattr_stored {v : Volume} {fuel : Nat} {creds : Credentials} {ino : Ino} {env : Env}
    {s s' : St} {reply : Reply}
    (h : (Op.prog v fuel creds (.setxattr ino name buf)).run.run (Call.answer env) s =
      some (.ok reply, s')) : s'.db.xattrs.get? (toLex (ino, name)) = some buf := by
  have hw : FsM.wp (Oracle.any.steps fun _ _ => True)
      (fun _ db => db.xattrs.get? (toLex (ino, name)) = some buf) (fun _ _ => True)
      (Op.prog v fuel creds (.setxattr ino name buf)) s.db := by
    rw [Op.prog, FsM.wp_map]
    refine Track.wp_alone.mp (Track.wp_setxattr (Track.atRest_alone fun _ => trivial)
      fun i => Track.under_alone fun _ => ?_)
    simp only [FsM.wp_bind, FsM.wp_commit, FsM.wp_attrsInsert]
    exact ⟨.inr trivial, OrdMap.get?_insert_self ..⟩
  exact run_any hw h

/-- **Extended attributes that fit are collected and stored as written.** -/
theorem xattr_stored_as_written (h : Reached st a) :
    (∀ rate policy answer r, Fits st r → serve rate policy answer st r ≠ .error .panic) ∧
    ∀ name buf, st.xattr = some (.write name buf) → buf.length ≤ MAX_XATTR_VALUE ∧ a.Is buf ∧
      (∀ rate policy answer st', serve rate policy answer st .clunk = .ok st' →
        ∃ reply, answer (.setxattr st.ino name buf) = .ok reply) ∧
      ∀ v fuel env s s' reply,
        (Op.prog v fuel st.creds (.setxattr st.ino name buf)).run.run (Call.answer env) s =
          some (.ok reply, s') → s'.db.xattrs.get? (toLex (st.ino, name)) = some buf := by
  refine ⟨fun _ _ _ r hfit => serve_ne_panic hfit, fun name buf hx => ?_⟩
  obtain ⟨his, hlen⟩ := h.is hx
  refine ⟨hlen, his, fun rate policy answer st' hs => ?_, fun v fuel env s s' reply =>
    setxattr_stored⟩
  unfold serve at hs
  rw [hx] at hs
  cases rate with
  | error e => cases hs
  | ok u => exact (told_eq_ok hs).2

def freshFid : FidState := ⟨2, 0, 0, none, none, none⟩

def collecting : FidState := { freshFid with xattr := some (.write [97] []) }

/-- The volume refuses everything. -/
def refusing : Op → Except FsError Reply := fun _ => .error .io

theorem xattr_stored_as_written_short : ∃ a,
    Reached { freshFid with xattr := some (.write [97] [0, 7]) } a ∧ a.Is [0, 7] := by
  have h : Reached collecting .empty := .step (.ok ()) .noatime refusing (.xattrcreate [97])
    (.start fun _ _ h => by cases h) trivial rfl
  have h' := Reached.step (.ok ()) .noatime refusing (.write 1 [7]) h (fun _ _ _ => by decide) rfl
  exact ⟨_, h', ((xattr_stored_as_written h').2 _ _ rfl).2.1⟩

/-- A write of two bytes at the last offset aborts the request. -/
theorem last_offset_panics :
    serve (.ok ()) .noatime refusing collecting (.write (-1) [1, 2]) = .error .panic := rfl

end SlateFs.P9
