import SlateFs.Core.Logic

/-!
# What an operation does whatever it reads

When tasks interleave, what an operation reads tells it little: others may have
changed it by the next step. What can still be said is in which order the operation
makes the calls that matter, with which arguments, and what it read under locks that
it still holds. A `Track` follows an operation through a small state of its own.

The calls that only look may move that state too, when what they find is worth
remembering. `Saw` says that no more than looking lies between two states, and `Heard`
that one of these looks was answered so. Where no lock is held nothing is remembered:
such states are `Quiet`, and looking leaves them as they are.
-/

namespace SlateFs

/-- Calls that only look. -/
def Call.isPlain : Call → Bool
  | .commit _ | .putNextIno _ | .attrsInsert _ _ | .attrsRemove _ | .insertNegative _ _
  | .removeNegative _ _ | .reserve _ _ | .release _ _ | .allocate | .handlesOpen _ _
  | .handlesClose _ | .handlesIsOpen _ => false
  | _ => true

/-- A state moved by an operation's own calls. -/
structure Track (Γ : Type) where
  /-- The answers to reckon with. -/
  can : (c : Call) → Γ → c.Ret → Prop
  /-- What is asked of a call so answered. -/
  ok : (c : Call) → Γ → c.Ret → Prop
  next : (c : Call) → Γ → c.Ret → Γ
  acq : Lock → Γ → Γ
  rel : Lock → Γ → Γ
  /-- Nothing is asked of a call that only looks. -/
  plain : ∀ c γ r, c.isPlain = true → ok c γ r

namespace Track

open FsM (wp wp_seq wp_if)

variable {Γ : Type} (τ : Track Γ)

def ghost : Prog.Ghost Call Call.Ret Lock Γ where
  ans c γ r γ' := τ.can c γ r ∧ γ' = τ.next c γ r
  ok c γ r _ := τ.ok c γ r
  acq := τ.acq
  rel := τ.rel
  stuck := True

def acqAll (ls : List Lock) (γ : Γ) : Γ := ls.foldl (fun γ l => τ.acq l γ) γ

def relAll (ls : List Lock) (γ : Γ) : Γ := ls.foldl (fun γ l => τ.rel l γ) γ

/-- Only looking lies between the two states. -/
inductive Saw (γ : Γ) : Γ → Prop where
  | refl : Saw γ γ
  | look {γ' : Γ} {c : Call} {r : c.Ret} (h : Saw γ γ') (hc : c.isPlain = true)
      (hr : τ.can c γ' r) : Saw γ (τ.next c γ' r)

/-- A call was answered so, and only looking has happened since. -/
def Heard (γ : Γ) (c : Call) (r : c.Ret) : Prop :=
  ∃ γ₀, τ.can c γ₀ r ∧ τ.Saw (τ.next c γ₀ r) γ

/-- A record was read, and only looking has happened since. -/
def Knows (γ : Γ) (k : Key) (o : Option k.Val) : Prop := τ.Heard γ (.get k) (Except.ok o)

/-- Nothing is remembered here: looking moves nothing, and locks come and go. -/
structure Quiet (γ : Γ) : Prop where
  still : ∀ γ', τ.Saw γ γ' → γ' = γ
  back : ∀ ls γ', τ.Saw (τ.acqAll ls γ) γ' → τ.relAll ls γ' = γ

/-- Whatever is seen from here, the operation may fail. -/
def Fails (E : Abort → Γ → Prop) (γ : Γ) : Prop := ∀ e γ', τ.Saw γ γ' → E e γ'

/-- The operation is where it began, and may fail. -/
structure AtRest (E : Abort → Γ → Prop) (γ : Γ) : Prop extends τ.Quiet γ where
  fails : ∀ e, E e γ

/-- A track that neither locks nor looks move. -/
def ofCalls (can ok : (c : Call) → Γ → c.Ret → Prop) (next : (c : Call) → Γ → c.Ret → Γ)
    (plain : ∀ c γ r, c.isPlain = true → ok c γ r ∧ next c γ r = γ) : Track Γ where
  can := can
  ok := ok
  next := next
  acq _ γ := γ
  rel _ γ := γ
  plain c γ r hc := (plain c γ r hc).1

section OfCalls

variable {can ok : (c : Call) → Γ → c.Ret → Prop} {next : (c : Call) → Γ → c.Ret → Γ}
  {plain : ∀ c γ r, c.isPlain = true → ok c γ r ∧ next c γ r = γ} {γ γ' : Γ}

lemma acqAll_ofCalls (ls : List Lock) (γ : Γ) : (ofCalls can ok next plain).acqAll ls γ = γ := by
  induction ls with
  | nil => rfl
  | cons l ls ih => exact ih

lemma relAll_ofCalls (ls : List Lock) (γ : Γ) : (ofCalls can ok next plain).relAll ls γ = γ := by
  induction ls with
  | nil => rfl
  | cons l ls ih => exact ih

lemma saw_ofCalls (h : (ofCalls can ok next plain).Saw γ γ') : γ' = γ := by
  induction h with
  | refl => rfl
  | look _ hc hr ih => exact ((plain _ _ _ hc).2).trans ih

lemma quiet_ofCalls (γ : Γ) : (ofCalls can ok next plain).Quiet γ where
  still _ h := saw_ofCalls h
  back ls γ' h := by rw [saw_ofCalls h, acqAll_ofCalls, relAll_ofCalls]

lemma can_of_heard {c : Call} {r : c.Ret} (hc : c.isPlain = true)
    (h : (ofCalls can ok next plain).Heard γ c r) : can c γ r := by
  obtain ⟨γ₀, hcan, hsaw⟩ := h
  obtain rfl : γ = γ₀ := (saw_ofCalls hsaw).trans (plain c γ₀ r hc).2
  exact hcan

end OfCalls

variable {τ} {α : Type} {γ γ' γ'' : Γ} {E : Abort → Γ → Prop}

lemma Saw.trans (h : τ.Saw γ γ') (h' : τ.Saw γ' γ'') : τ.Saw γ γ'' := by
  induction h' with
  | refl => exact h
  | look _ hc hr ih => exact .look ih hc hr

variable {c : Call}

lemma Heard.mono {r : c.Ret} (h : τ.Heard γ c r) (hs : τ.Saw γ γ') : τ.Heard γ' c r := by
  obtain ⟨γ₀, hcan, hsaw⟩ := h
  exact ⟨γ₀, hcan, hsaw.trans hs⟩

lemma Knows.mono {k : Key} {o : Option k.Val} (h : τ.Knows γ k o) (hs : τ.Saw γ γ') :
    τ.Knows γ' k o := Heard.mono h hs

lemma Fails.here (h : τ.Fails E γ) (e : Abort) : E e γ := h e γ .refl

lemma Fails.mono (h : τ.Fails E γ) (hs : τ.Saw γ γ') : τ.Fails E γ' :=
  fun e γ'' h' => h e γ'' (hs.trans h')

lemma AtRest.toFails (h : τ.AtRest E γ) : τ.Fails E γ := by
  intro e γ' hs
  rw [h.still γ' hs]
  exact h.fails e

/-! ## Calls -/

lemma wp_call (c : Call) {Q : c.Ret → Γ → Prop} :
    wp τ.ghost Q E (FsM.call c) γ ↔ ∀ r, τ.can c γ r → τ.ok c γ r ∧ Q r (τ.next c γ r) := by
  exact ⟨fun h r hc => h r _ ⟨hc, rfl⟩, fun h r γ' hc => hc.2 ▸ h r hc.1⟩

lemma wp_then {β : Type} {f : c.Ret → FsM β} {Q : β → Γ → Prop}
    (hf : ∀ r, τ.can c γ r → τ.ok c γ r ∧ wp τ.ghost Q E (f r) (τ.next c γ r)) :
    wp τ.ghost Q E (FsM.call c >>= f) γ := by
  exact wp_seq ((wp_call c).mpr hf)

@[simp] lemma wp_withGuards (ls : List Lock) (p : FsM α) {Q : α → Γ → Prop} :
    wp τ.ghost Q E (FsM.withGuards ls p) γ ↔
      wp τ.ghost (fun a γ' => Q a (τ.relAll ls γ')) (fun e γ' => E e (τ.relAll ls γ')) p
        (τ.acqAll ls γ) := FsM.wp_guarded ls p

lemma wp_ofExcept (hE : ∀ e, E e γ) {x : Except FsError α} {Q : α → Γ → Prop}
    (hQ : ∀ a, x = .ok a → Q a γ) : wp τ.ghost Q E (FsM.ofExcept x) γ :=
  (FsM.wp_ofExcept x).mpr ⟨hQ, fun _ _ => hE _⟩

lemma wp_mapped (hE : ∀ e, E e γ) {β : Type} {Q : β → Γ → Prop} {x : Except StorageError β}
    (hQ : ∀ b, x = .ok b → Q b γ) : wp τ.ghost Q E (FsM.mapStorage x) γ := by
  cases x with
  | ok b => exact hQ b rfl
  | error e => exact hE _

lemma wp_chunkOf (hE : ∀ e, E e γ) (offset cs : Nat) {Q : Nat → Γ → Prop} (hQ : ∀ n, Q n γ) :
    wp τ.ghost Q E (chunkOf offset cs) γ := by
  exact wp_if (fun _ => hE _) fun _ => hQ _

/-- A body under locks, with the error condition it has there. -/
lemma wp_locked (hE : τ.AtRest E γ) {ls : List Lock} {p : FsM α} {Q : α → Γ → Prop}
    (hp : ∀ E' : Abort → Γ → Prop, (E' = fun e γ' => E e (τ.relAll ls γ')) →
      τ.Fails E' (τ.acqAll ls γ) →
      wp τ.ghost (fun a γ' => Q a (τ.relAll ls γ')) E' p (τ.acqAll ls γ)) :
    wp τ.ghost Q E (FsM.withGuards ls p) γ := by
  rw [wp_withGuards]
  refine hp _ rfl fun e γ' hs => ?_
  rw [hE.back ls γ' hs]
  exact hE.fails e

/-! ## Looking

A look may find anything, or fail. What it found is known from there on, until the
operation does more than looking. -/

lemma see {Q : c.Ret → Γ → Prop} (hc : c.isPlain = true)
    (hQ : ∀ r γ', τ.Saw γ γ' → τ.Heard γ' c r → Q r γ') : wp τ.ghost Q E (FsM.call c) γ := by
  refine (wp_call c).mpr fun r hr => ⟨τ.plain c γ r hc, ?_⟩
  exact hQ r _ (.look .refl hc hr) ⟨γ, hr, .refl⟩

lemma see_then {β : Type} {f : c.Ret → FsM β} (hc : c.isPlain = true) {Q : β → Γ → Prop}
    (hf : ∀ r γ', τ.Saw γ γ' → τ.Heard γ' c r → wp τ.ghost Q E (f r) γ') :
    wp τ.ghost Q E (FsM.call c >>= f) γ := by
  exact wp_seq (see hc hf)

lemma see_now {Q : Timespec → Γ → Prop} (hQ : ∀ ts γ', τ.Saw γ γ' → Q ts γ') :
    wp τ.ghost Q E now γ := see rfl fun ts γ' hs _ => hQ ts γ' hs

section See

variable (hE : τ.Fails E γ)
include hE

lemma see_dbGet (k : Key) {Q : Option k.Val → Γ → Prop}
    (hQ : ∀ o γ', τ.Saw γ γ' → τ.Knows γ' k o → Q o γ') : wp τ.ghost Q E (dbGet k) γ :=
  see_then rfl fun _ γ' hs hr =>
    wp_mapped (hE.mono hs).here fun _ hb => hQ _ γ' hs (by subst hb; exact hr)

lemma see_scanDirents (p : Ino) {Q : List (Bytes × Dirent) → Γ → Prop}
    (hQ : ∀ o γ', τ.Saw γ γ' → τ.Heard γ' (.scanDirents p) (Except.ok o) → Q o γ') :
    wp τ.ghost Q E (scanDirents p) γ :=
  see_then rfl fun _ γ' hs hr =>
    wp_mapped (hE.mono hs).here fun _ hb => hQ _ γ' hs (hb ▸ hr)

lemma see_scanChunks (ino : Ino) (first : Nat) {Q : List (Nat × Bytes) → Γ → Prop}
    (hQ : ∀ o γ', τ.Saw γ γ' → Q o γ') : wp τ.ghost Q E (scanChunks ino first) γ :=
  see_then rfl fun _ γ' hs _ =>
    wp_mapped (hE.mono hs).here fun _ _ => hQ _ γ' hs

lemma see_scanXattrs (ino : Ino) {Q : List (Bytes × Bytes) → Γ → Prop}
    (hQ : ∀ o γ', τ.Saw γ γ' → τ.Heard γ' (.scanXattrs ino) (Except.ok o) → Q o γ') :
    wp τ.ghost Q E (scanXattrs ino) γ :=
  see_then rfl fun _ γ' hs hr =>
    wp_mapped (hE.mono hs).here fun _ hb => hQ _ γ' hs (hb ▸ hr)

variable {Q : Inode → Γ → Prop}

lemma see_loadInode (ino : Ino)
    (hQ : ∀ i γ', τ.Saw γ γ' → τ.Knows γ' (.inode ino) (some i) → Q i γ') :
    wp τ.ghost Q E (loadInode ino) γ := by
  refine wp_seq (see_dbGet hE _ fun o γ' hs ho => ?_)
  cases o with
  | some i => exact hQ i γ' hs ho
  | none => exact hE _ γ' hs

lemma see_loadDir (ino : Ino)
    (hQ : ∀ i γ', τ.Saw γ γ' → i.kind.isDir = true → τ.Knows γ' (.inode ino) (some i) → Q i γ') :
    wp τ.ghost Q E (loadDir ino) γ := by
  refine wp_seq (see_loadInode hE ino fun i γ' hs hi => ?_)
  exact wp_if (fun hdir => hQ i γ' hs hdir hi) fun _ => hE _ γ' hs

lemma see_direntOf (v : Volume) (p : Ino) (n : Bytes) {Q : Option Dirent → Γ → Prop}
    (hQ : ∀ o γ', τ.Saw γ γ' → τ.Knows γ' (.dirent p (v.names.sealName p n)) o → Q o γ') :
    wp τ.ghost Q E (direntOf v p n) γ := see_dbGet hE _ hQ

/-- A failure that is reported as another one. -/
lemma see_mapErr (e : FsError) {p : FsM α} {Q : α → Γ → Prop}
    (hp : wp τ.ghost Q (fun _ γ' => τ.Saw γ γ') p γ) : wp τ.ghost Q E (FsM.mapErr e p) γ := by
  rw [FsM.wp_mapErr]
  refine FsM.wp_conseq hp (fun _ _ h => h) ?_
  intro a γ' hs
  cases a <;> exact hE _ γ' hs

lemma see_loadMapped (e : FsError) (ino : Ino)
    (hQ : ∀ i γ', τ.Saw γ γ' → τ.Knows γ' (.inode ino) (some i) → Q i γ') :
    wp τ.ghost Q E (FsM.mapErr e (loadInode ino)) γ :=
  see_mapErr hE e (see_loadInode (fun _ _ h => h) ino hQ)

end See

/-! ## Looking where nothing is remembered -/

lemma wp_plain (hq : τ.Quiet γ) (hc : c.isPlain = true) {Q : c.Ret → Γ → Prop}
    (hQ : ∀ r, τ.Heard γ c r → Q r γ) : wp τ.ghost Q E (FsM.call c) γ := by
  refine see hc fun r γ' hs hr => ?_
  obtain rfl := hq.still γ' hs
  exact hQ r hr

lemma wp_reads (hq : τ.Quiet γ) {β : Type} {f : c.Ret → FsM β} (hc : c.isPlain = true)
    {Q : β → Γ → Prop} (hf : ∀ r, τ.Heard γ c r → wp τ.ghost Q E (f r) γ) :
    wp τ.ghost Q E (FsM.call c >>= f) γ := by
  exact wp_seq (wp_plain hq hc hf)

section Reads

variable (hE : τ.AtRest E γ)
include hE

lemma wp_dbGet (k : Key) {Q : Option k.Val → Γ → Prop} (hQ : ∀ o, τ.Knows γ k o → Q o γ) :
    wp τ.ghost Q E (dbGet k) γ :=
  wp_reads hE.toQuiet rfl fun _ hr =>
    wp_mapped hE.fails fun _ hb => hQ _ (by subst hb; exact hr)

lemma wp_scanXattrs (ino : Ino) {Q : List (Bytes × Bytes) → Γ → Prop} (hQ : ∀ o, Q o γ) :
    wp τ.ghost Q E (scanXattrs ino) γ :=
  wp_reads hE.toQuiet rfl fun _ _ =>
    wp_mapped hE.fails fun _ _ => hQ _

lemma wp_scanDirentIdxs (p : Ino) (first : Nat) {Q : List (Nat × DirentIdx) → Γ → Prop}
    (hQ : ∀ o, Q o γ) : wp τ.ghost Q E (scanDirentIdxs p first) γ :=
  wp_reads hE.toQuiet rfl fun _ _ =>
    wp_mapped hE.fails fun _ _ => hQ _

lemma wp_snapshot {Q : Db → Γ → Prop} (hQ : ∀ o, Q o γ) : wp τ.ghost Q E snapshot γ :=
  wp_reads hE.toQuiet rfl fun _ _ =>
    wp_mapped hE.fails fun _ _ => hQ _

lemma wp_flush {Q : Unit → Γ → Prop} (hQ : Q () γ) : wp τ.ghost Q E flush γ :=
  wp_reads hE.toQuiet rfl fun _ _ =>
    wp_mapped hE.fails fun _ _ => hQ

lemma wp_checkNotOver {Q : Unit → Γ → Prop} (hQ : Q () γ) : wp τ.ghost Q E checkNotOver γ :=
  wp_reads hE.toQuiet rfl fun _ _ =>
    wp_ofExcept hE.fails fun _ _ => hQ

variable {Q : Inode → Γ → Prop}

lemma wp_loadInode (ino : Ino) (hQ : ∀ i, τ.Knows γ (.inode ino) (some i) → Q i γ) :
    wp τ.ghost Q E (loadInode ino) γ := by
  refine see_loadInode hE.toFails ino fun i γ' hs hi => ?_
  obtain rfl := hE.still γ' hs
  exact hQ i hi

lemma wp_direntOf (v : Volume) (p : Ino) (n : Bytes) {Q : Option Dirent → Γ → Prop}
    (hQ : ∀ o, Q o γ) : wp τ.ghost Q E (direntOf v p n) γ := wp_dbGet hE _ fun o _ => hQ o

lemma wp_mapErr (e : FsError) {p : FsM α} {Q : α → Γ → Prop}
    (hp : wp τ.ghost Q (fun _ γ' => γ' = γ) p γ) : wp τ.ghost Q E (FsM.mapErr e p) γ := by
  refine see_mapErr hE.toFails e (FsM.wp_conseq hp (fun _ _ h => h) ?_)
  rintro _ _ rfl
  exact .refl

end Reads

section Quiet

variable (hq : τ.Quiet γ)
include hq

lemma wp_now {Q : Timespec → Γ → Prop} (hQ : ∀ ts, Q ts γ) : wp τ.ghost Q E now γ :=
  wp_plain hq rfl fun ts _ => hQ ts

lemma wp_handlesGet (h : Nat) {Q : Option (Ino × OpenMode) → Γ → Prop} (hQ : ∀ r, Q r γ) :
    wp τ.ghost Q E (handlesGet h) γ := wp_plain hq rfl fun r _ => hQ r

lemma wp_attrsGet (ino : Ino) {Q : Option Inode → Γ → Prop} (hQ : ∀ r, Q r γ) :
    wp τ.ghost Q E (attrsGet ino) γ := wp_plain hq rfl fun r _ => hQ r

lemma wp_isNegative (p : Ino) (n : Bytes) {Q : Bool → Γ → Prop} (hQ : ∀ r, Q r γ) :
    wp τ.ghost Q E (isNegative p n) γ := wp_plain hq rfl fun r _ => hQ r

lemma wp_unlockOwner (o : Nat) {Q : Unit → Γ → Prop} (hQ : Q () γ) :
    wp τ.ghost Q E (unlockOwner o) γ := wp_plain hq rfl fun _ _ => hQ

end Quiet

end Track

end SlateFs
