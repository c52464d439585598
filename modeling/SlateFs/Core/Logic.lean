import SlateFs.Core.Mount

/-!
# Reasoning about an operation

`FsM.wp g Q E p s` says: every call of the operation `p` is as `g` asks, and `p` ends
in `Q` if it returns a value and in `E` if it aborts. Each building block of an
operation has one rule here. The rules are equivalences, so rewriting with them turns
a statement about a program into one about what it reads.

For an operation that runs alone the state to keep track of is the database
(`Oracle.steps`): storage calls are answered by it, and calls on memory are answered
in any way an `Oracle` allows.
-/

namespace SlateFs

/-! ## The database as the state -/

/-- How a storage call is answered by the database when nothing fails. -/
def Call.stored : (c : Call) → Db → Option (c.Ret × Db)
  | .get k, db => some (.ok (db.get k), db)
  | .scanDirents p, db => some (.ok (db.direntsOf p), db)
  | .scanChunks ino first, db => some (.ok (db.chunksFrom ino first), db)
  | .scanXattrs ino, db => some (.ok (db.xattrsOf ino), db)
  | .scanDirentIdxs p first, db => some (.ok (db.direntIdxsFrom p first), db)
  | .scanOrphans, db => some (.ok db.orphansOf, db)
  | .snapshot, db => some (.ok db, db)
  | .commit b, db => some (.ok (), db.apply b)
  | .putNextIno e, db => some (.ok (), { db with nextIno := e })
  | .flush, db => some (.ok (), db)
  | _, _ => none

/-- What the memory of a volume may answer while the database is as given. -/
structure Oracle where
  /-- Numbers that may be handed out. -/
  number : Db → Ino → Prop
  /-- Whether a node may be found open. -/
  isOpen : Db → Ino → Bool → Prop
  /-- How a reservation may be answered. -/
  reserve : Int64 → Int64 → Except FsError Unit → Prop
  /-- What the attribute cache may hold. -/
  cached : Db → Ino → Option Inode → Prop

/-- The answers an oracle allows. -/
def Oracle.allows (M : Oracle) (db : Db) : (c : Call) → c.Ret → Prop
  | .allocate, r => M.number db r.1
  | .handlesIsOpen ino, r => M.isOpen db ino r
  | .reserve b i, r => M.reserve b i r
  | .attrsGet ino, r => M.cached db ino r
  | _, _ => True

/-- The database answers storage calls and an oracle the others. -/
def Call.acts (M : Oracle) (c : Call) (db : Db) (r : c.Ret) (db' : Db) : Prop :=
  match c.stored db with
  | some (r₀, db₀) => r = r₀ ∧ db' = db₀
  | none => M.allows db c r ∧ db' = db

/-- Keeping track of the database, which may change by steps of `T`. -/
def Oracle.watch (M : Oracle) (T : Db → Db → Prop) (mayStick : Prop) :
    Prog.Ghost Call Call.Ret Lock Db where
  ans := Call.acts M
  ok _ db _ db' := db' = db ∨ T db db'
  acq _ db := db
  rel _ db := db
  stuck := mayStick

/-- The same when a loop may use up its fuel. -/
abbrev Oracle.steps (M : Oracle) (T : Db → Db → Prop) : Prog.Ghost Call Call.Ret Lock Db :=
  M.watch T True

variable {env : Env}

/-- A run on the whole state is one on the database. -/
lemma Call.acts_answer {M : Oracle} (c : Call) (s : St)
    (h : c.stored s.db = none → M.allows s.db c (c.answer env s).1) :
    c.acts M s.db (c.answer env s).1 (c.answer env s).2.db := by
  cases c
  case attrsGet ino =>
    refine ⟨h rfl, ?_⟩
    simp only [answer]
    split <;> rfl
  case isNegative p n =>
    refine ⟨h rfl, ?_⟩
    simp only [answer]
    split <;> rfl
  all_goals first | exact ⟨rfl, rfl⟩ | exact ⟨h rfl, rfl⟩

/-! ## A volume without limits -/

/-- Every reservation is granted; other answers are free. -/
def Oracle.granting : Oracle where
  number _ _ := True
  isOpen _ _ _ := True
  reserve _ _ r := r = .ok ()
  cached _ _ _ := True

lemma answer_limits (c : Call) (s : St) :
    (c.answer env s).2.mem.quota.limits = s.mem.quota.limits := by
  cases c
  case reserve b i =>
    show (s.mem.quota.reserve b i _).2.limits = _
    unfold QuotaTracker.reserve
    dsimp only
    split
    · rfl
    · split <;> rfl
  case checkNotOver =>
    show (s.mem.quota.checkNotOver _).2.limits = _
    unfold QuotaTracker.checkNotOver
    split <;> rfl
  case attrsGet => simp only [Call.answer]; split <;> rfl
  case isNegative => simp only [Call.answer]; split <;> rfl
  all_goals rfl

lemma acts_granting (c : Call) {s : St} (h : s.mem.quota.limits = {}) :
    c.acts .granting s.db (c.answer env s).1 (c.answer env s).2.db := by
  refine Call.acts_answer c s ?_
  cases c
  case reserve b i =>
    intro _
    show (s.mem.quota.reserve b i _).1 = .ok ()
    simp [QuotaTracker.reserve, h, exceedsLimit]
  all_goals exact fun _ => trivial

namespace FsM

variable {α β : Type}

/-- A postcondition for both ways to end. -/
def Post {S : Type} (Q : α → S → Prop) (E : Abort → S → Prop) : Except Abort α → S → Prop
  | .ok a, s => Q a s
  | .error e, s => E e s

/-- Every call of `p` is as `g` asks, and `p` ends in `Q` or `E`. -/
def wp {S : Type} (g : Prog.Ghost Call Call.Ret Lock S) (Q : α → S → Prop)
    (E : Abort → S → Prop) (p : FsM α) (s : S) : Prop :=
  Prog.wp g (Post Q E) p.run s

section Control

variable {S : Type} {g : Prog.Ghost Call Call.Ret Lock S} {Q : α → S → Prop}
  {E : Abort → S → Prop} {s : S}

/-! ## Control -/

@[simp] lemma wp_pure (a : α) : wp g Q E (pure a) s ↔ Q a s := Iff.rfl

@[simp] lemma wp_bind (p : FsM β) (f : β → FsM α) :
    wp g Q E (p >>= f) s ↔ wp g (fun b s' => wp g Q E (f b) s') E p s := by
  unfold wp
  rw [ExceptT.run_bind, Prog.wp_bind]
  refine iff_of_eq (congrArg (fun R => Prog.wp _ R _ _) ?_)
  funext r s'
  cases r <;> rfl

lemma wp_seq {p : FsM β} {f : β → FsM α} (h : wp g (fun b s' => wp g Q E (f b) s') E p s) :
    wp g Q E (p >>= f) s := (wp_bind p f).mpr h

@[simp] lemma wp_map (f : β → α) (p : FsM β) :
    wp g Q E (f <$> p) s ↔ wp g (fun b s' => Q (f b) s') E p s :=
  wp_bind p (fun b => pure (f b))

@[simp] lemma wp_fail (e : FsError) : wp g Q E (fail e) s ↔ E (.err e) s := Iff.rfl

@[simp] lemma wp_panicked : wp g Q E panicked s ↔ E .panic s := Iff.rfl

@[simp] lemma wp_stuck : wp g Q E stuck s ↔ g.stuck := Iff.rfl

@[simp] lemma wp_ite (c : Prop) [Decidable c] (p q : FsM α) :
    wp g Q E (if c then p else q) s ↔ (c → wp g Q E p s) ∧ (¬c → wp g Q E q s) := by
  split <;> simp [*]

lemma wp_if {c : Prop} [Decidable c] {p q : FsM α} (hp : c → wp g Q E p s)
    (hq : ¬c → wp g Q E q s) : wp g Q E (if c then p else q) s := (wp_ite c p q).mpr ⟨hp, hq⟩

lemma wp_ofExcept (x : Except FsError α) :
    wp g Q E (ofExcept x) s ↔ (∀ a, x = .ok a → Q a s) ∧ (∀ e, x = .error e → E (.err e) s) := by
  cases x <;> simp [ofExcept]

@[simp] lemma wp_mapErr (e : FsError) (p : FsM α) :
    wp g Q E (mapErr e p) s ↔
      wp g Q (fun a s' => match a with | .err _ => E (.err e) s' | .panic => E .panic s') p s := by
  unfold wp mapErr
  rw [ExceptT.run_mk, Prog.wp_bind]
  refine iff_of_eq (congrArg (fun R => Prog.wp _ R _ _) ?_)
  funext r s'
  match r with
  | .ok a => rfl
  | .error (.err e) => rfl
  | .error .panic => rfl

variable {R : Unit → S → Prop}

lemma wp_acquireAll (ls : List Lock) :
    Prog.wp g R (acquireAll ls) s ↔ R () (ls.foldl (fun s l => g.acq l s) s) := by
  induction ls generalizing s with
  | nil => rfl
  | cons l ls ih => exact ih

lemma wp_releaseAll (ls : List Lock) :
    Prog.wp g R (releaseAll ls) s ↔ R () (ls.foldl (fun s l => g.rel l s) s) := by
  induction ls generalizing s with
  | nil => rfl
  | cons l ls ih => exact ih

/-- A guarded section is its body, between taking the locks and dropping them. -/
lemma wp_guarded (ls : List Lock) (p : FsM α) :
    wp g Q E (withGuards ls p) s ↔
      wp g (fun a s' => Q a (ls.foldl (fun s l => g.rel l s) s'))
        (fun e s' => E e (ls.foldl (fun s l => g.rel l s) s')) p
        (ls.foldl (fun s l => g.acq l s) s) := by
  unfold wp withGuards
  rw [ExceptT.run_mk, Prog.wp_bind, wp_acquireAll, Prog.wp_bind]
  refine iff_of_eq (congrArg (fun R => Prog.wp _ R _ _) ?_)
  funext r s'
  rw [Prog.wp_bind, wp_releaseAll]
  cases r <;> rfl

lemma wp_call (c : Call) {Q : c.Ret → S → Prop} :
    wp g Q E (call c) s ↔ ∀ r s', g.ans c s r s' → g.ok c s r s' ∧ Q r s' := Iff.rfl

lemma wp_conseq {P : α → S → Prop} {D : Abort → S → Prop} {p : FsM α} (hw : wp g P D p s)
    (hQ : ∀ a s, P a s → Q a s) (hE : ∀ e s, D e s → E e s) : wp g Q E p s := by
  refine Prog.wp_mono hw (fun _ _ _ _ h => h) ?_
  intro r s' h
  cases r with
  | ok a => exact hQ a s' h
  | error e => exact hE e s' h

end Control

/-- A call on a volume without limits returns as a weakest precondition promises. -/
lemma granting_returns (env : Env) {T : Db → Db → Prop} {Q : α → Db → Prop}
    {E : Abort → Db → Prop} {p : FsM α} {s : St}
    (hw : wp (Oracle.granting.watch T False) Q E p s.db) (hl : s.mem.quota.limits = {}) :
    ∃ r s', p.run.run (Call.answer env) s = some (r, s') ∧ s'.mem.quota.limits = {} ∧
      Post Q E r s'.db := by
  have hsim : Prog.Simulates (Call.answer env) (Oracle.granting.watch T False)
      fun (s : St) db => s.db = db ∧ s.mem.quota.limits = {} := by
    refine ⟨?_, fun _ _ _ h => h, fun _ _ _ h => h⟩
    rintro c s _ ⟨rfl, hl⟩
    exact ⟨_, acts_granting c hl, fun _ => ⟨rfl, (answer_limits c s).trans hl⟩⟩
  obtain ⟨r, s', _, hr, ⟨rfl, hl'⟩, hpost⟩ :=
    (Prog.wp_ends hsim ⟨rfl, hl⟩ hw).resolve_left fun h => h.2
  exact ⟨r, s', hr, hl', hpost⟩

section Rules

variable {M : Oracle} {T : Db → Db → Prop} {z : Prop} {E : Abort → Db → Prop} {db : Db}

lemma wp_mono {α : Type} {T' : Db → Db → Prop} {P Q : α → Db → Prop} {D E : Abort → Db → Prop}
    {p : FsM α} (hw : wp (M.watch T z) P D p db) (hT : ∀ s s', T s s' → T' s s')
    (hQ : ∀ a s, P a s → Q a s) (hE : ∀ e s, D e s → E e s) : wp (M.watch T' z) Q E p db := by
  refine wp_conseq ?_ hQ hE
  exact Prog.wp_mono hw (fun _ _ _ _ h => h.imp_right (hT _ _)) (fun _ _ h => h)

/-- Alone, a guarded section is its body. -/
@[simp] lemma wp_withGuards {α : Type} {Q : α → Db → Prop} (ls : List Lock) (p : FsM α) :
    wp (M.watch T z) Q E (withGuards ls p) db ↔ wp (M.watch T z) Q E p db := by
  have hfold : ∀ db : Db, ls.foldl (fun db _ => db) db = db := by
    intro db
    induction ls with
    | nil => rfl
    | cons l ls ih => exact ih
  have hacq : ∀ db : Db, ls.foldl (fun db l => (M.watch T z).acq l db) db = db := hfold
  have hrel : ∀ db : Db, ls.foldl (fun db l => (M.watch T z).rel l db) db = db := hfold
  simp only [wp_guarded, hacq, hrel]

/-! ## Storage calls -/

variable {Q : Unit → Db → Prop} {c : Call} {r : c.Ret}

lemma wp_stored {db' : Db} (h : c.stored db = some (r, db')) {Q : c.Ret → Db → Prop} :
    wp (M.watch T z) Q E (call c) db ↔ (db' = db ∨ T db db') ∧ Q r db' := by
  simp only [wp_call, Oracle.watch, Call.acts, h]
  constructor
  · exact fun hw => hw _ _ ⟨rfl, rfl⟩
  · rintro hw _ _ ⟨rfl, rfl⟩
    exact hw

lemma wp_storage {β : Type} {f : c.Ret → FsM β} {b : β} {db' : Db}
    (h : c.stored db = some (r, db')) (hf : f r = pure b) {Q : β → Db → Prop} :
    wp (M.watch T z) Q E (call c >>= f) db ↔ (db' = db ∨ T db db') ∧ Q b db' := by
  rw [wp_bind, wp_stored h, hf, wp_pure]

lemma wp_read {β : Type} {f : c.Ret → FsM β} {b : β} (h : c.stored db = some (r, db))
    (hf : f r = pure b) {Q : β → Db → Prop} :
    wp (M.watch T z) Q E (call c >>= f) db ↔ Q b db := by
  rw [wp_storage h hf]
  exact and_iff_right (.inl rfl)

@[simp] lemma wp_dbGet (k : Key) {Q : Option k.Val → Db → Prop} :
    wp (M.watch T z) Q E (dbGet k) db ↔ Q (db.get k) db :=
  wp_read (c := .get k) (f := mapStorage) rfl rfl

@[simp] lemma wp_tryGet (k : Key) {Q : Except StorageError (Option k.Val) → Db → Prop} :
    wp (M.watch T z) Q E (tryGet k) db ↔ Q (.ok (db.get k)) db :=
  (wp_stored rfl).trans (and_iff_right (.inl rfl))

@[simp] lemma wp_commit (b : Batch) :
    wp (M.watch T z) Q E (commit b) db ↔
      (db.apply b = db ∨ T db (db.apply b)) ∧ Q () (db.apply b) :=
  wp_storage (c := .commit b) (f := mapStorage) rfl rfl

@[simp] lemma wp_tryCommit (b : Batch) {Q : Except StorageError Unit → Db → Prop} :
    wp (M.watch T z) Q E (tryCommit b) db ↔
      (db.apply b = db ∨ T db (db.apply b)) ∧ Q (.ok ()) (db.apply b) := wp_stored rfl

variable (p ino : Ino)

@[simp] lemma wp_scanDirents {Q : List (Bytes × Dirent) → Db → Prop} :
    wp (M.watch T z) Q E (scanDirents p) db ↔ Q (db.direntsOf p) db :=
  wp_read (c := .scanDirents p) (f := mapStorage) rfl rfl

@[simp] lemma wp_scanChunks (first : Nat) {Q : List (Nat × Bytes) → Db → Prop} :
    wp (M.watch T z) Q E (scanChunks ino first) db ↔ Q (db.chunksFrom ino first) db :=
  wp_read (c := .scanChunks ino first) (f := mapStorage) rfl rfl

@[simp] lemma wp_scanXattrs {Q : List (Bytes × Bytes) → Db → Prop} :
    wp (M.watch T z) Q E (scanXattrs ino) db ↔ Q (db.xattrsOf ino) db :=
  wp_read (c := .scanXattrs ino) (f := mapStorage) rfl rfl

@[simp] lemma wp_snapshot {Q : Db → Db → Prop} : wp (M.watch T z) Q E snapshot db ↔ Q db db :=
  wp_read (c := .snapshot) (f := mapStorage) rfl rfl

@[simp] lemma wp_putNextIno (e : Nat) :
    wp (M.watch T z) Q E (putNextIno e) db ↔
      ({ db with nextIno := e } = db ∨ T db { db with nextIno := e })
      ∧ Q () { db with nextIno := e } :=
  wp_storage (c := .putNextIno e) (f := mapStorage) rfl rfl

@[simp] lemma wp_flush : wp (M.watch T z) Q E flush db ↔ Q () db :=
  wp_read (c := .flush) (f := mapStorage) rfl rfl

/-! ## Calls on memory -/

lemma wp_memory (h : c.stored db = none) {Q : c.Ret → Db → Prop} :
    wp (M.watch T z) Q E (call c) db ↔ ∀ r, M.allows db c r → Q r db := by
  simp only [wp_call, Oracle.watch, Call.acts, h]
  constructor
  · exact fun hw r hr => (hw r db ⟨hr, rfl⟩).2
  · rintro hw r _ ⟨hr, rfl⟩
    exact ⟨.inl rfl, hw r hr⟩

lemma wp_any (h : c.stored db = none) (hM : ∀ r, M.allows db c r) {Q : c.Ret → Db → Prop} :
    wp (M.watch T z) Q E (call c) db ↔ ∀ r, Q r db :=
  (wp_memory h).trans ⟨fun hw r => hw r (hM r), fun hw r _ => hw r⟩

lemma forall_unit {P : Unit → Prop} : (∀ u, P u) ↔ P () := ⟨fun h => h (), fun h _ => h⟩

@[simp] lemma wp_now {Q : Timespec → Db → Prop} :
    wp (M.watch T z) Q E now db ↔ ∀ ts, Q ts db := wp_any (c := .now) rfl fun _ => trivial

lemma wp_allocate {Q : Ino × Option Nat → Db → Prop} :
    wp (M.watch T z) Q E allocate db ↔ ∀ n renew, M.number db n → Q (n, renew) db :=
  (wp_memory rfl).trans
    ⟨fun h n renew hn => h (n, renew) hn, fun h r hr => h r.1 r.2 hr⟩

lemma wp_handlesIsOpen {Q : Bool → Db → Prop} :
    wp (M.watch T z) Q E (handlesIsOpen ino) db ↔ ∀ b, M.isOpen db ino b → Q b db :=
  wp_memory rfl

lemma wp_reserve (b i : Int64) :
    wp (M.watch T z) Q E (reserve b i) db ↔ (M.reserve b i (.ok ()) → Q () db)
      ∧ ∀ e, M.reserve b i (.error e) → E (.err e) db := by
  unfold reserve
  rw [wp_bind, wp_memory rfl]
  constructor
  · exact fun h => ⟨h (.ok ()), fun e => h (.error e)⟩
  rintro ⟨hok, herr⟩ (e | u) hr
  · exact herr e hr
  · exact hok hr

lemma wp_reserveQuiet (b i : Int64) :
    wp (M.watch T z) Q E (reserveQuiet b i) db ↔ ∀ r, M.reserve b i r → Q () db := by
  unfold reserveQuiet
  rw [wp_bind]
  exact wp_memory rfl

@[simp] lemma wp_attrsInsert (i : Inode) :
    wp (M.watch T z) Q E (attrsInsert ino i) db ↔ Q () db :=
  (wp_any (c := .attrsInsert ino i) rfl fun _ => trivial).trans forall_unit

@[simp] lemma wp_attrsRemove : wp (M.watch T z) Q E (attrsRemove ino) db ↔ Q () db :=
  (wp_any (c := .attrsRemove ino) rfl fun _ => trivial).trans forall_unit

@[simp] lemma wp_insertNegative (n : Bytes) :
    wp (M.watch T z) Q E (insertNegative p n) db ↔ Q () db :=
  (wp_any (c := .insertNegative p n) rfl fun _ => trivial).trans forall_unit

@[simp] lemma wp_removeNegative (n : Bytes) :
    wp (M.watch T z) Q E (removeNegative p n) db ↔ Q () db :=
  (wp_any (c := .removeNegative p n) rfl fun _ => trivial).trans forall_unit

@[simp] lemma wp_handlesClose (h : Nat) {Q : Option (Ino × OpenMode × Bool) → Db → Prop} :
    wp (M.watch T z) Q E (handlesClose h) db ↔ ∀ r, Q r db :=
  wp_any (c := .handlesClose h) rfl fun _ => trivial

@[simp] lemma wp_unlockOwner (o : Nat) : wp (M.watch T z) Q E (unlockOwner o) db ↔ Q () db :=
  (wp_any (c := .unlockOwner o) rfl fun _ => trivial).trans forall_unit

/-! ## Loads -/

lemma wp_loadInode {Q : Inode → Db → Prop} :
    wp (M.watch T z) Q E (loadInode ino) db ↔
      (∀ i, db.inodes.get? ino = some i → Q i db)
      ∧ (db.inodes.get? ino = none → E (.err .stale) db) := by
  simp only [loadInode, wp_bind, wp_dbGet, Db.get]
  cases h : db.inodes.get? ino <;> simp

lemma wp_loadDir {Q : Inode → Db → Prop} :
    wp (M.watch T z) Q E (loadDir ino) db ↔
      (∀ i, db.inodes.get? ino = some i → i.kind = .dir → Q i db)
      ∧ (∀ i, db.inodes.get? ino = some i → i.kind ≠ .dir → E (.err .notDir) db)
      ∧ (db.inodes.get? ino = none → E (.err .stale) db) := by
  have hk : ∀ k : FileKind, k.isDir = true ↔ k = .dir := by intro k; cases k <;> decide
  simp only [loadDir, wp_bind, wp_loadInode, wp_ite, wp_pure, wp_fail, hk]
  cases h : db.inodes.get? ino <;> simp

lemma wp_direntOf (v : Volume) (p : Ino) (n : Bytes) {Q : Option Dirent → Db → Prop} :
    wp (M.watch T z) Q E (direntOf v p n) db ↔
      Q (db.dirents.get? (toLex (p, v.names.sealName p n))) db := wp_dbGet _

end Rules

end FsM

end SlateFs
