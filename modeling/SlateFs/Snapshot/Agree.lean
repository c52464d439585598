import SlateFs.Snapshot.Reads

/-!
# Where a snapshot answers as the live volume

Both volumes answer from the same records. They differ in what they ask of the caller
who looks a name up (the live volume asks for search permission, the snapshot for read
permission), in what they tell about permissions, and in two corners: an entry whose node
is gone, and an empty read from a volume with a chunk size of zero.
-/

namespace SlateFs

open FsM

section Answers

variable {v : Volume} {env : Env} {db : Db} {creds : Credentials}

/-! ## The other requests -/

/-- Whether the caller may change the entry. -/
def foundParent (db : Db) (creds : Credentials) (i : Inode) :
    Option (Ino × Bytes) → Except Abort Bool
  | some (parentIno, name) => do
      (validateName name).mapError .err
      let dir ← foundInode db parentIno
      .ok (isOk (access creds dir (ACCESS_W ||| ACCESS_X)) && isOk (checkSticky creds dir i))
  | none => .ok false

/-- The bits of an entry as the live volume computes them. -/
def foundPermissions (db : Db) (creds : Credentials) (ino : Ino) (parent : Option (Ino × Bytes)) :
    Except Abort EntryPermissions := do
  let i ← foundInode db ino
  let m ← foundParent db creds i parent
  .ok ⟨isOk (access creds i ACCESS_R), isOk (access creds i ACCESS_W), m, m⟩

lemma Reads.livePermissions (ino : Ino) (parent : Option (Ino × Bytes)) :
    Reads v env db (SlateFs.permissions creds ino parent)
      (foundPermissions db creds ino parent) := by
  refine (loadInode ino).bind fun i _ => ?_
  rcases parent with _ | ⟨parentIno, name⟩
  · exact pure _
  -- the program goes on where the entry has been looked at
  rw [foundParent, bind_assoc]
  refine (ofExcept _).bind fun _ _ => ?_
  rw [bind_assoc]
  exact (loadInode parentIno).bind fun dir _ => pure _

lemma Reads.snapshotPermissions (ino : Ino) :
    Reads v env db (SnapshotVolume.permissions ino)
      (foundInode db ino >>= fun _ => .ok ⟨true, false, false, false⟩) := by
  have hattr : Reads v env db (SnapshotVolume.getattr ino)
      (foundInode db ino >>= fun i => .ok (makeAttr ino i)) :=
    (loadInode ino).bind fun i _ => pure _
  have hall := hattr.bind (y := fun _ => .ok (⟨true, false, false, false⟩ : EntryPermissions))
    fun _ _ => pure _
  rw [bind_assoc] at hall
  exact hall

/-- One page of a directory. -/
def foundPage (v : Volume) (db : Db) (creds : Credentials) (parent : Ino)
    (cookie maxEntries : Nat) : Except Abort (List DirEntry × Bool) := do
  let dir ← foundDir db parent
  (access creds dir ACCESS_R).mapError .err
  let kvs := (db.direntIdxsFrom parent (nextCookie cookie)).filter (fun kv => kv.1 < 2 ^ 64 - 1)
  let entries ← (openEntries v parent (kvs.take maxEntries)).mapError .err
  .ok (entries, decide (kvs.length ≤ maxEntries))

lemma Reads.liveReaddir (p : Ino) (cookie maxEntries : Nat) :
    Reads v env db (SlateFs.readdir v creds p cookie maxEntries)
      (foundPage v db creds p cookie maxEntries) :=
  (loadDirCached p).bind fun _ _ => (ofExcept _).bind fun _ _ =>
    (scanDirentIdxs p _).next ((ofExcept _).bind fun _ _ => pure _)

lemma Reads.snapshotReaddir (p : Ino) (cookie maxEntries : Nat) :
    Reads v env db (SnapshotVolume.readdir v creds p cookie maxEntries)
      (foundPage v db creds p cookie maxEntries) :=
  (loadDir p).bind fun _ _ => (ofExcept _).bind fun _ _ =>
    (scanDirentIdxs p _).next ((ofExcept _).bind fun _ _ => pure _)

/-- A program that reads the store and nothing else returns one thing for each store. -/
def Plain {α : Type} (p : FsM α) : Prop :=
  ∀ db, ∃ x, ∀ v env, Reads v env db p x

/-- The target of a link. -/
def foundLink (db : Db) (ino : Ino) : Except Abort Bytes := do
  let i ← foundInode db ino
  if i.kind ≠ .symlink then .error (.err .invalid)
  else (db.get (.symlink ino)).elim (.error (.err .io)) .ok

lemma Reads.readlink (ino : Ino) : Reads v env db (SlateFs.readlink ino) (foundLink db ino) := by
  refine (Reads.loadInode ino).bind fun i _ => ?_
  split
  · exact Reads.fail _
  refine (Reads.dbGet (.symlink ino)).next ?_
  cases db.get (.symlink ino) with
  | none => exact Reads.fail _
  | some t => exact Reads.pure t

lemma plain_readlink (ino : Ino) : Plain (SlateFs.readlink ino) :=
  fun _ => ⟨_, fun _ _ => Reads.readlink ino⟩

lemma plain_getxattr (creds : Credentials) (ino : Ino) (name : Bytes) :
    Plain (SlateFs.getxattr creds ino name) := by
  intro db
  refine ⟨if name = [] ∨ MAX_NAME_LEN < name.length then .error (.err .invalid)
    else foundInode db ino >>= fun i => (access creds i ACCESS_R).mapError .err >>= fun _ =>
      (db.get (.xattr ino name)).elim (.error (.err .noData)) .ok, ?_⟩
  intro v env
  unfold SlateFs.getxattr
  split
  · exact Reads.fail _
  refine (Reads.loadInode ino).bind fun i _ => (Reads.ofExcept _).bind fun _ _ =>
    (Reads.dbGet (.xattr ino name)).next ?_
  cases db.get (.xattr ino name) with
  | none => exact Reads.fail _
  | some x => exact Reads.pure x

lemma plain_listxattr (creds : Credentials) (ino : Ino) : Plain (SlateFs.listxattr creds ino) := by
  intro db
  refine ⟨foundInode db ino >>= fun i => (access creds i ACCESS_R).mapError .err >>= fun _ =>
    .ok ((db.xattrsOf ino).map Prod.fst), fun v env => ?_⟩
  exact (Reads.loadInode ino).bind fun i _ => (Reads.ofExcept _).bind fun _ _ =>
    (Reads.scanXattrs ino).next (Reads.pure _)

end Answers

/-! ## When the answers are the same -/

/-- The condition on a request and the store. -/
def ReadRequest.Faithful (v : Volume) (db : Db) (creds : Credentials) : ReadRequest → Prop
  | .lookup parent name => ∀ dir, db.get (.inode parent) = some dir → dir.kind.isDir = true →
      -- search and read permission go together, and the entry's node is there
      isOk (access creds dir ACCESS_X) = isOk (access creds dir ACCESS_R) ∧
      (isOk (access creds dir ACCESS_R) = true → isOk (validateName name) = true →
        ∀ d, db.get (.dirent parent (v.names.sealName parent name)) = some d →
          (db.get (.inode d.childIno)).isSome)
  | .permissions ino parent => ∀ i, db.get (.inode ino) = some i →
      -- the node may be read, and the entry that is named could exist
      isOk (access creds i ACCESS_R) = true ∧ ∀ parentIno name, parent = some (parentIno, name) →
        isOk (validateName name) = true ∧ (db.get (.inode parentIno)).isSome
  | .read ino offset len => ∀ i, db.get (.inode ino) = some i → i.kind = .file →
      isOk (access creds i ACCESS_R) = true → v.chunkSize = 0 → len = 0 →
        offset = 0 ∨ i.size ≤ offset.toNat
  | _ => True

section Compare

variable {v : Volume} {db : Db} {creds : Credentials}

lemma access_cases (creds : Credentials) (i : Inode) (want : UInt32) :
    access creds i want = .ok () ∨ access creds i want = .error .accessDenied := by
  unfold access
  by_cases hp : creds.isPrivileged
  · exact .inl (if_pos hp)
  rw [if_neg hp]
  generalize (if creds.uid = i.uid then (i.mode >>> 6) &&& 7
    else if creds.inGroup i.gid then (i.mode >>> 3) &&& 7 else i.mode &&& 7) = bits
  by_cases hb : bits &&& want = want
  · exact .inl (if_pos hb)
  · exact .inr (if_neg hb)

lemma validateName_ne_denied (name : Bytes) : validateName name ≠ .error .accessDenied := by
  unfold validateName
  repeat' split
  all_goals nofun

variable {missing : FsError} {i : Inode}

/-- Past the check of the directory nothing is denied. -/
lemma foundEntry_ne_denied (hm : missing ≠ .accessDenied) (parent : Ino) (dir : Inode)
    (name : Bytes) :
    foundEntry v db missing parent dir name ≠ .error (.err .accessDenied) := by
  have hnode : ∀ {e : FsError} {ino : Ino} {f : Inode → FileAttr}, e ≠ .accessDenied →
      (foundOr e db ino >>= fun i => .ok (f i)) ≠ .error (.err .accessDenied) := by
    intro e ino f he
    unfold foundOr
    cases db.get (.inode ino) with
    | none => exact fun h => he (Abort.err.inj (Except.error.inj h))
    | some i => nofun
  unfold foundEntry
  split
  · nofun
  split
  · exact hnode nofun
  cases hn : validateName name with
  | error e =>
    intro h
    exact validateName_ne_denied name (hn.trans (congrArg _ (Abort.err.inj (Except.error.inj h))))
  | ok u =>
    cases db.get (.dirent parent (v.names.sealName parent name)) with
    | none => nofun
    | some d => exact hnode hm

/-- The two report the same unless an entry's node is missing. -/
lemma sameEntry_iff (parent : Ino) (dir : Inode) (name : Bytes) :
    SameAnswer (foundEntry v db .notFound parent dir name >>= fun a => .ok (.attr a))
        (foundEntry v db .stale parent dir name >>= fun a => .ok (.attr a)) ↔
      (isOk (validateName name) = true →
        ∀ d, db.get (.dirent parent (v.names.sealName parent name)) = some d →
          (db.get (.inode d.childIno)).isSome) := by
  have hdots : ∀ n, n = [46] ∨ n = [46, 46] → isOk (validateName n) = false := by
    intro n hn
    rcases hn with rfl | rfl <;> rfl
  unfold foundEntry
  by_cases hdot : name = [46]
  · rw [if_pos hdot, if_pos hdot, hdots name (.inl hdot)]
    exact ⟨fun _ h => (nomatch h), fun _ => rfl⟩
  by_cases hdd : name = [46, 46]
  · rw [if_neg hdot, if_neg hdot, if_pos hdd, if_pos hdd, hdots name (.inr hdd)]
    exact ⟨fun _ h => (nomatch h), fun _ => rfl⟩
  rw [if_neg hdot, if_neg hdot, if_neg hdd, if_neg hdd]
  cases hn : validateName name with
  | error e => exact ⟨fun _ h => (nomatch h), fun _ => rfl⟩
  | ok u =>
    cases hd : db.get (.dirent parent (v.names.sealName parent name)) with
    | none => exact ⟨fun _ _ d h => (nomatch h), fun _ => rfl⟩
    | some d =>
      cases hi : db.get (.inode d.childIno) with
      | none =>
        simp only [foundOr_none hi]
        exact ⟨fun h => (nomatch h), fun h => absurd (h rfl d rfl) (by rw [hi]; nofun)⟩
      | some i =>
        simp only [foundOr_some hi]
        refine ⟨fun _ _ d' hd' => ?_, fun _ => rfl⟩
        rw [← Option.some.inj hd', hi]
        rfl

lemma foundName_of_dir {want : UInt32} {parent : Ino} {dir : Inode} {name : Bytes}
    (hd : db.get (.inode parent) = some dir) (hk : dir.kind.isDir = true) :
    foundName v db creds want missing parent name =
      (access creds dir want).mapError .err >>=
        fun _ => foundEntry v db missing parent dir name := by
  have hfound : foundDir db parent = .ok dir := by
    rw [foundDir, foundInode, foundOr_some hd]
    exact if_pos hk
  rw [foundName, hfound]
  rfl

/-- Where there is no directory, nothing else matters. -/
lemma foundName_of_no_dir {parent : Ino} (name : Bytes)
    (hno : ∀ dir, db.get (.inode parent) = some dir → dir.kind.isDir ≠ true)
    (want want' : UInt32) (missing missing' : FsError) :
    foundName v db creds want missing parent name =
      foundName v db creds want' missing' parent name := by
  have hfound : ∃ e, foundDir db parent = .error e := by
    unfold foundDir foundInode foundOr
    cases hd : db.get (.inode parent) with
    | none => exact ⟨_, rfl⟩
    | some dir => exact ⟨_, if_neg (hno dir hd)⟩
  obtain ⟨e, hfound⟩ := hfound
  rw [foundName, foundName, hfound]
  rfl

/-- What is denied on one side only shows. -/
lemma denied_shows (missing : FsError) (hm : missing ≠ .accessDenied) (parent : Ino)
    (dir : Inode) (name : Bytes) :
    ¬SameAnswer (foundEntry v db missing parent dir name >>= fun a => .ok (.attr a))
      (.error (.err .accessDenied)) := by
  intro h
  have hne : foundEntry v db missing parent dir name ≠ .error (.err .accessDenied) :=
    foundEntry_ne_denied hm parent dir name
  cases hf : foundEntry v db missing parent dir name with
  | ok a =>
    rw [hf] at h
    cases h
  | error e =>
    rw [hf] at h hne
    have h' : (Except.error e : Except Abort Reply) = .error (.err .accessDenied) := h
    exact hne (congrArg _ (Except.error.inj h'))

lemma sameLookup_iff (parent : Ino) (name : Bytes) :
    SameAnswer (foundName v db creds ACCESS_X .notFound parent name >>= fun a => .ok (.attr a))
        (foundName v db creds ACCESS_R .stale parent name >>= fun a => .ok (.attr a)) ↔
      (ReadRequest.lookup parent name).Faithful v db creds := by
  by_cases hdir : ∃ dir, db.get (.inode parent) = some dir ∧ dir.kind.isDir = true
  · obtain ⟨dir, hd, hk⟩ := hdir
    rw [foundName_of_dir hd hk, foundName_of_dir hd hk]
    simp only [ReadRequest.Faithful, hd, Option.some.injEq, forall_eq', hk, true_imp_iff]
    rcases access_cases creds dir ACCESS_X with hx | hx <;>
      rcases access_cases creds dir ACCESS_R with hr | hr <;> rw [hx, hr]
    · refine (sameEntry_iff parent dir name).trans ⟨fun h => ⟨rfl, fun _ => h⟩, fun h => h.2 rfl⟩
    · exact ⟨fun h => absurd h (denied_shows .notFound nofun parent dir name),
        fun h => (nomatch h.1)⟩
    · exact ⟨fun h => absurd h.symm (denied_shows .stale nofun parent dir name),
        fun h => (nomatch h.1)⟩
    · exact ⟨fun _ => ⟨rfl, fun h => (nomatch h)⟩, fun _ => rfl⟩
  · have hno : ∀ dir, db.get (.inode parent) = some dir → dir.kind.isDir ≠ true :=
      fun dir hd hk => hdir ⟨dir, hd, hk⟩
    rw [foundName_of_no_dir name hno ACCESS_X ACCESS_R .notFound .stale]
    exact ⟨fun _ dir hd hk => absurd hk (hno dir hd), fun _ => rfl⟩

/-- Only the bit for reading is compared. -/
lemma samePerms_iff (b w m m' : Bool) :
    SameAnswer (.ok (.perms ⟨b, w, m, m'⟩)) (.ok (.perms ⟨true, false, false, false⟩)) ↔
      b = true := by
  cases b
  · exact ⟨fun h => (nomatch h), fun h => (nomatch h)⟩
  · exact ⟨fun _ => rfl, fun _ => rfl⟩

/-- The live volume looks at the entry as well. -/
lemma foundParent_ok_iff {parent : Option (Ino × Bytes)} :
    (∃ m, foundParent db creds i parent = .ok m) ↔ ∀ parentIno name,
      parent = some (parentIno, name) →
        isOk (validateName name) = true ∧ (db.get (.inode parentIno)).isSome := by
  rcases parent with _ | ⟨parentIno, name⟩
  · exact ⟨fun _ _ _ h => (by cases h), fun _ => ⟨false, rfl⟩⟩
  simp only [Option.some.injEq, Prod.mk.injEq, and_imp, forall_apply_eq_imp_iff, forall_eq']
  rw [foundParent]
  cases validateName name with
  | error e => exact ⟨fun h => (by obtain ⟨_, ⟨⟩⟩ := h), fun h => by cases h.1⟩
  | ok u =>
    cases hp : db.get (.inode parentIno) with
    | none =>
      rw [foundInode, foundOr_none hp]
      exact ⟨fun h => (by obtain ⟨_, ⟨⟩⟩ := h), fun h => by cases h.2⟩
    | some dir =>
      rw [foundInode, foundOr_some hp]
      exact ⟨fun _ => ⟨rfl, rfl⟩, fun _ => ⟨_, rfl⟩⟩

lemma samePermissions_iff (ino : Ino) (parent : Option (Ino × Bytes)) :
    SameAnswer (foundPermissions db creds ino parent >>= fun p => .ok (.perms p))
        (foundInode db ino >>= fun _ => .ok (.perms ⟨true, false, false, false⟩)) ↔
      (ReadRequest.permissions ino parent).Faithful v db creds := by
  unfold foundPermissions
  cases hi : db.get (.inode ino) with
  | none =>
    rw [foundInode, foundOr_none hi]
    refine ⟨fun _ i h => ?_, fun _ => rfl⟩
    rw [hi] at h
    cases h
  | some i =>
    rw [foundInode, foundOr_some hi]
    simp only [ReadRequest.Faithful, hi, Option.some.injEq, forall_eq']
    rw [← foundParent_ok_iff (i := i)]
    show SameAnswer ((foundParent db creds i parent >>= _) >>= _) _ ↔ _
    cases foundParent db creds i parent with
    | error e => exact ⟨fun h => (by cases h), fun h => by obtain ⟨-, m, h⟩ := h; cases h⟩
    | ok m => exact (samePerms_iff _ _ _ _).trans ⟨fun h => ⟨h, m, rfl⟩, fun h => h.1⟩

/-- Read-ahead makes a difference only to an empty read when chunks have no size. -/
lemma sameRange_iff (ino : Ino) (i : Inode) (offset : UInt64) (len : UInt32) :
    SameAnswer ((foundRange v.chunkSize db ino i.size offset.toNat len.toNat >>=
          fun b => readAhead v offset.toNat i b) >>= fun b => .ok (.bytes b))
        ((foundRange v.chunkSize db ino i.size offset.toNat len.toNat >>= fun b => .ok b) >>=
          fun b => .ok (.bytes b)) ↔
      (v.chunkSize = 0 → len = 0 → offset = 0 ∨ i.size ≤ offset.toNat) := by
  by_cases hcs : v.chunkSize = 0
  · have hlen : len.toNat = 0 ↔ len = 0 := ⟨fun h => UInt32.toNat_inj.mp h, fun h => by rw [h]; rfl⟩
    have hoff : offset.toNat = 0 ↔ offset = 0 :=
      ⟨fun h => UInt64.toNat_inj.mp h, fun h => by rw [h]; rfl⟩
    have hadd : addU64 offset.toNat 0 = offset.toNat := Nat.mod_eq_of_lt offset.toNat_lt
    unfold foundRange
    by_cases hempty : offset.toNat ≥ i.size ∨ len.toNat = 0
    · rw [if_pos hempty]
      show SameAnswer (readAhead v offset.toNat i [] >>= _) _ ↔ _
      unfold readAhead
      rw [List.length_nil, hadd]
      by_cases hstop : offset.toNat = 0 ∨ offset.toNat ≥ i.size
      · rw [if_pos hstop]
        exact ⟨fun _ _ _ => hstop.imp_left hoff.mp, fun _ => rfl⟩
      · rw [if_neg hstop, if_pos hcs]
        refine ⟨fun h => (nomatch h), fun h => absurd ?_ hstop⟩
        refine (h hcs (hlen.mp (hempty.resolve_left fun hge => hstop (.inr hge)))).imp_left hoff.mpr
    · rw [if_neg hempty, if_pos hcs]
      exact ⟨fun _ _ hzero => absurd (.inr (hlen.mpr hzero)) hempty, fun _ => rfl⟩
  · have hsame : (fun b => readAhead v offset.toNat i b) = fun b => .ok b :=
      funext fun b => by rw [readAhead, if_neg hcs, ite_self]
    rw [hsame]
    exact ⟨fun _ h => absurd h hcs, fun _ => rfl⟩

lemma sameRead_iff (ino : Ino) (offset : UInt64) (len : UInt32) :
    SameAnswer (foundBytes v db creds ino offset.toNat len.toNat (readAhead v offset.toNat) >>=
          fun b => .ok (.bytes b))
        (foundBytes v db creds ino offset.toNat len.toNat (fun _ b => .ok b) >>=
          fun b => .ok (.bytes b)) ↔
      (ReadRequest.read ino offset len).Faithful v db creds := by
  unfold foundBytes
  cases hi : db.get (.inode ino) with
  | none =>
    rw [foundInode, foundOr_none hi]
    refine ⟨fun _ i h => ?_, fun _ => rfl⟩
    rw [hi] at h
    cases h
  | some i =>
    rw [foundInode, foundOr_some hi]
    simp only [ReadRequest.Faithful, hi, Option.some.injEq, forall_eq']
    simp only [Except.bind, bind]
    cases hk : i.kind with
    | file =>
      rcases access_cases creds i ACCESS_R with ha | ha
      · rw [ha]
        refine (sameRange_iff ino i offset len).trans ⟨fun h _ _ => h, fun h => h rfl rfl⟩
      · rw [ha]
        exact ⟨fun _ _ h => (by cases h), fun _ => rfl⟩
    | _ => exact ⟨fun _ h => (by cases h), fun _ => rfl⟩

end Compare

/-! ## Request by request -/

/-- What a program returns when it runs alone. -/
def resultOf {α : Type} (env : Env) (p : FsM α) (s : St) : Option (Except Abort α) :=
  (p.run.run (Call.answer env) s).map Prod.fst

section Main

variable {v : Volume} {env : Env} {s : St} {creds : Credentials}

lemma Returns.resultOf {α : Type} {p : FsM α} {x : Except Abort α}
    (h : Returns v env s.db p x) (hc : Agrees v s) : resultOf env p s = some x := by
  obtain ⟨s', hrun⟩ := h s rfl hc
  unfold SlateFs.resultOf
  rw [hrun]
  rfl

lemma Returns.map {α β : Type} {db : Db} {p : FsM α} {x : Except Abort α} (g : α → β)
    (h : Returns v env db p x) : Returns v env db (g <$> p) (x >>= fun a => .ok (g a)) := by
  intro s hdb hc
  obtain ⟨s', hrun⟩ := h s hdb hc
  refine ⟨s', ?_⟩
  show Prog.run _ (ExceptT.run (p >>= fun a => pure (g a))) s = _
  rw [ExceptT.run_bind, Prog.run_bind, hrun]
  cases x <;> rfl

lemma agrees_checkpoint (v : Volume) (s : St) : Agrees v s.checkpoint := ⟨nofun, nofun⟩

/-- **A snapshot answers as the live volume, on these requests and no others.** The caches of
the live volume hold what is stored. -/
theorem snapshot_answers_iff (v : Volume) (env env' : Env) (s : St) (fuel : Nat)
    (creds : Credentials) (policy : AtimeMode) (req : ReadRequest) (hc : Agrees v s) :
    (∃ r r', resultOf env ((req.op policy).prog v fuel creds) s = some r ∧
      resultOf env' (req.onSnapshot v creds) s.checkpoint = some r' ∧ SameAnswer r r') ↔
      req.Faithful v s.db creds := by
  -- both return, and it is their answers that are compared
  have hanswers : ∀ {x x'}, Returns v env s.db ((req.op policy).prog v fuel creds) x →
      Returns v env' s.checkpoint.db (req.onSnapshot v creds) x' →
      (SameAnswer x x' ↔ req.Faithful v s.db creds) →
      ((∃ r r', resultOf env ((req.op policy).prog v fuel creds) s = some r ∧
        resultOf env' (req.onSnapshot v creds) s.checkpoint = some r' ∧ SameAnswer r r') ↔
        req.Faithful v s.db creds) := by
    intro x x' hlive hsnap hiff
    rw [hlive.resultOf hc, hsnap.resultOf (agrees_checkpoint v s), ← hiff]
    constructor
    · intro h
      obtain ⟨r, r', hr, hr', hsame⟩ := h
      rw [Option.some.inj hr, Option.some.inj hr']
      exact hsame
    · exact fun h => ⟨x, x', rfl, rfl, h⟩
  have htrue : ∀ x : Except Abort Reply, SameAnswer x x ↔ True := fun x =>
    ⟨fun _ => trivial, fun _ => rfl⟩
  cases req with
  | lookup p n =>
    exact hanswers (Returns.map _ (Reads.liveLookup creds p n).returns)
      (Returns.map _ (Reads.snapshotLookup creds p n).returns) (sameLookup_iff p n)
  | getattr ino =>
    exact hanswers
      (Returns.map _ ((Reads.loadInodeCached ino).bind fun i _ => Reads.pure _).returns)
      (Returns.map _ ((Reads.loadInode ino).bind fun i _ => Reads.pure _).returns) (htrue _)
  | read ino o l =>
    exact hanswers (Returns.map _ (Returns.liveRead creds ino o.toNat l.toNat policy))
      (Returns.map _ (Reads.snapshotRead creds ino o.toNat l.toNat).returns) (sameRead_iff ino o l)
  | readdir p c m =>
    exact hanswers (Returns.map _ (Reads.liveReaddir p c m).returns)
      (Returns.map _ (Reads.snapshotReaddir p c m).returns) (htrue _)
  | readlink ino =>
    obtain ⟨x, hx⟩ := plain_readlink ino s.db
    exact hanswers (Returns.map _ (hx v env).returns) (Returns.map _ (hx v env').returns) (htrue _)
  | getxattr ino n =>
    obtain ⟨x, hx⟩ := plain_getxattr creds ino n s.db
    exact hanswers (Returns.map _ (hx v env).returns) (Returns.map _ (hx v env').returns) (htrue _)
  | listxattr ino =>
    obtain ⟨x, hx⟩ := plain_listxattr creds ino s.db
    exact hanswers (Returns.map _ (hx v env).returns) (Returns.map _ (hx v env').returns) (htrue _)
  | permissions ino p =>
    refine hanswers (Returns.map _ (Reads.livePermissions ino p).returns)
      (Returns.map _ (Reads.snapshotPermissions ino).returns) ?_
    rw [bind_assoc]
    exact samePermissions_iff ino p

end Main

/-- The root with a file in it, both of them cached. -/
def fileCreated : St :=
  match (Op.prog .plain 4 .root (.create 1 [102] 0o644 true)).run.run (Call.answer .still)
    mountedRoot with
  | some (_, s) => s
  | none => mountedRoot

lemma fileCreated_agrees : Agrees .plain fileCreated := by
  have hnodes : ∀ kv ∈ fileCreated.mem.attrs.attrs.entries,
      fileCreated.db.inodes.get? kv.1 = some kv.2 := by decide +kernel
  have hnames : ∀ kv ∈ fileCreated.mem.attrs.negative.entries, False := by decide +kernel
  exact ⟨fun ino i h => hnodes (ino, i) (OrdMap.mem_entries.mpr h),
    fun p n h => (hnames _ (OrdMap.mem_entries.mpr h)).elim⟩

/-- Everybody may look the file up. -/
theorem snapshot_answers_file : Agrees .plain fileCreated ∧
    ∃ r r', resultOf .still ((ReadRequest.lookup 1 [102]).op .noatime |>.prog .plain 4 (.user 7 7))
        fileCreated = some r ∧
      resultOf .still ((ReadRequest.lookup 1 [102]).onSnapshot .plain (.user 7 7))
        fileCreated.checkpoint = some r' ∧ SameAnswer r r' := by
  have hdirs : ∀ kv ∈ fileCreated.db.inodes.entries, kv.2.kind.isDir = true →
      isOk (access (.user 7 7) kv.2 ACCESS_X) = isOk (access (.user 7 7) kv.2 ACCESS_R) := by
    decide +kernel
  have hentries : ∀ kv ∈ fileCreated.db.dirents.entries,
      (fileCreated.db.inodes.get? kv.2.childIno).isSome := by decide +kernel
  refine ⟨fileCreated_agrees, (snapshot_answers_iff .plain .still .still fileCreated 4 (.user 7 7)
    .noatime (.lookup 1 [102]) fileCreated_agrees).mpr ?_⟩
  intro dir hdir hkind
  exact ⟨hdirs (1, dir) (OrdMap.mem_entries.mpr hdir) hkind,
    fun _ _ d hd => hentries (_, d) (OrdMap.mem_entries.mpr hd)⟩

/-- The root after its owner has left others the right to search it, but not to read it. -/
def searchableRoot : St :=
  match (Op.prog .plain 4 .root (.setattr 1 { mode := some 0o711 })).run.run (Call.answer .still)
    mountedRoot with
  | some (_, s) => s
  | none => mountedRoot

/-- **A directory that may be searched and not read is closed on a snapshot**, and the snapshot
says that it may be read. -/
theorem searchable_differs :
    ¬(∃ r r', resultOf .still ((ReadRequest.lookup 1 [46]).op .noatime |>.prog .plain 4 (.user 7 7))
        searchableRoot = some r ∧
      resultOf .still ((ReadRequest.lookup 1 [46]).onSnapshot .plain (.user 7 7))
        searchableRoot.checkpoint = some r' ∧ SameAnswer r r') ∧
    ¬(∃ r r', resultOf .still
        ((ReadRequest.permissions 1 none).op .noatime |>.prog .plain 4 (.user 7 7))
        searchableRoot = some r ∧
      resultOf .still ((ReadRequest.permissions 1 none).onSnapshot .plain (.user 7 7))
        searchableRoot.checkpoint = some r' ∧ SameAnswer r r') := by
  have hdiffer : ∀ {x y : Option (Except Abort Reply)},
      x.map (Except.map Reply.seen) ≠ y.map (Except.map Reply.seen) →
      ¬∃ r r', x = some r ∧ y = some r' ∧ SameAnswer r r' := by
    intro x y hne h
    obtain ⟨r, r', rfl, rfl, hsame⟩ := h
    exact hne (congrArg some hsame)
  exact ⟨hdiffer (by decide +kernel), hdiffer (by decide +kernel)⟩

end SlateFs
