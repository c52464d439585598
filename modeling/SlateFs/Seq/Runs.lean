import SlateFs.Seq.Files
import SlateFs.Seq.Rename

/-!
# Whole runs

Calls made one at a time, from a freshly formatted volume. `Rests` are the states
between two calls and `Reached` the states after every step of a call, so an
invariant of `Reached` holds after every committed batch.

A run is described by the calls it may make: `C op s` says that `op` may be called
in state `s`. To show that an invariant of the database holds throughout it is
enough that every transaction keeps it (`Reached.txns`).
-/

namespace SlateFs

open OrdMap FsM Track

variable {v : Volume} {G : Guard} {db db' : Db} {n : Ino}

/-! ## Numbers nobody has used -/

/-- The write puts no record that belongs to this number or names it. -/
def Write.Spares (n : Ino) : Write → Prop
  | .put (.dirent p _) d => p ≠ n ∧ Dirent.childIno d ≠ n
  | .put k _ => k.owner ≠ n
  | _ => True

lemma get?_insert_ne {κ β : Type} [LinearOrder κ] {m : OrdMap κ β} {a k : κ} {x : β}
    (h : a ≠ k) (hk : m.get? k = none) : (m.insert a x).get? k = none := by
  rw [get?_insert, if_neg (Ne.symm h), hk]

lemma get?_erase_none {κ β : Type} [LinearOrder κ] {m : OrdMap κ β} {k : κ} (a : κ)
    (hk : m.get? k = none) : (m.erase a).get? k = none := by
  rw [get?_erase]
  split
  · rfl
  · exact hk

lemma toLex_ne {α β : Type} {a b : α} {x y : β} (h : a ≠ b) : toLex (a, x) ≠ toLex (b, y) :=
  fun he => h (Prod.mk.inj (toLex.injective he)).1

variable {creds : Credentials}

lemma Unused.put (h : Unused db n) : ∀ (k : Key) (x : k.Val), (Write.put k x).Spares n →
    Unused (db.put k x) n
  | .inode _, _, hs => { h with inode := get?_insert_ne hs h.inode }
  | .dirent _ _, _, hs =>
    { h with
      entry := fun e => get?_insert_ne (toLex_ne hs.1) (h.entry e)
      named := fun k d hk => by
        rcases of_get?_insert hk with ⟨-, rfl⟩ | hk
        · exact hs.2
        · exact h.named k d hk }
  | .direntIdx _ _, _, hs => { h with idx := fun i => get?_insert_ne (toLex_ne hs) (h.idx i) }
  | .chunk _ _, _, hs => { h with chunk := fun i => get?_insert_ne (toLex_ne hs) (h.chunk i) }
  | .symlink _, _, hs => { h with symlink := get?_insert_ne hs h.symlink }
  | .xattr _ _, _, hs => { h with xattr := fun x => get?_insert_ne (toLex_ne hs) (h.xattr x) }
  | .orphan _, _, hs => { h with orphan := get?_insert_ne hs h.orphan }

lemma Unused.delete (h : Unused db n) : ∀ k : Key, Unused (db.delete k) n
  | .inode _ => { h with inode := get?_erase_none _ h.inode }
  | .dirent _ _ =>
    { h with
      entry := fun e => get?_erase_none _ (h.entry e)
      named := fun k d hk => h.named k d (get?_of_get?_erase hk) }
  | .direntIdx _ _ => { h with idx := fun i => get?_erase_none _ (h.idx i) }
  | .chunk _ _ => { h with chunk := fun i => get?_erase_none _ (h.chunk i) }
  | .symlink _ => { h with symlink := get?_erase_none _ h.symlink }
  | .xattr _ _ => { h with xattr := fun x => get?_erase_none _ (h.xattr x) }
  | .orphan _ => { h with orphan := get?_erase_none _ h.orphan }

lemma Unused.apply (h : Unused db n) {b : Batch} (hb : ∀ w ∈ b, w.Spares n) :
    Unused (db.apply b) n := by
  induction b generalizing db with
  | nil => exact h
  | cons w rest ih =>
    refine ih ?_ (fun w' hw' => hb w' (List.mem_cons_of_mem _ hw'))
    have hw := hb w List.mem_cons_self
    cases w with
    | put k x => exact h.put k x hw
    | delete k => exact h.delete k
    | mergeBytes d => exact { h with }
    | mergeInodes d => exact { h with }

lemma Unused.ne {ino : Ino} {i : Inode} (h : Unused db n) (hi : db.inodes.get? ino = some i) :
    ino ≠ n := by
  rintro rfl
  rw [h.inode] at hi
  cases hi

/-- A number nobody has used stays unused, unless a new node takes it. -/
lemma Unused.txn (h : Unused db n) (ht : Txn v G db db') (hf : ¬G.fresh n) : Unused db' n := by
  cases ht with
  | lease m => exact { h with }
  | touch hi _ => exact h.put _ _ (h.ne hi)
  | setXattr name value hi => exact h.put _ _ (h.ne hi)
  | dropXattr ino name => exact h.delete _
  | @insertNode p parent name c child target ts hparent _ _ _ hfresh _ _ _ _ =>
    have hc : c ≠ n := fun he => hf (he ▸ hfresh)
    refine h.apply ?_
    simp only [insertNodeBatch, List.forall_mem_append]
    cases target <;> simp [Write.Spares, Key.owner, hc, h.ne hparent]
  | link ts hi _ hdir _ _ _ _ _ _ =>
    refine h.apply ?_
    simp [linkBatch, Write.Spares, Key.owner, h.ne hi, h.ne hdir]
  | unlinkKeep hn _ _ _ _ =>
    refine h.apply ?_
    simp [dropEntry, Write.Spares, Key.owner, h.ne hn.hdir, h.ne hn.hchild]
  | unlinkOpen ts hn _ _ _ =>
    refine h.apply ?_
    simp [dropEntry, buryOpen, Write.Spares, Key.owner, h.ne hn.hdir, h.ne hn.hchild]
  | unlinkGone hn _ _ _ =>
    refine h.apply ?_
    simp [dropEntry, buryGone, Write.Spares, Key.owner, h.ne hn.hdir, h.ne hn.hchild]
  | rmdir hn _ _ _ _ =>
    refine h.apply ?_
    simp [dropEntry, Write.Spares, Key.owner, h.ne hn.hdir]
  | move crossing ts hsrc hnew _ _ _ _ _ _ =>
    refine h.apply ?_
    simp only [renameBatch, List.forall_mem_append]
    split <;> simp [dropEntry, Write.Spares, Key.owner, h.ne hsrc.hdir, h.ne hsrc.hchild, h.ne hnew]
  | write hi _ _ _ _ _ =>
    refine h.apply ?_
    simp only [writeBatch, List.forall_mem_append, List.forall_mem_map]
    split <;> simp [Write.Spares, Key.owner, h.ne hi]
  | @truncate ino i i' newSize hi _ _ _ _ _ =>
    refine h.apply ?_
    simp only [truncateBatch, List.forall_mem_append, List.forall_mem_map]
    cases (truncatePlanOf v.chunkSize db ino i.size newSize).tailPut <;>
      split <;> simp [tailWrite, Write.Spares, Key.owner, h.ne hi]
  | spill _ _ => exact h.delete _
  | finish _ _ =>
    refine h.apply ?_
    simp [finishBatch, Write.Spares]
  | reap _ hr => cases hr <;> exact h.delete _

lemma Unused.txns (h : Unused db n) (ht : Txns v G db db') (hf : ¬G.fresh n) : Unused db' n := by
  induction ht with
  | refl => exact h
  | tail _ ht ih => exact ih.txn ht hf

/-! ## Calls -/

/-- The directory that a call adds an entry to. -/
def Op.receiver : Op → Option Ino
  | .create p _ _ _ | .mkdir p _ _ | .mknod p _ _ _ _ | .symlink p _ _ | .link _ p _
  | .rename _ _ p _ => some p
  | _ => none

/-- What a call asks of the guard, besides that its entry gets an id. -/
def Op.Allowed (G : Guard) (v : Volume) (db : Db) : Op → Prop
  | .setattr ino attrs => ∀ i size, db.inodes.get? ino = some i → attrs.size = some size →
      G.truncate db ino i size
  | .write ino offset data => ∀ i, db.inodes.get? ino = some i → G.write db ino i offset data
  | .mkdir parent _ _ => ∀ i, db.inodes.get? parent = some i → G.subdir i.nlink
  | .link ino _ _ => ∀ i, db.inodes.get? ino = some i → G.link i
  | .rename p n q m => G.allowsRename v db p n q m
  | _ => True

/-- What a call asks of the guard. -/
structure Op.Meets (G : Guard) (v : Volume) (db : Db) (op : Op) : Prop where
  allowed : op.Allowed G v db
  entry : ∀ p, op.receiver = some p → ∀ i, db.inodes.get? p = some i → G.entry i.nextDirentId

lemma Op.allowed_any (op : Op) (db : Db) {E : Nat → Prop} :
    op.Allowed { Guard.any with entry := E } v db := by
  cases op with
  | rename => exact ⟨fun _ _ _ _ _ _ _ _ _ => trivial, fun _ _ _ _ _ => .inr trivial⟩
  | setattr => exact fun _ _ _ _ => trivial
  | write => exact fun _ _ => trivial
  | mkdir => exact fun _ _ => trivial
  | link => exact fun _ _ => trivial
  | _ => trivial

lemma Op.Meets.fresh {op : Op} (h : op.Meets G v db) (F : Ino → Prop) :
    op.Meets { G with fresh := F } v db := by
  refine ⟨?_, h.entry⟩
  have hallowed := h.allowed
  cases op
  case rename => exact { hallowed with }
  all_goals exact hallowed

/-- **Every call keeps to transactions.** -/
theorem Op.keeps {M : Oracle} (op : Op) (fuel : Nat) (creds : Credentials) (hT : Tree db)
    (hM : M.Fresh G) (hmeets : op.Meets G v db) : Keeps v G M (op.prog v fuel creds) db := by
  have hE : (M.track (Txns v G)).AtRest (fun _ _ => True) db := atRest_alone fun _ => trivial
  have hfill : ∀ ino i, (M.track (Txns v G)).Passes db (.attrsInsert ino i) :=
    fun _ _ _ _ => ⟨.inl rfl, rfl⟩
  obtain ⟨hG, hid⟩ := hmeets
  cases op <;> simp only [Op.prog, Keeps, wp_map]
  case lookup p n =>
    exact wp_alone.mp (wp_lookup hE hfill (fun _ _ => ⟨.inl rfl, rfl⟩) fun _ => trivial)
  case getattr ino => exact wp_alone.mp (wp_getattr hE hfill fun _ => trivial)
  case permissions ino p => exact wp_alone.mp (wp_permissions hE fun _ => trivial)
  case setattr ino a => exact setattr_keeps creds hG
  case read ino o l policy =>
    refine wp_alone.mp (wp_read hE hfill (fun _ => trivial)
      fun _ i => under_alone fun hk => ?_)
    obtain ⟨i₀, hi, halike⟩ := alike_of_retimed hk
    simp only [wp_bind, wp_tryCommit, wp_attrsInsert]
    exact ⟨.inr (.single (.touch hi halike)), trivial⟩
  case write ino o d => exact write_keeps creds hG
  case create p n m x => exact create_keeps hM creds (hid p rfl) n m x
  case mkdir p n m => exact mkdir_keeps hM creds (hid p rfl) n m hG
  case mknod p n m k r => exact mknod_keeps hM creds (hid p rfl) n m k r
  case symlink p n t => exact symlink_keeps hM creds (hid p rfl) n t
  case readlink ino => exact wp_alone.mp (wp_readlink hE fun _ => trivial)
  case link ino p n => exact link_keeps creds p n hG (hid p rfl)
  case unlink p n => exact unlink_keeps fuel creds p n
  case rmdir p n => exact rmdir_keeps fuel creds p n
  case rename p n q m => exact rename_keeps hT fuel creds hG (hid q rfl)
  case readdir p c m => exact wp_alone.mp (wp_readdir hE hfill fun _ => trivial)
  case getxattr ino n => exact wp_alone.mp (wp_getxattr hE fun _ => trivial)
  case setxattr ino n x =>
    refine wp_alone.mp (wp_setxattr hE fun i => under_alone ?_)
    exact retimed_keeps fun i hi => ⟨.setXattr n x hi, rfl⟩
  case listxattr ino => exact wp_alone.mp (wp_listxattr hE fun _ => trivial)
  case removexattr ino n =>
    refine wp_alone.mp (wp_removexattr hE fun i => under_alone ?_)
    exact retimed_keeps fun i hi => ⟨.dropXattr ino n, rfl⟩
  case statfs => exact wp_alone.mp (wp_reads hE.toQuiet rfl fun _ _ => trivial)
  case fsync => exact wp_alone.mp (wp_flush hE trivial)
  case openFile ino m =>
    refine wp_alone.mp (wp_openFile hE (wp_passes (fun _ _ => ?_) fun _ _ => ?_))
    · exact ⟨.inl rfl, rfl⟩
    · trivial
  case closeFile h => exact closeFile_keeps fuel h
  case lockRange h a b x => exact wp_alone.mp (wp_lockRange hE trivial)
  case unlockRange h a b => exact wp_alone.mp (wp_unlockRange hE trivial)
  case testLock h a b x => exact wp_alone.mp (wp_testLock hE fun _ => trivial)

/-! ## Numbers are handed out once -/

/-- Memory may answer anything, but hands out only unused numbers from `F`. -/
def Oracle.handing (F : Ino → Prop) : Oracle where
  number db n := Unused db n ∧ F n
  isOpen _ _ _ := True
  reserve _ _ _ := True
  cached _ _ _ := True

variable {env : Env} {s s' : St}

lemma answer_next (env : Env) (c : Call) (s : St) :
    s.mem.alloc.next ≤ (c.answer env s).2.mem.alloc.next := by
  cases c
  case allocate =>
    simp only [Call.answer, InodeAllocator.allocate]
    split <;> exact Nat.le_succ _
  case attrsGet => simp only [Call.answer]; split <;> exact le_refl _
  case isNegative => simp only [Call.answer]; split <;> exact le_refl _
  all_goals exact le_refl _

lemma acts_handing {F : Ino → Prop} (c : Call) (hnew : Unused s.db s.mem.alloc.next)
    (hF : s.mem.alloc.next < (c.answer env s).2.mem.alloc.next → F s.mem.alloc.next) :
    c.acts (.handing F) s.db (c.answer env s).1 (c.answer env s).2.db := by
  refine Call.acts_answer c s ?_
  cases c
  case allocate =>
    intro _
    have hino : s.mem.alloc.allocate.1.1 = s.mem.alloc.next := by
      unfold InodeAllocator.allocate; split <;> rfl
    have hnext : s.mem.alloc.allocate.2.next = s.mem.alloc.next + 1 := by
      unfold InodeAllocator.allocate; split <;> rfl
    show Unused s.db s.mem.alloc.allocate.1.1 ∧ F s.mem.alloc.allocate.1.1
    rw [hino]
    exact ⟨hnew, hF (show _ < s.mem.alloc.allocate.2.next by omega)⟩
  all_goals exact fun _ => trivial

/--
A run of a program that keeps to transactions whatever unused numbers it is given:
the numbers handed out on the way are the only ones that come into use.
-/
lemma visits_txns {α : Type} {p : Prog Call Call.Ret Lock α} {lo : Nat}
    (hlo : lo ≤ s.mem.alloc.next) (hfresh : ∀ n, s.mem.alloc.next ≤ n → Unused s.db n)
    (hw : ∀ F : Ino → Prop, (∀ n, lo ≤ n → n < s.mem.alloc.next → F n) →
      Prog.wp ((Oracle.handing F).steps (Txns v { G with fresh := F })) (fun _ _ => True) p s.db)
    (hv : Prog.Visits (Call.answer env) p s s') :
    s.mem.alloc.next ≤ s'.mem.alloc.next
    ∧ Txns v { G with fresh := fun n => lo ≤ n ∧ n < s'.mem.alloc.next } s.db s'.db
    ∧ ∀ n, s'.mem.alloc.next ≤ n → Unused s'.db n := by
  induction hv with
  | here p s => exact ⟨le_refl _, .refl, hfresh⟩
  | @call c k s s' _ ih =>
    have hnext := answer_next env c s
    have hstep : ∀ F : Ino → Prop, (∀ n, lo ≤ n → n < (c.answer env s).2.mem.alloc.next → F n) →
        ((c.answer env s).2.db = s.db
          ∨ Txns v { G with fresh := F } s.db (c.answer env s).2.db)
        ∧ Prog.wp ((Oracle.handing F).steps (Txns v { G with fresh := F })) (fun _ _ => True)
          (k (c.answer env s).1) (c.answer env s).2.db := by
      intro F hF
      exact hw F (fun n h₁ h₂ => hF n h₁ (lt_of_lt_of_le h₂ hnext)) _ _
        (acts_handing c (hfresh _ (le_refl _)) (hF _ hlo))
    have hfresh₁ : ∀ n, (c.answer env s).2.mem.alloc.next ≤ n → Unused (c.answer env s).2.db n := by
      intro n hn
      have hn₀ := hfresh n (le_trans hnext hn)
      rcases (hstep (fun n => lo ≤ n ∧ n < (c.answer env s).2.mem.alloc.next)
        (fun _ h₁ h₂ => ⟨h₁, h₂⟩)).1 with he | ht
      · rw [he]; exact hn₀
      · exact hn₀.txns ht (fun hf => absurd hf.2 (Nat.not_lt.mpr hn))
    obtain ⟨hle, ht, hu⟩ := ih (le_trans hlo hnext) hfresh₁ (fun F hF => (hstep F hF).2)
    refine ⟨le_trans hnext hle, ?_, hu⟩
    rcases (hstep (fun n => lo ≤ n ∧ n < s'.mem.alloc.next)
      (fun _ h₁ h₂ => ⟨h₁, lt_of_lt_of_le h₂ hle⟩)).1 with he | ht₀
    · rwa [he] at ht
    · exact ht₀.trans ht
  | acquire _ ih => exact ih hlo hfresh hw
  | release _ ih => exact ih hlo hfresh hw

/-! ## Sound states -/

/-- The directories form a tree and numbers yet to be handed out are unused. -/
structure Sound (s : St) : Prop where
  tree : Tree s.db
  fresh : ∀ n, s.mem.alloc.next ≤ n → Unused s.db n

/-- What a call does to a sound state; numbers handed out before come into use no more. -/
lemma Sound.visits {op : Op} {fuel : Nat} (h : Sound s) (hG : op.Meets G v s.db)
    (hv : Prog.Visits (Call.answer env) (op.prog v fuel creds).run s s') :
    Sound s' ∧ s.mem.alloc.next ≤ s'.mem.alloc.next ∧ ∃ F : Ino → Prop,
      (∀ n, F n → s.mem.alloc.next ≤ n) ∧ Txns v { G with fresh := F } s.db s'.db := by
  have hk : ∀ F, Keeps v { G with fresh := F } (.handing F) (op.prog v fuel creds) s.db :=
    fun F => op.keeps fuel creds h.tree (fun _ _ hn => hn) (hG.fresh F)
  obtain ⟨hle, ht, hu⟩ := visits_txns (le_refl _) h.fresh
    (fun F _ => Prog.wp_mono (hk F) (fun _ _ _ _ h => h) (fun _ _ _ => trivial)) hv
  exact ⟨⟨h.tree.txns ht, hu⟩, hle, _, fun _ hn => hn.1, ht⟩

variable (ts : Timespec)

/-- The formatted volume holds the root directory and nothing else. -/
lemma mkfs_inodes (x : Ino) :
    (mkfs ts).inodes.get? x = if x = ROOT_INO then some (rootInode ts) else none := by
  show (OrdMap.insert ∅ ROOT_INO (rootInode ts)).get? x = _
  rw [get?_insert]
  rfl

lemma mkfs_dirents (k : Ino ×ₗ Bytes) : (mkfs ts).dirents.get? k = none := rfl

lemma mkfs_orphans (k : Ino) : (mkfs ts).orphans.get? k = none := rfl

lemma mkfs_tree : Tree (mkfs ts) := by
  refine ⟨.lone ?_ ?_ (fun k => rfl), fun x hx => by rw [mkfs_orphans] at hx; cases hx⟩
  · rw [dirs_parent, mkfs_inodes]; rfl
  intro x hx
  rw [dirs_parent, mkfs_inodes] at hx
  split at hx
  · assumption
  · cases hx

lemma freshVolume_sound (ts : Timespec) (limits : QuotaLimits) :
    Sound (freshVolume ts limits) where
  tree := (mkfs_tree ts).congr rfl (fun _ => rfl) (fun _ h => h)
  fresh n hn := by
    have hne : n ≠ ROOT_INO := Nat.ne_of_gt (show ROOT_INO + 1 ≤ n from hn)
    exact
      { inode := (mkfs_inodes ts n).trans (if_neg hne)
        entry := fun _ => rfl
        idx := fun _ => rfl
        named := fun k d h => nomatch (mkfs_dirents ts k).symm.trans h
        chunk := fun _ => rfl
        symlink := rfl
        xattr := fun _ => rfl
        orphan := rfl }

/-! ## Runs -/

/-- The states between two calls of a run from `s₀` that makes only calls allowed by `C`. -/
inductive Rests (v : Volume) (C : Op → St → Prop) (s₀ : St) : St → Prop where
  | start : Rests v C s₀ s₀
  /-- A call returned, with whatever answer. -/
  | call {s s' : St} {op : Op} {env : Env} {fuel : Nat} {creds : Credentials}
      {r : Except Abort Reply} (h : Rests v C s₀ s) (hC : C op s)
      (hr : (op.prog v fuel creds).run.run (Call.answer env) s = some (r, s')) : Rests v C s₀ s'

/-- The states of such a run, those in the middle of a call included. -/
inductive Reached (v : Volume) (C : Op → St → Prop) (s₀ : St) : St → Prop where
  | rest {s : St} (h : Rests v C s₀ s) : Reached v C s₀ s
  | during {s s' : St} {op : Op} {env : Env} {fuel : Nat} {creds : Credentials}
      (h : Rests v C s₀ s) (hC : C op s)
      (hv : Prog.Visits (Call.answer env) (op.prog v fuel creds).run s s') : Reached v C s₀ s'

/-! A run on concrete inputs can be computed. -/

/-- Make the given calls, as long as `C` allows them and they return. -/
def runAll (v : Volume) (C : Op → St → Prop) [∀ op s, Decidable (C op s)] (env : Env) (fuel : Nat)
    (creds : Credentials) : List Op → St → Option St
  | [], s => some s
  | op :: ops, s =>
    if C op s then
      match (op.prog v fuel creds).run.run (Call.answer env) s with
      | some (_, s') => runAll v C env fuel creds ops s'
      | none => none
    else none

lemma Rests.runAll {C : Op → St → Prop} [∀ op s, Decidable (C op s)] {s₀ s s' : St} {fuel : Nat}
    {ops : List Op} (h : Rests v C s₀ s) (hr : runAll v C env fuel creds ops s = some s') :
    Rests v C s₀ s' := by
  induction ops generalizing s with
  | nil => exact Option.some.inj hr ▸ h
  | cons op ops ih =>
    rw [SlateFs.runAll] at hr
    split at hr
    · rename_i hC
      split at hr
      · rename_i r s₁ h₁
        exact ih (h.call hC h₁) hr
      · cases hr
    · cases hr

lemma Rests.of_runAll (v : Volume) (C : Op → St → Prop) [∀ op s, Decidable (C op s)] (env : Env)
    (fuel : Nat) (creds : Credentials) (ops : List Op) (s₀ : St) (P : St → Prop) [DecidablePred P]
    (h : (SlateFs.runAll v C env fuel creds ops s₀).any (fun s => P s)) :
    ∃ s, Rests v C s₀ s ∧ P s := by
  cases hr : SlateFs.runAll v C env fuel creds ops s₀ with
  | none => rw [hr] at h; cases h
  | some s =>
    rw [hr] at h
    exact ⟨s, Rests.start.runAll hr, by simpa using h⟩

section Invariants

variable {C : Op → St → Prop} {s₀ : St}

/-- What every step of an allowed call keeps holds in every state of a run. -/
lemma Reached.inv {P : St → Prop} (h0 : P s₀)
    (hstep : ∀ {s s' : St} {op : Op} {env : Env} {fuel : Nat} {creds : Credentials}, P s → C op s →
      Prog.Visits (Call.answer env) (op.prog v fuel creds).run s s' → P s')
    (h : Reached v C s₀ s) : P s := by
  have hrest : ∀ {s}, Rests v C s₀ s → P s := by
    intro s h
    induction h with
    | start => exact h0
    | call _ hC hr ih => exact hstep ih hC (.of_run hr)
  cases h with
  | rest h => exact hrest h
  | during h hC hv => exact hstep (hrest h) hC hv

/-- **An invariant of the database holds throughout when every transaction keeps it.** -/
theorem Reached.txns {J : Db → Prop} (hs₀ : Sound s₀) (h0 : J s₀.db)
    (hG : ∀ op s, Sound s → J s.db → C op s → op.Meets G v s.db)
    (hJ : ∀ F db db', Tree db → J db → Txn v { G with fresh := F } db db' → J db')
    (h : Reached v C s₀ s) : Sound s ∧ J s.db := by
  refine Reached.inv (P := fun s => Sound s ∧ J s.db) ⟨hs₀, h0⟩ ?_ h
  rintro s s' op env fuel creds ⟨hs, hJs⟩ hC hv
  obtain ⟨hs', _, F, _, ht⟩ := hs.visits (hG op s hs hJs hC) hv
  refine ⟨hs', ?_⟩
  suffices ∀ db', Txns v { G with fresh := F } s.db db' → Tree db' ∧ J db' from (this _ ht).2
  intro db' ht
  induction ht with
  | refl => exact ⟨hs.tree, hJs⟩
  | tail _ ht ih => exact ⟨ih.1.txn ht, hJ F _ _ ih.1 ih.2 ht⟩

end Invariants

end SlateFs
