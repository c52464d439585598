import SlateFs.Block.Device
import SlateFs.Core.Logic
import SlateFs.Lib.LockOrder

/-!
# Stripes and the rename mutex

An operation locks the stripes of the inodes or chunks it touches. Different inodes may
share a stripe, so the stripes of a set are sorted and taken once each; rename takes its
mutex before any stripe. All programs of the volume therefore climb: the mutex is the
lowest lock, and the stripes follow by number.
-/

namespace SlateFs

open FsM Threads

/-- The order in which locks are taken. -/
def Lock.rank : Lock → Nat
  | .rename => 0
  | .stripe i => i + 1

/-! ## Sets of stripes -/

/-- Locks in order, above those that are held. -/
def Above (held ls : List Lock) : Prop :=
  ls.Pairwise (fun l m => l.rank < m.rank) ∧ ∀ l ∈ ls, ∀ m ∈ held, m.rank < l.rank

/-- At most the rename mutex is held. -/
def MutexOnly (held : List Lock) : Prop := ∀ m ∈ held, m = .rename

lemma mutexOnly_nil : MutexOnly [] := nofun

lemma mutexOnly_rename : MutexOnly [.rename] := fun _ hm => List.mem_singleton.mp hm

variable {held : List Lock}

lemma above_stripes (h : MutexOnly held) (stripes : List Nat) :
    Above held (((stripes.insertionSort (· ≤ ·)).dedup).map .stripe) := by
  constructor
  · have hsorted : (stripes.insertionSort (· ≤ ·)).dedup.Pairwise (· ≤ ·) :=
      (List.pairwise_insertionSort (· ≤ ·) stripes).sublist (List.dedup_sublist _)
    have hdistinct : (stripes.insertionSort (· ≤ ·)).dedup.Nodup := List.nodup_dedup _
    refine List.pairwise_map.mpr ((hsorted.and hdistinct).imp ?_)
    intro a b hab
    exact Nat.succ_lt_succ (Nat.lt_of_le_of_ne hab.1 hab.2)
  · intro l hl m hm
    obtain ⟨i, -, rfl⟩ := List.mem_map.mp hl
    rw [h m hm]
    exact Nat.succ_pos i

lemma above_writeMany (h : MutexOnly held) (inos : List Ino) :
    Above held (writeMany inos) := above_stripes h _

lemma above_writeRange (h : MutexOnly held) (first last : Nat) :
    Above held (writeRange first last) := by
  unfold writeRange
  split
  · exact ⟨.nil, nofun⟩
  · exact above_stripes h _

lemma above_rename : Above [] [.rename] := ⟨List.pairwise_singleton .., nofun⟩

/-- The stripe of every chunk of a range is among those that are locked. -/
lemma stripe_mem_writeRange {first last i : Nat} (h₁ : first ≤ i) (h₂ : i ≤ last) :
    .stripe (stripeOf i) ∈ writeRange first last := by
  unfold writeRange
  rw [if_neg (by omega)]
  refine List.mem_map_of_mem (List.mem_dedup.mpr ((List.mem_insertionSort _).mpr ?_))
  split
  · exact List.mem_range.mpr (Nat.mod_lt _ (by decide))
  refine List.mem_map_of_mem ?_
  rw [chunkRange, List.mem_range'_1]
  omega

/-! ## Programs -/

/-- The program climbs from the locks that are held, and gives back what it takes. -/
def Balanced {α : Type} (held : List Lock) (p : FsM α) : Prop :=
  Prog.Climbs Lock.rank (fun _ held' => held' = held) p.run held

namespace Balanced

variable {α β : Type} {held ls : List Lock} {p : FsM α} {Q : Unit → List Lock → Prop}

lemma bind {f : α → FsM β} (hp : Balanced held p)
    (hf : ∀ a, Balanced held (f a)) : Balanced held (p >>= f) := by
  refine Prog.Climbs.bind hp fun r held' hheld => ?_
  subst hheld
  cases r with
  | ok a => exact hf a
  | error e => exact rfl

lemma mapErr (e : FsError) (hp : Balanced held p) : Balanced held (FsM.mapErr e p) := by
  refine Prog.Climbs.bind hp fun r held' hheld => ?_
  subst hheld
  rcases r with (e | _) | a <;> exact rfl

lemma acquireAll (h : Above held ls) (hQ : Q () (ls.reverse ++ held)) :
    Prog.Climbs Lock.rank Q (FsM.acquireAll ls) held := by
  induction ls generalizing held with
  | nil => exact hQ
  | cons l ls ih =>
    obtain ⟨hsorted, habove⟩ := h
    rw [List.pairwise_cons] at hsorted
    refine ⟨habove l (List.mem_cons_self ..), ih ⟨hsorted.2, fun m hm o ho => ?_⟩ ?_⟩
    · rcases List.mem_cons.mp ho with rfl | ho
      · exact hsorted.1 m hm
      · exact habove m (List.mem_cons_of_mem _ hm) o ho
    · simpa using hQ

lemma releaseAll (hnd : ls.Nodup) (hQ : Q () held) :
    Prog.Climbs Lock.rank Q (FsM.releaseAll ls) (ls.reverse ++ held) := by
  induction ls with
  | nil => exact hQ
  | cons l ls ih =>
    rw [List.nodup_cons] at hnd
    have herase : ((l :: ls).reverse ++ held).erase l = ls.reverse ++ held := by
      rw [List.reverse_cons, List.append_assoc,
        List.erase_append_right _ (fun hl => hnd.1 (List.mem_reverse.mp hl))]
      simp
    show Prog.Climbs Lock.rank Q (FsM.releaseAll ls) (((l :: ls).reverse ++ held).erase l)
    rw [herase]
    exact ih hnd.2

lemma withGuards (h : Above held ls) (hp : Balanced (ls.reverse ++ held) p) :
    Balanced held (FsM.withGuards ls p) := by
  have hnd : ls.Nodup := h.1.imp fun {a b} hlt he => by
    rw [he] at hlt
    exact Nat.lt_irrefl _ hlt
  refine Prog.Climbs.bind (P := fun _ held' => held' = ls.reverse ++ held) (acquireAll h rfl)
    fun _ held' hheld => ?_
  subst hheld
  refine Prog.Climbs.bind hp fun r held' hheld => ?_
  subst hheld
  refine Prog.Climbs.bind (releaseAll hnd rfl) fun _ _ h => h

end Balanced

/-- The range has a byte. -/
def LockRange.Valid (r : LockRange) : Prop := r.start < r.stop

/-- A call that takes a range takes one that has a byte. -/
def Call.RangeValid : Call → Prop
  | .rangeTryLock _ l => l.range.Valid
  | .rangeTest _ l => l.range.Valid
  | .rangeUnlock _ _ range => range.Valid
  | _ => True

/-- Watch the ranges that are passed to the table. -/
def watchRanges : Prog.Ghost Call Call.Ret Lock Unit where
  ans _ _ _ _ := True
  ok c _ _ _ := c.RangeValid
  acq _ s := s
  rel _ s := s
  stuck := True

/-- The program passes only ranges that have a byte. -/
def Asks {α : Type} (p : FsM α) : Prop :=
  FsM.wp watchRanges (fun _ _ => True) (fun _ _ => True) p ()

namespace Asks

variable {α β : Type}
variable {p : FsM α}

lemma bind {f : α → FsM β} (hp : Asks p) (hf : ∀ a, Asks (f a)) : Asks (p >>= f) :=
  (FsM.wp_bind p f).mpr (FsM.wp_conseq hp (fun a _ _ => hf a) (fun _ _ h => h))

lemma mapErr (e : FsError) (hp : Asks p) : Asks (FsM.mapErr e p) := by
  refine (FsM.wp_mapErr e p).mpr (FsM.wp_conseq hp (fun _ _ h => h) fun a _ _ => ?_)
  cases a <;> trivial

lemma guarded {ls : List Lock} (h : Asks p) : Asks (FsM.withGuards ls p) :=
  (FsM.wp_guarded ls p).mpr h

end Asks

/-- The program keeps the order of the locks and passes only ranges that have a byte. -/
structure Orderly {α : Type} (held : List Lock) (p : FsM α) : Prop where
  balanced : Balanced held p
  ranges : Asks p

namespace Orderly

section Control

variable {α β : Type} {held ls : List Lock}

lemma pure (a : α) : Orderly held (Pure.pure a : FsM α) := ⟨rfl, trivial⟩

lemma fail (e : FsError) : Orderly held (FsM.fail e : FsM α) := ⟨rfl, trivial⟩

lemma panicked : Orderly held (FsM.panicked : FsM α) := ⟨rfl, trivial⟩

lemma stuck : Orderly held (FsM.stuck : FsM α) := ⟨trivial, trivial⟩

lemma call (c : Call) (h : c.RangeValid) : Orderly held (FsM.call c) :=
  ⟨fun _ => rfl, fun _ _ _ => ⟨h, trivial⟩⟩

lemma ofExcept (x : Except FsError α) : Orderly held (FsM.ofExcept x) := by
  cases x <;> exact ⟨rfl, trivial⟩

lemma mapStorage (x : Except StorageError α) : Orderly held (FsM.mapStorage x) := by
  cases x <;> exact ⟨rfl, trivial⟩

variable {p q : FsM α} {f : α → FsM β}

lemma bind (hp : Orderly held p) (hf : ∀ a, Orderly held (f a)) : Orderly held (p >>= f) :=
  ⟨hp.balanced.bind fun a => (hf a).balanced, hp.ranges.bind fun a => (hf a).ranges⟩

lemma map (f : α → β) (hp : Orderly held p) : Orderly held (f <$> p) :=
  hp.bind fun a => pure (f a)

lemma mapErr (e : FsError) (hp : Orderly held p) : Orderly held (FsM.mapErr e p) :=
  ⟨hp.balanced.mapErr e, hp.ranges.mapErr e⟩

/-- A guarded section takes its locks in order. -/
lemma withGuards (h : Above held ls) (hp : Orderly (ls.reverse ++ held) p) :
    Orderly held (FsM.withGuards ls p) :=
  ⟨.withGuards h hp.balanced, hp.ranges.guarded⟩

lemma ite {c : Prop} [Decidable c] (hp : Orderly held p) (hq : Orderly held q) :
    Orderly held (if c then p else q) := by
  split
  · exact hp
  · exact hq

lemma asks {c : Call} {f : c.Ret → FsM β} (h : c.RangeValid) (hf : ∀ r, Orderly held (f r)) :
    Orderly held (FsM.call c >>= f) := (call c h).bind hf

lemma check {x : Except FsError α} (hf : ∀ a, Orderly held (f a)) :
    Orderly held (FsM.ofExcept x >>= f) := (ofExcept x).bind hf

lemma join {c : Prop} [Decidable c] {a : α} (hp : Orderly held p)
    (hf : ∀ a, Orderly held (f a)) : Orderly held (if c then p >>= f else f a) :=
  ite (hp.bind hf) (hf a)

/-- The bounds of a range are compared before the table is asked. -/
lemma checked {handle start stop : Nat} {f : Ino → FsM α}
    (hf : start < stop → ∀ ino, Orderly held (f ino)) :
    Orderly held (if start ≥ stop then FsM.fail .invalid
      else handlesGet handle >>= fun found =>
        match found with
        | none => FsM.fail .badHandle
        | some (ino, _) => f ino) := by
  split
  · exact fail _
  rename_i hlt
  refine (call (.handlesGet handle) trivial).bind fun found => ?_
  rcases found with _ | ⟨ino, mode⟩
  · exact fail _
  · exact hf (by omega) ino

end Control

section Pieces

variable {held : List Lock}

lemma dbGet (k : Key) : Orderly held (SlateFs.dbGet k) := (call (.get k) trivial).bind mapStorage

lemma commit (b : Batch) : Orderly held (SlateFs.commit b) :=
  (call (.commit b) trivial).bind mapStorage

lemma reserve (b i : Int64) : Orderly held (SlateFs.reserve b i) :=
  (call (.reserve b i) trivial).bind ofExcept

lemma reserveQuiet (b i : Int64) : Orderly held (SlateFs.reserveQuiet b i) :=
  asks trivial fun _ => pure _

variable (fuel cs : Nat) (v : Volume) (creds : Credentials) (p ino : Ino) (n : Bytes)

lemma loadInode : Orderly held (SlateFs.loadInode ino) :=
  (dbGet (.inode ino)).bind fun
    | none => fail _
    | some i => pure i

lemma loadDir : Orderly held (SlateFs.loadDir ino) :=
  (loadInode ino).bind fun _ => ite (pure _) (fail _)

lemma loadInodeCached : Orderly held (SlateFs.loadInodeCached ino) :=
  (call (.attrsGet ino) trivial).bind fun
    | none => (loadInode ino).bind fun i => asks trivial fun _ => pure i
    | some i => pure i

lemma loadDirCached : Orderly held (SlateFs.loadDirCached ino) :=
  (loadInodeCached ino).bind fun _ => ite (pure _) (fail _)

lemma direntOf : Orderly held (SlateFs.direntOf v p n) :=
  dbGet _

lemma allocIno : Orderly held SlateFs.allocIno := by
  refine asks trivial fun a => ?_
  obtain ⟨ino, renew⟩ := a
  cases renew with
  | none => exact pure ino
  | some stop => exact ((call (.putNextIno stop) trivial).bind mapStorage).bind fun _ => pure ino

lemma makeNode (dir : Inode) (n : Bytes) (mk : Timespec → Inode) (t : Option Bytes) :
    Orderly held (SlateFs.makeNode v p dir n mk t) := by
  refine allocIno.bind fun ino => asks trivial fun ts => Orderly.bind ?_ fun _ => pure _
  refine (reserve 0 1).bind fun _ => (call .now trivial).bind fun ts' => asks trivial fun r => ?_
  cases r with
  | error e => exact asks trivial fun _ => fail _
  | ok u =>
    exact asks trivial fun _ => asks trivial fun _ => call (.removeNegative p n) trivial

/-- The four ways to make a node differ in what they do with a name that is taken. -/
lemma makesNode {v : Volume} {creds : Credentials} {p : Ino} {n : Bytes}
    {f : Inode → Option Dirent → FsM FileAttr} (hf : ∀ dir d, Orderly held (f dir d)) :
    Orderly held (do
      let dir ← SlateFs.loadDir p
      FsM.ofExcept (access creds dir (ACCESS_W ||| ACCESS_X))
      let d ← SlateFs.direntOf v p n
      f dir d) :=
  (loadDir p).bind fun dir => check fun _ => (direntOf v p n).bind fun d => hf dir d

lemma reapChunks (fuel : Nat) : Orderly held (SlateFs.reapChunks ino fuel) := by
  induction fuel with
  | zero => exact stuck
  | succ fuel ih =>
    refine ((call (.scanChunks ino 0) trivial).bind mapStorage).bind fun kvs => ?_
    exact ite (pure _) ((commit _).bind fun _ => ite (pure _) ih)

lemma reapOrphanData : Orderly held (SlateFs.reapOrphanData fuel ino) :=
  (reapChunks ino fuel).bind fun _ =>
    ((call (.scanXattrs ino) trivial).bind mapStorage).bind fun _ => commit _

lemma finishOrphan : Orderly held (SlateFs.finishOrphan fuel ino) := by
  have hrest : Orderly held (attrsRemove ino >>= fun _ => SlateFs.reapOrphanData fuel ino) :=
    asks trivial fun _ => reapOrphanData fuel ino
  exact (dbGet (.inode ino)).bind fun
    | none => hrest
    | some _ => (commit _).bind fun _ => (reserve _ _).bind fun _ => hrest

lemma dropLink (i : Inode) (ts : Timespec) : Orderly held (SlateFs.dropLink ino i ts) := by
  refine ite ?_ (pure _)
  refine asks trivial fun isOpen => ?_
  cases isOpen with
  | true => exact asks trivial fun _ => pure _
  | false => exact pure _

lemma chunkOf (offset chunkSize : Nat) : Orderly held (SlateFs.chunkOf offset chunkSize) :=
  ite panicked (pure _)

lemma planWriteChunks (oldSize newSize offset : Nat) (data : Bytes) (idxs : List Nat) :
    Orderly held (SlateFs.planWriteChunks cs ino oldSize newSize offset data idxs) := by
  induction idxs with
  | nil => exact pure _
  | cons idx rest ih =>
    have hrest : ∀ r, Orderly held (do
        let plan ← SlateFs.planWriteChunks cs ino oldSize newSize offset data rest
        Pure.pure ((idx, writtenChunk cs offset data idx r) :: plan.1,
          Int64.ofNat (billedChunkBytes newSize (idx * cs)
            (writtenChunk cs offset data idx r).length)
            - Int64.ofNat (oldBilled oldSize (idx * cs) r) + plan.2)) :=
      fun _ => ih.bind fun _ => pure _
    exact ite ((pure none).bind hrest) ((dbGet (.chunk ino idx)).bind hrest)

lemma planWrite (oldSize offset : Nat) (data : Bytes) :
    Orderly held (SlateFs.planWrite cs ino oldSize offset data) :=
  (chunkOf _ _).bind fun _ => (chunkOf _ _).bind fun _ =>
    (planWriteChunks _ _ _ _ _ _ _).bind fun _ => pure _

lemma planTruncate (oldSize newSize : Nat) :
    Orderly held (SlateFs.planTruncate cs ino oldSize newSize) :=
  ite (pure _) ((chunkOf _ _).bind fun first =>
    ((call (.scanChunks ino first) trivial).bind mapStorage).bind fun _ => pure _)

lemma readRange (size offset len : Nat) :
    Orderly held (SlateFs.readRange cs ino size offset len) := by
  refine ite (pure _) ((chunkOf _ _).bind fun first => (chunkOf _ _).bind fun last => ?_)
  exact ite ((dbGet _).bind fun _ => pure _)
    (((call .snapshot trivial).bind mapStorage).bind fun _ => pure _)

lemma spillDeletes (groups : List (List Nat)) :
    Orderly held (SlateFs.spillDeletes ino groups) := by
  induction groups with
  | nil => exact pure _
  | cons group rest ih => exact (commit _).bind fun _ => ih

lemma resize (i : Inode) (ts : Timespec) (size : Option Nat) :
    Orderly held (SlateFs.resize v creds ino i ts size) := by
  cases size with
  | none => exact pure _
  | some newSize =>
    unfold SlateFs.resize
    dsimp only
    split
    · exact check fun _ => ite (pure _) ((planTruncate _ _ _ _).bind fun _ =>
        (reserve _ _).bind fun _ => pure _)
    · exact fail _
    · exact fail _

lemma setattrCommit (rs : Resized) (ts : Timespec) :
    Orderly held (SlateFs.setattrCommit ino rs ts) := by
  refine asks trivial fun r => ?_
  cases r with
  | error e => exact asks trivial fun _ => fail _
  | ok u =>
    exact asks trivial fun _ => (spillDeletes _ _).bind fun _ => pure _

lemma reread {v : Volume} {parent : Ino} {name : Bytes} {d : Dirent} {p : FsM Bool}
    (hp : Orderly held p) :
    Orderly held (do
      match ← SlateFs.direntOf v parent name with
      | none => FsM.fail .notFound
      | some d2 =>
        if d2.childIno ≠ d.childIno ∨ d2.direntId ≠ d.direntId then Pure.pure true else p) := by
  exact (direntOf v parent name).bind fun
    | none => fail _
    | some _ => ite (pure _) hp

lemma unlinkLocked (parent : Ino) (name : Bytes) (d : Dirent) :
    Orderly held (SlateFs.unlinkLocked fuel v creds parent name d) := by
  refine reread ((loadDir parent).bind fun dir => check fun _ =>
    ((loadInode d.childIno).mapErr _).bind fun child => ite (fail _) (check fun _ =>
      asks trivial fun ts => (dropLink _ _ _).bind fun b => Orderly.bind ?_ fun _ => pure _))
  refine (commit _).bind fun _ => asks trivial fun _ => asks trivial fun _ => asks trivial fun _ =>
      (reserveQuiet _ _).bind fun _ => ite (reapOrphanData _ _) (pure _)

lemma rmdirLocked (parent : Ino) (name : Bytes) (d : Dirent) :
    Orderly held (SlateFs.rmdirLocked v creds parent name d) :=
  reread ((loadDir parent).bind fun _ => check fun _ =>
    ((loadInode d.childIno).mapErr _).bind fun _ => ite (fail _) (check fun _ =>
      ((call (.scanDirents _) trivial).bind mapStorage).bind fun _ => ite (fail _)
        (asks trivial fun _ => ((call (.scanXattrs _) trivial).bind mapStorage).bind fun _ =>
          (commit _).bind fun _ => asks trivial fun _ => asks trivial fun _ => asks trivial fun _ =>
              (reserveQuiet _ _).bind fun _ => pure _)))

lemma ancestorWalk (moved : Ino) (fuel : Nat) (cursor : Ino) :
    Orderly held (SlateFs.ancestorWalk moved fuel cursor) := by
  induction fuel generalizing cursor with
  | zero => exact stuck
  | succ fuel ih =>
    exact ite (fail _) (ite (pure _) (((loadInode cursor).mapErr _).bind fun i => ih i.parentDir))

lemma replaceTarget (newDir moved : Inode) (ts : Timespec) (dst : Option Dirent) :
    Orderly held (SlateFs.replaceTarget v creds p n newDir moved ts dst) := by
  cases dst with
  | none => exact pure _
  | some d =>
    refine ((loadInode d.childIno).mapErr _).bind fun target => check fun _ => ?_
    split
    · exact fail _
    · exact fail _
    · exact ((call (.scanDirents _) trivial).bind mapStorage).bind fun _ => ite (fail _) (pure _)
    · exact (dropLink _ _ _).bind fun _ => pure _

lemma renameCommit (p' : Ino) (n' : Bytes) (src : Dirent) (dst : Option Dirent)
    (oldDir moved : Inode) (rep : Replaced) (crossing : Bool) (ts : Timespec) :
    Orderly held (SlateFs.renameCommit fuel v p n p' n' src dst oldDir moved rep crossing ts) := by
  have htail : ∀ {k : FsM Unit}, Orderly held k → Orderly held (do
      insertNegative p n
      removeNegative p' n'
      SlateFs.reserveQuiet rep.bytes rep.inodes
      k) :=
    fun hk => asks trivial fun _ => asks trivial fun _ => (reserveQuiet _ _).bind fun _ => hk
  refine (commit _).bind fun _ => asks trivial fun _ =>
    join (a := ()) (call (.attrsInsert _ _) trivial) fun _ => asks trivial fun _ => ?_
  cases dst
  · refine htail ?_
    split
    · exact reapOrphanData _ _
    · exact pure _
  · refine asks trivial fun _ => htail ?_
    split
    · exact reapOrphanData _ _
    · exact pure _

lemma renameLocked (p' : Ino) (n' : Bytes) (src : Dirent) (dst : Option Dirent) :
    Orderly held (SlateFs.renameLocked fuel v creds p n p' n' src dst) := by
  refine (direntOf v p n).bind fun src2 => (direntOf v p' n').bind fun dst2 =>
    ite (pure _) (ite (pure _) (ite (pure _) ?_))
  refine (loadDir p).bind fun oldDir => check fun _ => ?_
  have hrest : ∀ newDir, Orderly held (do
      let moved ← FsM.mapErr .io (SlateFs.loadInode src.childIno)
      FsM.ofExcept (checkSticky creds oldDir moved)
      let crossing := moved.kind.isDir && p ≠ p'
      if crossing then FsM.ofExcept (access creds moved ACCESS_W) else Pure.pure ()
      if crossing then SlateFs.ancestorWalk src.childIno fuel p' else Pure.pure ()
      let ts ← now
      let rep ← SlateFs.replaceTarget v creds p' n' newDir moved ts dst
      SlateFs.renameCommit fuel v p n p' n' src dst oldDir moved rep crossing ts
      Pure.pure false) := by
    intro newDir
    refine ((loadInode src.childIno).mapErr _).bind fun moved => check fun _ =>
      join (a := ()) (ofExcept _) fun _ => join (a := ()) (ancestorWalk _ _ _) fun _ => ?_
    exact asks trivial fun _ => (replaceTarget _ _ _ _ _ _ _ _).bind fun _ =>
      (renameCommit _ _ _ _ _ _ _ _ _ _ _ _ _).bind fun _ => pure _
  exact ite (hrest oldDir) ((loadDir p').bind fun d => check fun _ => hrest d)

end Pieces

/-! ## Operations -/

section Ops

variable {held : List Lock}

lemma many {α : Type} (h : MutexOnly held) {inos : List Ino} {p : FsM α}
    (hp : ∀ held, Orderly held p) : Orderly held (FsM.withGuards (writeMany inos) p) :=
  withGuards (above_writeMany h inos) (hp _)

lemma range {α : Type} {first last : Nat} {p : FsM α} (hp : ∀ held, Orderly held p) :
    Orderly [] (FsM.withGuards (writeRange first last) p) :=
  withGuards (above_writeRange mutexOnly_nil first last) (hp _)

variable (v : Volume) (creds : Credentials) (parent ino : Ino)

lemma removeLoop (name : Bytes) {locked : Nat → Dirent → FsM Bool}
    (hl : ∀ fuel d held, Orderly held (locked fuel d)) (fuel : Nat) :
    Orderly [] (SlateFs.removeLoop v parent name locked fuel) := by
  induction fuel with
  | zero => exact stuck
  | succ fuel ih =>
    exact (direntOf v parent name).bind fun
      | none => fail _
      | some d => (many mutexOnly_nil (hl fuel d)).bind fun _ => ite ih (pure _)

/-- The mutex is held while the rename is tried again. -/
lemma renameLoop (p : Ino) (n : Bytes) (p' : Ino) (n' : Bytes) (fuel : Nat) :
    Orderly [.rename] (SlateFs.renameLoop v creds p n p' n' fuel) := by
  induction fuel with
  | zero => exact stuck
  | succ fuel ih =>
    exact (direntOf v p n).bind fun
      | none => fail _
      | some src => (direntOf v p' n').bind fun dst => Orderly.bind
        (many mutexOnly_rename fun _ => renameLocked _ _ _ _ _ _ _ _ _) fun _ => ite ih (pure _)

lemma maybeUpdateAtime (i : Inode) (policy : AtimeMode) :
    Orderly [] (SlateFs.maybeUpdateAtime ino i policy) := by
  refine asks trivial fun ts => ite (many mutexOnly_nil fun held => ?_) (pure _)
  refine asks trivial fun r => ?_
  rcases r with e | _ | current
  · exact pure _
  · exact pure _
  refine ite (asks trivial fun r => ?_) (pure _)
  cases r with
  | error e => exact pure _
  | ok u => exact call (.attrsInsert _ _) trivial

lemma write (offset : Nat) (data : Bytes) :
    Orderly [] (SlateFs.write v creds ino offset data) := by
  refine ite (pure _) (ite (fail _) (ite (fail _) (many mutexOnly_nil fun held => ?_)))
  refine (loadInode ino).bind fun i => ite (ite (fail _) (fail _)) (check fun _ =>
    (planWrite _ _ _ _ _).bind fun plan => (reserve _ _).bind fun _ => asks trivial fun ts =>
      asks trivial fun r => ?_)
  cases r with
  | error e => exact asks trivial fun _ => fail _
  | ok u => exact asks trivial fun _ => pure _

lemma read (offset len : Nat) (policy : AtimeMode) :
    Orderly [] (readWithAtimePolicy v creds ino offset len policy) := by
  refine (loadInodeCached ino).bind fun i => ?_
  split
  · refine check fun _ => (readRange _ _ _ _ _).bind fun bytes => Orderly.bind ?_ fun _ =>
      (maybeUpdateAtime _ _ _).bind fun _ => pure _
    exact ite (pure _) ((chunkOf _ _).bind fun _ => pure _)
  · exact fail _
  · exact fail _

lemma closeFile (fuel handle : Nat) : Orderly [] (SlateFs.closeFile fuel handle) := by
  refine asks trivial fun closed => ?_
  rcases closed with _ | ⟨ino, mode, last⟩
  · exact fail _
  refine asks trivial fun _ => ite ?_ (pure _)
  exact (dbGet (.orphan ino)).bind fun
    | none => pure _
    | some _ => many mutexOnly_nil fun _ => finishOrphan fuel ino

lemma lookup (name : Bytes) : Orderly [] (SlateFs.lookup v creds parent name) := by
  refine (loadDirCached parent).bind fun dir => check fun _ => ite (pure _)
    (ite ((loadInodeCached _).bind fun _ => pure _)
      (check fun _ => asks trivial fun negative => ?_))
  cases negative with
  | true => exact fail _
  | false =>
    exact (direntOf v parent name).bind fun
      | none => asks trivial fun _ => fail _
      | some d => ((loadInodeCached d.childIno).mapErr _).bind fun _ => pure _

lemma permissions (parent : Option (Ino × Bytes)) :
    Orderly [] (SlateFs.permissions creds ino parent) := by
  refine (loadInode ino).bind fun i => ?_
  rcases parent with _ | ⟨parentIno, name⟩
  · exact pure _
  · exact check fun _ => (loadInode parentIno).bind fun _ => pure _

lemma create (name : Bytes) (mode : UInt32) (exclusive : Bool) :
    Orderly [] (SlateFs.create v creds parent name mode exclusive) := by
  refine check fun _ => many mutexOnly_nil fun held => makesNode fun dir found => ?_
  cases found with
  | none => exact makeNode _ _ _ _ _ _
  | some d =>
    exact ite (fail _) ((loadInode d.childIno).bind fun i => ite (fail _) (check fun _ => pure _))

lemma freshNode {v : Volume} {creds : Credentials} {parent : Ino} {name : Bytes}
    {f : Inode → FsM FileAttr} (hf : ∀ dir, Orderly held (f dir)) :
    Orderly held (do
      let dir ← SlateFs.loadDir parent
      FsM.ofExcept (access creds dir (ACCESS_W ||| ACCESS_X))
      match ← SlateFs.direntOf v parent name with
      | some _ => FsM.fail .exists
      | none => f dir) := by
  refine makesNode fun dir found => ?_
  cases found with
  | none => exact hf dir
  | some d => exact fail _

lemma op (fuel : Nat) (creds : Credentials) (op : Op) : Orderly [] (op.prog v fuel creds) := by
  cases op with
  | lookup p n => exact (lookup v creds p n).map _
  | getattr ino => exact ((loadInodeCached ino).bind fun _ => pure _).map _
  | permissions ino p => exact (permissions creds ino p).map _
  | setattr ino a =>
    refine Orderly.map _ (many mutexOnly_nil fun held => ?_)
    exact (loadInode ino).bind fun _ => asks trivial fun _ => check fun _ =>
      (resize _ _ _ _ _ _).bind fun _ => setattrCommit _ _ _
  | read ino o l policy => exact (read v creds ino o l policy).map _
  | write ino o d => exact (write v creds ino o d).map _
  | create p n m x => exact (create v creds p n m x).map _
  | mkdir p n m =>
    refine Orderly.map _ (check fun _ => many mutexOnly_nil fun held => ?_)
    exact freshNode fun dir => makeNode _ _ _ _ _ _
  | mknod p n m k r =>
    refine Orderly.map _ (check fun _ => check fun _ => many mutexOnly_nil fun held => ?_)
    exact freshNode fun dir => makeNode _ _ _ _ _ _
  | symlink p n t =>
    refine Orderly.map _ (check fun _ => ite (fail _) (many mutexOnly_nil fun held => ?_))
    exact freshNode fun dir => makeNode _ _ _ _ _ _
  | readlink ino =>
    exact Orderly.map _ ((loadInode ino).bind fun i => ite (fail _)
      ((dbGet (.symlink ino)).bind fun
        | none => fail _
        | some x => pure x))
  | link ino p n =>
    refine Orderly.map _ (check fun _ => many mutexOnly_nil fun held => ?_)
    refine (loadInode ino).bind fun i => ite (fail _) (freshNode fun dir => ?_)
    exact asks trivial fun _ => check fun _ => (commit _).bind fun _ =>
      asks trivial fun _ => asks trivial fun _ => asks trivial fun _ => pure _
  | unlink p n =>
    exact Orderly.map _ (check fun _ => removeLoop v p n
      (fun fuel d _ => unlinkLocked fuel v creds p n d) fuel)
  | rmdir p n =>
    exact Orderly.map _ (check fun _ => removeLoop v p n
      (fun _ d _ => rmdirLocked v creds p n d) fuel)
  | rename p n p' n' =>
    exact Orderly.map _ (check fun _ => check fun _ =>
      withGuards above_rename (renameLoop v creds p n p' n' fuel))
  | readdir p c m =>
    exact Orderly.map _ ((loadDirCached p).bind fun _ => check fun _ =>
      ((call (.scanDirentIdxs _ _) trivial).bind mapStorage).bind fun _ => check fun _ => pure _)
  | getxattr ino n =>
    exact Orderly.map _ (ite (fail _) ((loadInode ino).bind fun i => check fun _ =>
      (dbGet (.xattr ino n)).bind fun
        | none => fail _
        | some x => pure x))
  | setxattr ino n x =>
    refine Orderly.map _ (ite (fail _) (Orderly.bind ((call .checkNotOver trivial).bind ofExcept)
      fun _ => many mutexOnly_nil fun held => ?_))
    exact (loadInode ino).bind fun _ => check fun _ => asks trivial fun _ =>
      (commit _).bind fun _ => call (.attrsInsert _ _) trivial
  | listxattr ino =>
    exact Orderly.map _ ((loadInode ino).bind fun _ => check fun _ =>
      ((call (.scanXattrs ino) trivial).bind mapStorage).bind fun _ => pure _)
  | removexattr ino n =>
    refine Orderly.map _ (ite (fail _) (many mutexOnly_nil fun held => ?_))
    exact (loadInode ino).bind fun i => check fun _ => (dbGet (.xattr ino n)).bind fun
      | none => fail _
      | some _ => asks trivial fun _ => (commit _).bind fun _ => call (.attrsInsert _ _) trivial
  | statfs => exact Orderly.map _ (asks trivial fun _ => pure _)
  | fsync => exact Orderly.map _ ((call .flush trivial).bind mapStorage)
  | openFile ino m =>
    exact Orderly.map _ ((loadInode ino).bind fun _ => check fun _ =>
      call (.handlesOpen ino m) trivial)
  | closeFile h => exact (closeFile fuel h).map _
  | lockRange h a b x =>
    refine Orderly.map _ (checked fun hlt ino => ?_)
    refine (call (.rangeTryLock ino ⟨h, ⟨a, b⟩, x⟩) hlt).bind fun r => ?_
    cases r with
    | error l => exact fail _
    | ok u => exact pure _
  | unlockRange h a b =>
    exact Orderly.map _ (checked fun hlt ino => call (.rangeUnlock ino h ⟨a, b⟩) hlt)
  | testLock h a b x =>
    exact Orderly.map _ (checked fun hlt ino =>
      (call (.rangeTest ino ⟨h, ⟨a, b⟩, x⟩) hlt).bind fun _ => pure _)

end Ops

/-! ## Block operations -/

section Block

variable {held : List Lock} (g : BlockVolume)

lemma flushIf (fua : Bool) : Orderly held (BlockVolume.flushIf fua) :=
  ite ((call .flush trivial).bind mapStorage) (pure _)

lemma blockCommit (batch : Batch) (delta : Int64) (fua : Bool) :
    Orderly held (BlockVolume.commit batch delta fua) := by
  refine (reserve delta 0).bind fun _ => asks trivial fun r => ?_
  cases r with
  | error e => exact asks trivial fun _ => fail _
  | ok u => exact flushIf fua

lemma stageAll (lo hi : Nat) (idxs : List Nat) : Orderly held (g.stageAll lo hi idxs) := by
  induction idxs with
  | nil => exact pure _
  | cons idx rest ih =>
    refine Orderly.bind ?_ fun _ => ih.bind fun _ => pure _
    exact (dbGet (.chunk BLOCK_INO idx)).bind fun
      | none => pure _
      | some _ => pure _

lemma trimLoop (range : Option (Nat × Nat)) (fuel : Nat) (staged : List (Write × Int64)) :
    Orderly held (g.trimLoop range fuel staged) := by
  induction fuel generalizing staged with
  | zero => exact stuck
  | succ fuel ih =>
    refine Orderly.bind ?_ fun kvs => ite (pure _) ((blockCommit _ _ _).bind fun _ =>
      ite (pure _) (ih []))
    rcases range with _ | ⟨first, last⟩
    · exact pure _
    · exact ((call (.scanChunks BLOCK_INO first) trivial).bind mapStorage).bind fun _ => pure _

lemma extent {offset len : Nat} {p : FsM Unit} {f : Nat → Nat → FsM Unit} (hp : Orderly [] p)
    (hf : ∀ first last held, Orderly held (f first last)) :
    Orderly [] (do
      match ← g.chunkRange offset len with
      | none => p
      | some (first, last) => FsM.withGuards (writeRange first last) (f first last)) := by
  have hrange : Orderly [] (g.chunkRange offset len) :=
    check fun _ => ite (pure _) ((chunkOf _ _).bind fun _ => (chunkOf _ _).bind fun _ => pure _)
  refine hrange.bind fun found => ?_
  rcases found with _ | ⟨first, last⟩
  · exact hp
  · exact Orderly.range (hf first last)

lemma blockOp (fuel : Nat) (op : BlockOp) : Orderly [] (op.prog g fuel) := by
  cases op with
  | read o l => exact Orderly.map _ (check fun _ => readRange _ _ _ _ _)
  | write o d fua =>
    refine Orderly.map _ (extent g (flushIf fua) fun first last held => ?_)
    exact (planWrite _ _ _ _ _).bind fun _ => blockCommit _ _ _
  | flush => exact Orderly.map _ ((call .flush trivial).bind mapStorage)
  | trim o l =>
    refine Orderly.map _ (extent g (pure ()) fun first last held => ?_)
    exact (stageAll g _ _ _).bind fun _ => trimLoop g _ _ _
  | writeZeroes o l fua =>
    refine Orderly.map _ (extent g (flushIf fua) fun first last held => ?_)
    exact (stageAll g _ _ _).bind fun _ => ite (flushIf fua) (blockCommit _ _ _)

end Block

end Orderly

/-! ## Requests and runs -/

/-- What one operation asks of the lock table. -/
inductive Request where
  | inode (ino : Ino)
  | inodes (inos : List Ino)
  | chunks (first last : Nat)
  /-- The rename mutex, and then some inodes. -/
  | rename (inos : List Ino)

/-- The locks, in the order in which they are taken. -/
def Request.locks : Request → List Lock
  | .inode ino => writeMany [ino]
  | .inodes inos => writeMany inos
  | .chunks first last => writeRange first last
  | .rename inos => .rename :: writeMany inos

/-- The request is for this inode or chunk. -/
def Request.Covers : Request → Nat → Prop
  | .inode ino, i => i = ino
  | .inodes inos, i => i ∈ inos
  | .chunks first last, i => first ≤ i ∧ i ≤ last
  | .rename inos, i => i ∈ inos

lemma Request.stripe_mem {r : Request} {i : Nat} (h : r.Covers i) :
    .stripe (stripeOf i) ∈ r.locks := by
  cases r with
  | inode ino => exact stripe_mem_writeMany (List.mem_singleton.mpr h)
  | inodes inos => exact stripe_mem_writeMany h
  | chunks first last => exact stripe_mem_writeRange h.1 h.2
  | rename inos => exact List.mem_cons_of_mem _ (stripe_mem_writeMany h)

lemma Request.above (r : Request) : Above [] r.locks := by
  cases r with
  | inode ino => exact above_writeMany mutexOnly_nil _
  | inodes inos => exact above_writeMany mutexOnly_nil _
  | chunks first last => exact above_writeRange mutexOnly_nil _ _
  | rename inos =>
    have h := above_writeMany mutexOnly_rename inos
    exact ⟨List.pairwise_cons.mpr ⟨fun l hl => h.2 l hl _ (List.mem_singleton.mpr rfl), h.1⟩, nofun⟩

/-- A program that takes no lock, whatever it is answered. -/
def LockFree {α : Type} (p : FsM α) : Prop := ∀ held, Balanced held p

/-- Tasks that hold the locks of one request while they make any calls, and all calls on a
filesystem volume and on a block volume. Any storage call may fail, and the process may stop
at any time. -/
def striped (v : Volume) (g : BlockVolume) :
    Setting Call Call.Ret Lock St (Except Abort Reply) Unit where
  starts _ p := (∃ (r : Request) (body : FsM Reply), LockFree body ∧
      p = (withGuards r.locks body).run) ∨
    (∃ fuel creds op, p = (Op.prog v fuel creds op).run) ∨
    ∃ fuel op, p = (BlockOp.prog g fuel op).run
  answers := Call.may
  allows _ _ _ := True
  crash _ _ := True
  blank := ()
  note _ _ _ := ()

lemma striped_climbs (v : Volume) (g : BlockVolume) (s : St)
    (p : Prog Call Call.Ret Lock (Except Abort Reply)) (hp : (striped v g).starts s p) :
    Prog.Climbs Lock.rank (fun _ _ => True) p [] := by
  rcases hp with ⟨r, body, hbody, rfl⟩ | ⟨fuel, creds, op, rfl⟩ | ⟨fuel, op, rfl⟩
  · exact (Balanced.withGuards r.above (hbody _)).mono fun _ _ _ => trivial
  · exact (Orderly.op v fuel creds op).balanced.mono fun _ _ _ => trivial
  · exact (Orderly.blockOp g fuel op).balanced.mono fun _ _ _ => trivial

/-- **Requests for the same inode or chunk exclude each other, and nobody waits in a circle.** -/
theorem stripes_exclude_without_deadlock (v : Volume) (g : BlockVolume) (s₀ : St)
    (c : Conf Call Call.Ret Lock St (Except Abort Reply) Unit) (hr : (striped v g).Reached s₀ c) :
    (∀ t u τ σ (r r' : Request) i, t ≠ u → c.tasks.get? t = some τ → c.tasks.get? u = some σ →
      r.Covers i → r'.Covers i → ¬(r.locks ⊆ τ.held ∧ r'.locks ⊆ σ.held)) ∧
    ∀ t, ¬Relation.TransGen c.Waits t t := by
  constructor
  · intro t u τ σ r r' i hne ht hu hi hi' hboth
    exact hne (hr.alone t u τ σ _ ht hu (hboth.1 (r.stripe_mem hi)) (hboth.2 (r'.stripe_mem hi')))
  · intro t
    exact (hr.climbing (striped_climbs v g)).no_circle

/-! ## A run -/

/-- Answer calls from the state, and let storage calls fail when told to. -/
def stripeDriver (env : Env) (v : Volume) (g : BlockVolume) : Setting.Driver (striped v g) where
  handler := Call.answer env
  failure := Call.failure
  admits _ _ _ := true
  answers := Call.may_answer env
  fails := Call.may_fail
  allows _ _ _ _ := trivial

/-- The root's attributes are being changed, and a file is to be made in it. -/
def sameStripe : List (Setting.Move Call Call.Ret Lock St (Except Abort Reply)) :=
  Setting.Move.play 1 2 (Op.prog .plain 4 .root (.setattr 1 { mode := some 0o700 })).run ++
    Setting.Move.play 2 0 (Op.prog .plain 4 .root (.create 1 [97] 0o644 true)).run

/-- The second call has to wait, and nothing waits for it. -/
theorem sameStripe_waits : ∃ c, (striped .plain .tiny).Reached (freshVolume ⟨0, 0⟩ {}) c ∧
    (c.tasks.get? 1).map Task.held = some (Request.inode 1).locks ∧
    (c.tasks.get? 2).map Task.held = some [] ∧ ∀ t, ¬Relation.TransGen c.Waits t t := by
  have hfits : ∀ m ∈ sameStripe, m.Fits (striped .plain .tiny) := by
    have hop : ∀ op s, (striped .plain .tiny).starts s (Op.prog .plain 4 .root op).run :=
      fun op _ => .inr (.inl ⟨4, .root, op, rfl⟩)
    exact List.forall_mem_append.mpr
      ⟨Setting.Move.play_fits (hop _), Setting.Move.play_fits (hop _)⟩
  obtain ⟨c, hr, hc⟩ := Setting.Reached.of_moves (stripeDriver .still .plain .tiny) sameStripe
    (freshVolume ⟨0, 0⟩ {}) (fun c =>
      (c.tasks.get? 1).map Task.held = some (Request.inode 1).locks ∧
      (c.tasks.get? 2).map Task.held = some []) hfits (by decide +kernel)
  exact ⟨c, hr, hc.1, hc.2,
    (stripes_exclude_without_deadlock .plain .tiny (freshVolume ⟨0, 0⟩ {}) c hr).2⟩

end SlateFs
