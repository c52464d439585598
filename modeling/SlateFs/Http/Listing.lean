import SlateFs.Control.Records
import SlateFs.Http.Tokens
import SlateFs.Seq.Readdir
import SlateFs.Snapshot.Agree

/-!
# Listings of the consumer interface

A directory is listed page by page: as long as there is more, a response carries a token with
the cookie of its last entry. A response shows each child with its attributes, the caller's
permissions and, on demand, the target of a link; the first of these that cannot be read fails
the whole page. An empty page has no last entry, so a client that asks for pages of size zero is
told at once that there is no more. Volumes are listed in one page, and what does not fit is left
out.
-/

namespace SlateFs.Http

open Paging (after)

/-- The size of a page: what the request asks for, or 100, within what the server allows. -/
def pageLimit (limit : Option UInt32) (maxPageSize : UInt32) : Nat :=
  min (limit.getD 100).toNat maxPageSize.toNat

/-! ## A request -/

/-- What a response says of an entry. Its texts and identifiers are made from this. -/
structure Entry where
  attr : FileAttr
  parent : Option (Ino × Bytes)
  permission : EntryPermissions
  symlinkTarget : Option Bytes
  deriving DecidableEq

/-- A response; of the token of the next page, the cookie. -/
structure EntryListResponse where
  entry : Entry
  entries : List Entry
  next : Option Nat
  deriving DecidableEq

section Programs

variable (v : Volume) (creds : Credentials) (includeTarget : Bool)

/-- `dto_entry`, the target of a link. -/
def dtoTarget (attr : FileAttr) : FsM (Option Bytes) :=
  if includeTarget ∧ attr.kind = .symlink then do
    let target ← readlink attr.ino
    pure (some target)
  else pure none

def dtoEntry (attr : FileAttr) (parent : Option (Ino × Bytes)) : FsM Entry := do
  let permission ← permissions creds attr.ino parent
  let target ← dtoTarget includeTarget attr
  pure ⟨attr, parent, permission, target⟩

/-- The children on a page, one after another. -/
def dtoEntries (dir : Ino) : List DirEntry → FsM (List Entry)
  | [] => pure []
  | child :: rest => do
    let attr ← getattr child.ino
    let entry ← dtoEntry creds includeTarget attr (some (dir, child.name))
    let entries ← dtoEntries dir rest
    pure (entry :: entries)

/-- `entries`, when `resolve` has found what the request names. -/
def entries (resolved : FileAttr) (parent : Option (Ino × Bytes)) (cookie limit : Nat) :
    FsM EntryListResponse := do
  let entry ← dtoEntry creds includeTarget resolved parent
  if resolved.kind = .dir then
    let page ← readdir v creds resolved.ino cookie limit
    let children ← dtoEntries creds includeTarget resolved.ino page.1
    pure ⟨entry, children, if page.2 then none else page.1.getLast?.map DirEntry.cookie⟩
  else pure ⟨entry, [], none⟩

/-- A request: `resolve` ends with the attributes of the directory. -/
def listEntries (dir : Ino) (parent : Option (Ino × Bytes)) (cookie limit : Nat) :
    FsM EntryListResponse := do
  let resolved ← getattr dir
  entries v creds includeTarget resolved parent cookie limit

end Programs

/-! ## When a request is answered -/

section Yields

variable {α β : Type} {v : Volume} {env : Env} {db : Db} {p : FsM α} {f : α → FsM β}
  {P S : Prop} {Q : α → Prop} {R : β → Prop}

/-- On a store whose caches agree with it the program returns a value just when `P` holds, and then
one with `Q`. -/
def Yields (v : Volume) (env : Env) (db : Db) (p : FsM α) (P : Prop) (Q : α → Prop) : Prop :=
  ∃ x, Reads v env db p x ∧ ((∃ a, x = .ok a) ↔ P) ∧ ∀ a, x = .ok a → Q a

namespace Yields

protected lemma pure {a : α} (h : Q a) : Yields v env db (Pure.pure a : FsM α) True Q :=
  ⟨_, .pure a, ⟨fun _ => trivial, fun _ => ⟨a, rfl⟩⟩, fun _ ha => Except.ok.inj ha ▸ h⟩

/-- What the second program asks for must not depend on what the first one returns. -/
protected lemma bind (h : Yields v env db p P Q) (hf : ∀ a, Q a → Yields v env db (f a) S R) :
    Yields v env db (p >>= f) (P ∧ S) R := by
  obtain ⟨x, hx, hP, hQ⟩ := h
  cases x with
  | error e =>
    refine ⟨.error e, hx.bind (y := fun _ => .error e) nofun, ⟨nofun, fun h => ?_⟩, nofun⟩
    obtain ⟨_, ⟨⟩⟩ := hP.mpr h.1
  | ok a =>
    obtain ⟨y, hy, hS, hR⟩ := hf a (hQ a rfl)
    exact ⟨y, hx.next hy, ⟨fun hok => ⟨hP.mp ⟨a, rfl⟩, hS.mp hok⟩, fun h => hS.mpr h.2⟩, hR⟩

lemma congr (h : Yields v env db p P Q) (hP : P ↔ S) : Yields v env db p S Q :=
  let ⟨x, hx, hok, hval⟩ := h
  ⟨x, hx, hok.trans hP, hval⟩

lemma ofExcept (x : Except FsError α) :
    Yields v env db (FsM.ofExcept x) (∃ a, x = .ok a) (fun a => x = .ok a) :=
  ⟨_, .ofExcept x, exists_congr fun _ => mapError_eq_ok, fun _ => mapError_eq_ok.mp⟩

end Yields

end Yields

section Answered

/-- The parent that a request names the directory by can be shown. -/
def ParentShown (db : Db) : Option (Ino × Bytes) → Prop
  | none => True
  | some (ino, name) => validateName name = .ok () ∧ ∃ i, db.get (.inode ino) = some i

/-- The directory can be shown and read. -/
def DirShown (db : Db) (creds : Credentials) (dir : Ino) (parent : Option (Ino × Bytes)) : Prop :=
  ParentShown db parent ∧ ∃ i, db.get (.inode dir) = some i ∧ access creds i ACCESS_R = .ok ()

/-- The target of a link that is asked for is stored. -/
def TargetShown (db : Db) (includeTarget : Bool) (ino : Ino) : Prop :=
  includeTarget = true → ∀ i, db.get (.inode ino) = some i → i.kind = .symlink →
    ∃ target, db.get (.symlink ino) = some target

/-- A child can be shown: its name opens and is a name, and its node is stored. -/
def ChildShown (v : Volume) (db : Db) (includeTarget : Bool) (dir : Ino) (x : DirentIdx) : Prop :=
  ∃ name, v.names.openName dir x.encName = some name ∧ validateName name = .ok () ∧
    (∃ i, db.get (.inode x.childIno) = some i) ∧ TargetShown db includeTarget x.childIno

/-- The entry of a response shows the child. -/
def Shows (v : Volume) (dir : Ino) (kv : Nat × DirentIdx) (e : Entry) : Prop :=
  e.attr.ino = kv.2.childIno ∧ ∃ name, v.names.openName dir kv.2.encName = some name ∧
    e.parent = some (dir, name)

/-- The children behind a cookie. -/
def behind (db : Db) (dir : Ino) (cookie : Nat) : List (Nat × DirentIdx) :=
  after Prod.fst cookie (db.listed dir)

/-- A response gives the first of some children, and where to go on. -/
structure IsPage (v : Volume) (dir : Ino) (n : Nat) (kvs : List (Nat × DirentIdx))
    (r : EntryListResponse) : Prop where
  entries : List.Forall₂ (Shows v dir) (kvs.take n) r.entries
  next : r.next = if kvs.length ≤ n then none else (kvs.take n).getLast?.map Prod.fst

variable {v : Volume} {env : Env} {db : Db} {creds : Credentials} {includeTarget : Bool}
  {dir ino : Ino} {i : Inode} {parent : Option (Ino × Bytes)} {cookie n : Nat}
  {page : List DirEntry} {kvs : List (Nat × DirentIdx)}

lemma foundOr_eq_ok {missing : FsError} {i : Inode} :
    foundOr missing db ino = .ok i ↔ db.get (.inode ino) = some i := by
  unfold foundOr
  split
  · rename_i j hj
    rw [hj]
    exact ⟨fun h => congrArg some (Except.ok.inj h), fun h => congrArg _ (Option.some.inj h)⟩
  · rename_i hnone
    rw [hnone]
    exact ⟨nofun, nofun⟩

lemma yields_loadInode (ino : Ino) : Yields v env db (loadInode ino)
    (∃ i, db.get (.inode ino) = some i) (fun i => db.get (.inode ino) = some i) :=
  ⟨_, .loadInode ino, exists_congr fun _ => foundOr_eq_ok, fun _ => foundOr_eq_ok.mp⟩

lemma yields_loadInodeCached (ino : Ino) : Yields v env db (loadInodeCached ino)
    (∃ i, db.get (.inode ino) = some i) (fun i => db.get (.inode ino) = some i) :=
  ⟨_, .loadInodeCached ino, exists_congr fun _ => foundOr_eq_ok, fun _ => foundOr_eq_ok.mp⟩

lemma yields_getattr (ino : Ino) : Yields v env db (getattr ino)
    (∃ i, db.get (.inode ino) = some i)
    (fun attr => ∃ i, db.get (.inode ino) = some i ∧ attr = makeAttr ino i) :=
  Yields.congr ((yields_loadInodeCached ino).bind fun i hi => .pure ⟨i, hi, rfl⟩)
    (and_iff_left trivial)

lemma yields_permissions (creds : Credentials) (parent : Option (Ino × Bytes))
    (hi : db.get (.inode ino) = some i) :
    Yields v env db (permissions creds ino parent) (ParentShown db parent) fun _ => True := by
  rcases parent with _ | ⟨p, name⟩
  · refine Yields.congr ((yields_loadInode ino).bind fun _ _ => .pure trivial) ?_
    exact ⟨fun _ => trivial, fun _ => ⟨⟨i, hi⟩, trivial⟩⟩
  · refine Yields.congr ((yields_loadInode ino).bind fun i _ => (Yields.ofExcept _).bind fun _ _ =>
      (yields_loadInode p).bind fun _ _ => .pure trivial) ?_
    exact ⟨fun ⟨_, ⟨_, hname⟩, hp, _⟩ => ⟨hname, hp⟩,
      fun ⟨hname, hp⟩ => ⟨⟨i, hi⟩, ⟨_, hname⟩, hp, trivial⟩⟩

lemma yields_dtoTarget (hi : db.get (.inode ino) = some i) :
    Yields v env db (dtoTarget includeTarget (makeAttr ino i)) (TargetShown db includeTarget ino)
      fun _ => True := by
  unfold dtoTarget
  split
  · rename_i hasked
    have hlink : foundLink db ino = (db.get (.symlink ino)).elim (.error (.err .io)) .ok := by
      unfold foundLink
      rw [foundInode, foundOr_some hi]
      exact if_neg (not_not_intro hasked.2)
    have hread : Yields v env db (readlink ino) (∃ t, db.get (.symlink ino) = some t)
        fun _ => True := by
      refine ⟨_, .readlink ino, ?_, fun _ _ => trivial⟩
      rw [hlink]
      cases db.get (.symlink ino) with
      | none => refine iff_of_false ?_ ?_ <;> rintro ⟨_, ⟨⟩⟩
      | some t => exact iff_of_true ⟨t, rfl⟩ ⟨t, rfl⟩
    refine Yields.congr (hread.bind fun _ _ => .pure trivial) ?_
    exact ⟨fun h _ _ _ _ => h.1, fun h => ⟨h hasked.1 i hi hasked.2, trivial⟩⟩
  · rename_i hnot
    refine Yields.congr (.pure trivial) (iff_of_true trivial fun hinclude j hj hkind => ?_)
    obtain rfl : i = j := Option.some.inj (hi.symm.trans hj)
    exact absurd ⟨hinclude, hkind⟩ hnot

lemma yields_dtoEntry (creds : Credentials) (parent : Option (Ino × Bytes))
    (hi : db.get (.inode ino) = some i) :
    Yields v env db (dtoEntry creds includeTarget (makeAttr ino i) parent)
      (ParentShown db parent ∧ TargetShown db includeTarget ino)
      fun e => e.attr = makeAttr ino i ∧ e.parent = parent :=
  Yields.congr ((yields_permissions creds parent hi).bind fun _ _ =>
    (yields_dtoTarget hi).bind fun _ _ => .pure ⟨rfl, rfl⟩)
    (and_congr_right' (and_iff_left trivial))

/-- The children of a page are shown when each of them can be, and fail together. -/
lemma yields_dtoEntries (creds : Credentials) (hdir : ∃ d, db.get (.inode dir) = some d)
    (hopen : List.Forall₂ (Opens v dir) kvs page) :
    Yields v env db (dtoEntries creds includeTarget dir page)
      (∀ kv ∈ kvs, ChildShown v db includeTarget dir kv.2) (List.Forall₂ (Shows v dir) kvs) := by
  induction hopen with
  | nil => exact Yields.congr (.pure .nil) (iff_of_true trivial nofun)
  | @cons kv e kvs page ho _ ih =>
    obtain ⟨-, hino, -, hname⟩ := ho
    refine ((yields_getattr e.ino).bind (S := (ParentShown db (some (dir, e.name)) ∧
      TargetShown db includeTarget e.ino) ∧ (∀ kv ∈ kvs, ChildShown v db includeTarget dir kv.2) ∧
      True) fun attr hattr => ?_).congr ?_
    · obtain ⟨i, hi, rfl⟩ := hattr
      refine (yields_dtoEntry creds (some (dir, e.name)) hi).bind fun e' he' =>
        ih.bind fun es hes => .pure (.cons ⟨?_, e.name, hname, he'.2⟩ hes)
      rw [he'.1, ← hino]
      rfl
    rw [List.forall_mem_cons, ChildShown, ← hino]
    constructor
    · rintro ⟨hnode, ⟨⟨hvalid, -⟩, htarget⟩, hrest, -⟩
      exact ⟨⟨e.name, hname, hvalid, hnode, htarget⟩, hrest⟩
    · rintro ⟨⟨name, hname', hvalid, hnode, htarget⟩, hrest⟩
      obtain rfl := Option.some.inj (hname.symm.trans hname')
      exact ⟨hnode, ⟨⟨hvalid, hdir⟩, htarget⟩, hrest, trivial⟩

lemma yields_loadDirCached (hi : db.get (.inode dir) = some i) (hkind : i.kind = .dir) :
    Yields v env db (loadDirCached dir) True fun j => j = i := by
  have hfound : foundDir db dir = .ok i := by
    rw [foundDir, foundInode, foundOr_some hi]
    exact if_pos (by rw [hkind]; rfl)
  refine ⟨_, .loadDirCached dir, ?_, fun j hj => ?_⟩
  · exact iff_of_true ⟨i, hfound⟩ trivial
  · exact Except.ok.inj (hj.symm.trans hfound)

lemma exists_openEntries (h : ∀ kv ∈ kvs, ∃ name, v.names.openName dir kv.2.encName = some name) :
    ∃ page, openEntries v dir kvs = .ok page := by
  induction kvs with
  | nil => exact ⟨[], rfl⟩
  | cons kv rest ih =>
    obtain ⟨⟨name, hname⟩, hrest⟩ := List.forall_mem_cons.mp h
    obtain ⟨page, hpage⟩ := ih hrest
    obtain ⟨id, x⟩ := kv
    refine ⟨⟨name, x.childIno, x.kind, id⟩ :: page, ?_⟩
    simp only [openEntries, hname, hpage]
    rfl

lemma yields_readdir (hi : db.get (.inode dir) = some i) (hkind : i.kind = .dir) :
    Yields v env db (readdir v creds dir cookie n)
      ((∃ j, db.get (.inode dir) = some j ∧ access creds j ACCESS_R = .ok ()) ∧
        ∃ page, openEntries v dir ((behind db dir cookie).take n) = .ok page)
      fun out => List.Forall₂ (Opens v dir) ((behind db dir cookie).take n) out.1 ∧
        out.2 = decide ((behind db dir cookie).length ≤ n) := by
  have hscan : Yields v env db (scanDirentIdxs dir (nextCookie cookie)) True fun kvs =>
      kvs.filter (fun kv => kv.1 < 2 ^ 64 - 1) = behind db dir cookie := by
    refine ⟨_, .scanDirentIdxs dir _, iff_of_true ⟨_, rfl⟩ trivial, fun kvs hkvs => ?_⟩
    obtain rfl := Except.ok.inj hkvs
    exact scan_eq_after db cookie
  refine Yields.congr ((yields_loadDirCached hi hkind).bind (S := (∃ u, access creds i ACCESS_R =
    .ok u) ∧ True ∧ (∃ page, openEntries v dir ((behind db dir cookie).take n) = .ok page) ∧ True)
    fun j hj => ?_) ?_
  · subst hj
    refine (Yields.ofExcept _).bind fun _ _ => hscan.bind fun kvs hkvs => ?_
    simp only [hkvs]
    exact (Yields.ofExcept _).bind fun page hpage => .pure ⟨openEntries_ok hpage, rfl⟩
  · constructor
    · rintro ⟨-, ⟨⟨⟩, haccess⟩, -, hpage, -⟩
      exact ⟨⟨i, hi, haccess⟩, hpage⟩
    · rintro ⟨⟨j, hj, haccess⟩, hpage⟩
      obtain rfl := Option.some.inj (hi.symm.trans hj)
      exact ⟨trivial, ⟨(), haccess⟩, trivial, hpage, trivial⟩

/-- **A request is answered** when the directory and all children on the page can be shown. The
response gives the first children behind the cookie, and where to go on. -/
lemma yields_listEntries (hkind : ∀ i, db.get (.inode dir) = some i → i.kind = .dir) :
    Yields v env db (listEntries v creds includeTarget dir parent cookie n)
      (DirShown db creds dir parent ∧ ∀ kv ∈ (behind db dir cookie).take n,
        ChildShown v db includeTarget dir kv.2)
      (IsPage v dir n (behind db dir cookie)) := by
  refine Yields.congr ((yields_getattr dir).bind (S := (ParentShown db parent ∧
    TargetShown db includeTarget dir) ∧ ((∃ j, db.get (.inode dir) = some j ∧
    access creds j ACCESS_R = .ok ()) ∧ ∃ page, openEntries v dir
      ((behind db dir cookie).take n) = .ok page) ∧ (∀ kv ∈ (behind db dir cookie).take n,
      ChildShown v db includeTarget dir kv.2) ∧ True) fun attr hattr => ?_) ?_
  · obtain ⟨i, hi, rfl⟩ := hattr
    refine (yields_dtoEntry creds parent hi).bind fun entry _ => ?_
    rw [if_pos (show (makeAttr dir i).kind = .dir from hkind i hi)]
    refine (yields_readdir hi (hkind i hi)).bind fun out hout =>
      (yields_dtoEntries creds ⟨i, hi⟩ hout.1).bind fun es hes => .pure ⟨hes, ?_⟩
    simp only [hout.2, decide_eq_true_eq]
    rw [← List.getLast?_map, ← List.getLast?_map, cookies_of_opens hout.1]
  · constructor
    · rintro ⟨-, ⟨hparent, -⟩, ⟨hdir, -⟩, hshown, -⟩
      exact ⟨⟨hparent, hdir⟩, hshown⟩
    · rintro ⟨⟨hparent, i, hi, haccess⟩, hshown⟩
      have htarget : TargetShown db includeTarget dir := fun _ j hj hlink => by
        cases hlink.symm.trans (hkind j hj)
      have hopen := exists_openEntries fun kv hkv =>
        let ⟨name, hname, _⟩ := hshown kv hkv
        ⟨name, hname⟩
      exact ⟨⟨i, hi⟩, ⟨hparent, htarget⟩, ⟨⟨i, hi, haccess⟩, hopen⟩, hshown, trivial⟩

end Answered

/-! ## Following the tokens -/

/-- What a client is given that follows the tokens from a cookie until none is returned;
`answers k` says how the request number `k` is answered. -/
inductive Followed (answers : Nat → Nat → EntryListResponse → Prop) :
    Nat → Nat → List Entry → Prop where
  | last {k cookie : Nat} {r : EntryListResponse} (h : answers k cookie r) (hnext : r.next = none) :
      Followed answers k cookie r.entries
  | more {k cookie c : Nat} {r : EntryListResponse} {es : List Entry} (h : answers k cookie r)
      (hnext : r.next = some c) (hrest : Followed answers (k + 1) c es) :
      Followed answers k cookie (r.entries ++ es)

section Entries

variable (v : Volume) (creds : Credentials) (includeTarget : Bool) (dir : Ino)
  (parent : Option (Ino × Bytes)) (n : Nat) (db : Db)

/-- A state in which the directory is as in `db`: it is listed alike, and shown alike. The caches
hold what is stored. -/
structure Unchanged (s : St) : Prop where
  agrees : Agrees v s
  isDir : ∀ i, s.db.get (.inode dir) = some i → i.kind = .dir
  listed : s.db.listed dir = db.listed dir
  dirShown : DirShown s.db creds dir parent ↔ DirShown db creds dir parent
  childShown : ∀ kv ∈ db.listed dir, (ChildShown v s.db includeTarget dir kv.2 ↔
    ChildShown v db includeTarget dir kv.2)

/-- The requests run one after another, each alone on its state. -/
def Answers (envs : Nat → Env) (states : Nat → St) (k cookie : Nat) (r : EntryListResponse) :
    Prop :=
  resultOf (envs k) (listEntries v creds includeTarget dir parent cookie n) (states k) =
    some (.ok r)

/-- The children of the directory come one by one, each once, and nothing else comes. -/
def Complete (es : List Entry) : Prop := List.Forall₂ (Shows v dir) (db.direntIdxsFrom dir 0) es

variable {v creds includeTarget dir parent n db} {envs : Nat → Env} {states : Nat → St}
  {k cookie : Nat} {r : EntryListResponse} {es : List Entry}

section

variable (h : ∀ k, Unchanged v creds includeTarget dir parent db (states k))
include h

lemma exists_answers_iff (envs : Nat → Env) (k cookie : Nat) :
    (∃ r, Answers v creds includeTarget dir parent n envs states k cookie r) ↔
      DirShown db creds dir parent ∧ ∀ kv ∈ (behind db dir cookie).take n,
        ChildShown v db includeTarget dir kv.2 := by
  obtain ⟨x, hx, hok, -⟩ : Yields v (envs k) (states k).db
      (listEntries v creds includeTarget dir parent cookie n) _ _ := yields_listEntries (h k).isDir
  simp only [Answers, hx.returns.resultOf (h k).agrees, Option.some.injEq]
  rw [hok, (h k).dirShown, behind, (h k).listed]
  refine and_congr_right' (forall₂_congr fun kv hkv => ?_)
  exact (h k).childShown kv (Paging.mem_after.mp (List.mem_of_mem_take hkv)).1

lemma Answers.isPage (ha : Answers v creds includeTarget dir parent n envs states k cookie r) :
    IsPage v dir n (behind db dir cookie) r := by
  obtain ⟨x, hx, -, hpage⟩ : Yields v (envs k) (states k).db
      (listEntries v creds includeTarget dir parent cookie n) _ _ := yields_listEntries (h k).isDir
  rw [behind, (h k).listed] at hpage
  rw [Answers, hx.returns.resultOf (h k).agrees] at ha
  exact hpage r (Option.some.inj ha)

/-- With room for an entry on a page, all that is behind the cookie is given in order. -/
lemma Followed.shows (hn : 0 < n)
    (hf : Followed (Answers v creds includeTarget dir parent n envs states) k cookie es) :
    List.Forall₂ (Shows v dir) (behind db dir cookie) es ∧
      ∀ kv ∈ behind db dir cookie, ChildShown v db includeTarget dir kv.2 := by
  induction hf with
  | @last k cookie r ha hnext =>
    obtain ⟨-, hshown⟩ := (exists_answers_iff h envs k cookie).mp ⟨r, ha⟩
    obtain ⟨hshows, htoken⟩ := ha.isPage h
    rw [hnext] at htoken
    split at htoken
    · rename_i hle
      rw [List.take_of_length_le hle] at hshows hshown
      exact ⟨hshows, hshown⟩
    · rename_i hgt
      have hnil := List.getLast?_eq_none_iff.mp (Option.map_eq_none_iff.mp htoken.symm)
      rcases List.take_eq_nil_iff.mp hnil with rfl | hnil
      · exact absurd hn (lt_irrefl 0)
      · exact absurd (Nat.zero_le n) (by rwa [hnil] at hgt)
  | @more k cookie c r es ha hnext hrest ih =>
    obtain ⟨-, hshown⟩ := (exists_answers_iff h envs k cookie).mp ⟨r, ha⟩
    obtain ⟨hshows, htoken⟩ := ha.isPage h
    rw [hnext] at htoken
    split at htoken
    · cases htoken
    obtain ⟨kv, hkv, rfl⟩ := Option.map_eq_some_iff.mp htoken.symm
    rw [behind, Paging.after_last (listed_sorted db) hkv] at ih
    rw [← List.take_append_drop n (behind db dir cookie)]
    exact ⟨List.rel_append hshows ih.1, List.forall_mem_append.mpr ⟨hshown, ih.2⟩⟩

/-- Without room for an entry nothing is given. -/
lemma Followed.eq_nil
    (hf : Followed (Answers v creds includeTarget dir parent 0 envs states) k cookie es) :
    es = [] := by
  cases hf with
  | last ha _ => exact List.forall₂_nil_left_iff.mp (ha.isPage h).entries
  | more ha hnext _ =>
    have htoken := (ha.isPage h).next
    rw [hnext] at htoken
    split at htoken <;> cases htoken

/-- Where the children can be shown, the tokens come to an end. -/
lemma exists_followed (envs : Nat → Env) (hdir : DirShown db creds dir parent)
    (hshown : ∀ kv ∈ db.listed dir, ChildShown v db includeTarget dir kv.2) (k cookie : Nat) :
    ∃ es, Followed (Answers v creds includeTarget dir parent n envs states) k cookie es := by
  -- what is behind the cookie gets less with every page
  generalize hlen : (behind db dir cookie).length = len
  induction len using Nat.strong_induction_on generalizing k cookie with
  | _ len ih =>
    obtain ⟨r, ha⟩ := (exists_answers_iff h envs k cookie).mpr ⟨hdir, fun kv hkv =>
      hshown kv (Paging.mem_after.mp (List.mem_of_mem_take hkv)).1⟩
    cases hnext : r.next with
    | none => exact ⟨_, .last ha hnext⟩
    | some c =>
      have htoken := (ha.isPage h).next
      rw [hnext] at htoken
      split at htoken
      · cases htoken
      obtain ⟨kv, hkv, rfl⟩ := Option.map_eq_some_iff.mp htoken.symm
      have hpos : 0 < n := Nat.pos_of_ne_zero fun hn => by
        rw [hn] at hkv
        cases hkv
      have hshort : (behind db dir kv.1).length < len := by
        rw [behind, Paging.after_last (listed_sorted db) hkv, ← behind, List.length_drop]
        omega
      obtain ⟨es, hrest⟩ := ih _ hshort (k + 1) kv.1 rfl
      exact ⟨_, .more ha hnext hrest⟩

lemma complete_iff (envs : Nat → Env) :
    (∃ es, Followed (Answers v creds includeTarget dir parent n envs states) 0 0 es ∧
      Complete v dir db es) ↔
    DirShown db creds dir parent ∧ ∀ id x, db.direntIdxs.get? (toLex (dir, id)) = some x →
      0 < n ∧ 0 < id ∧ id < 2 ^ 64 - 1 ∧ ChildShown v db includeTarget dir x := by
  constructor
  · rintro ⟨es, hf, hcomplete⟩
    have hdir : DirShown db creds dir parent := by
      cases hf with
      | last ha _ => exact ((exists_answers_iff h envs 0 0).mp ⟨_, ha⟩).1
      | more ha _ _ => exact ((exists_answers_iff h envs 0 0).mp ⟨_, ha⟩).1
    refine ⟨hdir, fun id x hx => ?_⟩
    have hmem := mem_direntIdxsFrom.mpr ⟨hx, Nat.zero_le id⟩
    rcases Nat.eq_zero_or_pos n with rfl | hn
    · rw [hf.eq_nil h] at hcomplete
      rw [List.forall₂_nil_right_iff.mp hcomplete] at hmem
      cases hmem
    -- as many are given as are behind the cookie, so all of them are
    obtain ⟨hshows, hshown⟩ := hf.shows h hn
    have hall : (behind db dir 0).length = (db.direntIdxsFrom dir 0).length :=
      hshows.length_eq.trans hcomplete.length_eq.symm
    rw [behind, after, Db.listed, List.filter_filter, List.length_filter_eq_length_iff] at hall
    have hid := hall (id, x) hmem
    simp only [Bool.and_eq_true, decide_eq_true_eq] at hid
    refine ⟨hn, hid.1, hid.2, hshown (id, x) (Paging.mem_after.mpr ⟨?_, hid.1⟩)⟩
    exact mem_listed.mpr ⟨hx, hid.2⟩
  · rintro ⟨hdir, hids⟩
    have hchildren : ∀ kv ∈ db.direntIdxsFrom dir 0, 0 < n ∧ 0 < kv.1 ∧ kv.1 < 2 ^ 64 - 1 ∧
        ChildShown v db includeTarget dir kv.2 :=
      fun kv hkv => hids kv.1 kv.2 (mem_direntIdxsFrom.mp hkv).1
    have hafter : behind db dir 0 = db.direntIdxsFrom dir 0 := by
      rw [behind, after, Db.listed, List.filter_filter, List.filter_eq_self]
      intro kv hkv
      obtain ⟨-, hpos, hmax, -⟩ := hchildren kv hkv
      exact Bool.and_eq_true_iff.mpr ⟨decide_eq_true hpos, decide_eq_true hmax⟩
    obtain ⟨es, hf⟩ := exists_followed h envs hdir
      (fun kv hkv => (hchildren kv (List.mem_of_mem_filter hkv)).2.2.2) 0 0
    refine ⟨es, hf, ?_⟩
    rcases Nat.eq_zero_or_pos n with rfl | hn
    · -- a page without room is complete when there is nothing to list
      have hnone : db.direntIdxsFrom dir 0 = [] :=
        List.eq_nil_iff_forall_not_mem.mpr fun kv hkv => absurd (hchildren kv hkv).1 (lt_irrefl 0)
      rw [Complete, hnone, hf.eq_nil h]
      exact .nil
    · rw [Complete, ← hafter]
      exact (hf.shows h hn).1

end

end Entries

/-! ## Volumes -/

/-- `list_volumes`: the records of a tenant that are on the page, from which the summaries are
made one by one, and the token of the next page. -/
def listVolumes (records : List VolumeRecord) (maxPageSize : UInt32) (limit : Option UInt32)
    (pageToken : Option (List Char)) :
    Except HttpError (List VolumeRecord × Option (List Char)) :=
  if pageToken.isSome then .error ⟨.invalidRequest, "volume page tokens are not supported"⟩
  else .ok ((records.filter (fun r => r.state = .active)).take (pageLimit limit maxPageSize), none)

/-- Every active volume is given, and given once, and there is no other page. -/
def VolumesSeen (records : List VolumeRecord) (maxPageSize : UInt32) (limit : Option UInt32) :
    Prop :=
  ∃ seen, listVolumes records maxPageSize limit none = .ok (seen, none) ∧
    ∀ r ∈ records, r.state = .active → seen.count r = 1

lemma volumesSeen_iff {records : List VolumeRecord} (hnd : records.Nodup)
    (maxPageSize : UInt32) (limit : Option UInt32) :
    VolumesSeen records maxPageSize limit ↔
      (records.filter (fun r => r.state = .active)).length ≤ pageLimit limit maxPageSize := by
  have hactive := hnd.filter (fun r => decide (r.state = .active))
  constructor
  · rintro ⟨seen, hseen, h⟩
    cases hseen
    have hsub : records.filter (fun r => r.state = .active) ⊆
        (records.filter (fun r => r.state = .active)).take (pageLimit limit maxPageSize) := by
      intro r hr
      obtain ⟨hmem, hr⟩ := List.mem_filter.mp hr
      refine List.count_pos_iff.mp ?_
      rw [h r hmem (of_decide_eq_true hr)]
      exact one_pos
    exact (hactive.subperm hsub).length_le.trans (List.length_take_le ..)
  · intro h
    refine ⟨_, rfl, fun r hmem hr => ?_⟩
    rw [List.take_of_length_le h]
    exact List.count_eq_one_of_mem hactive (List.mem_filter.mpr ⟨hmem, decide_eq_true hr⟩)

/-- A root directory with a file and a link. -/
def fileAndLink : St := St.checkpoint
  { freshVolume ⟨0, 0⟩ {} with
    db := (mkfs ⟨0, 0⟩).apply
      [.put (.inode 2) (Inode.new .file 0o644 0 0 ⟨0, 0⟩),
        .put (.dirent 1 [102]) (Dirent.mk [102] 2 .file 3),
        .put (.direntIdx 1 3) (DirentIdx.mk [102] 2 .file),
        .put (.inode 3) (Inode.new .symlink 0o777 0 0 ⟨0, 0⟩),
        .put (.symlink 3) [102],
        .put (.dirent 1 [108]) (Dirent.mk [108] 3 .symlink 4),
        .put (.direntIdx 1 4) (DirentIdx.mk [108] 3 .symlink)] }

lemma root_fileAndLink : fileAndLink.db.get (.inode 1) = some (rootInode ⟨0, 0⟩) := by
  show fileAndLink.db.inodes.get? 1 = _
  decide +kernel

lemma unchanged_fileAndLink :
    Unchanged .plain .root true 1 none fileAndLink.db fileAndLink where
  agrees := agrees_checkpoint _ _
  isDir i hi := by
    obtain rfl := Option.some.inj (root_fileAndLink.symm.trans hi)
    rfl
  listed := rfl
  dirShown := Iff.rfl
  childShown _ _ := Iff.rfl

lemma dirShown_fileAndLink : DirShown fileAndLink.db .root 1 none :=
  ⟨trivial, rootInode ⟨0, 0⟩, root_fileAndLink, by decide⟩

lemma children_fileAndLink : fileAndLink.db.direntIdxsFrom 1 0 =
    [(3, ⟨[102], 2, .file⟩), (4, ⟨[108], 3, .symlink⟩)] := by
  decide +kernel

lemma shown_fileAndLink : ∀ kv ∈ fileAndLink.db.direntIdxsFrom 1 0,
    ChildShown .plain fileAndLink.db true 1 kv.2 := by
  have hfile : fileAndLink.db.inodes.get? 2 = some (Inode.new .file 0o644 0 0 ⟨0, 0⟩) := by
    decide +kernel
  have hlink : fileAndLink.db.inodes.get? 3 = some (Inode.new .symlink 0o777 0 0 ⟨0, 0⟩) := by
    decide +kernel
  have htarget : fileAndLink.db.symlinks.get? 3 = some [102] := by decide +kernel
  rw [children_fileAndLink]
  refine List.forall_mem_cons.mpr ⟨?_, List.forall_mem_singleton.mpr ?_⟩
  · refine ⟨[102], rfl, by decide, ⟨_, hfile⟩, fun _ i hi hkind => ?_⟩
    obtain rfl := Option.some.inj (hfile.symm.trans hi)
    cases hkind
  · exact ⟨[108], rfl, by decide, ⟨_, hlink⟩, fun _ _ _ _ => ⟨[102], htarget⟩⟩

def plainRecord (name : String) (state : VolumeState) : VolumeRecord :=
  ⟨"t", name, state, none, none, 7, [1], .aes256Gcm, 4096, .none, {}, .filesystem, none, 0⟩

end SlateFs.Http
