import SlateFs.Lib.Paging
import SlateFs.Seq.Quiet
import SlateFs.Seq.Runs

/-!
# Paging through a directory

A client lists a directory page by page, each from the cookie of the last entry it
was given, until a page says that it was the last one. Others change the directory
meanwhile. A page is one scan of the index, so a listing is a case of
`SlateFs.Lib.Paging` over the index as each scan found it.
-/

namespace SlateFs

open OrdMap FsM

variable {v : Volume} {creds : Credentials} {parent : Ino} {maxEntries : Nat}

/-! ## Executions of an operation among others -/

variable {calls : List (Call × St)} {kvs : List (Nat × DirentIdx)} {es : List DirEntry}
  {cookie : Nat} {out : List DirEntry × Bool}

lemma among_bind {α β : Type} {p : FsM α} {f : α → FsM β} {b : β}
    (h : Prog.Among Call.may (p >>= f).run calls (.ok b)) :
    ∃ c₁ c₂ a, Prog.Among Call.may p.run c₁ (.ok a) ∧ Prog.Among Call.may (f a).run c₂ (.ok b) ∧
      calls = c₁ ++ c₂ := by
  obtain ⟨c₁, c₂, a, h₁, h₂, rfl⟩ := h.of_bind
  cases a with
  | ok a => exact ⟨c₁, c₂, a, h₁, h₂, rfl⟩
  | error e => cases h₂

lemma among_ofExcept {α : Type} {x : Except FsError α} {a : α}
    (h : Prog.Among Call.may (ofExcept x).run calls (.ok a)) : x = .ok a := by
  cases x with
  | ok b => cases h; rfl
  | error e => cases h

/-- The scan of a page found the index of some state. -/
lemma among_scanDirentIdxs {first : Nat}
    (h : Prog.Among Call.may (scanDirentIdxs parent first).run calls (.ok kvs)) :
    ∃ s, (Call.scanDirentIdxs parent first, s) ∈ calls ∧
      kvs = s.db.direntIdxsFrom parent first := by
  obtain ⟨c₁, c₂, r, h₁, h₂, rfl⟩ := among_bind h
  cases h₁ with
  | @call c k s s' r' calls a hmay hk =>
    cases hk
    refine ⟨s, by simp, ?_⟩
    rcases hmay with ⟨env, he⟩ | ⟨hf, _⟩
    · have hr : (.ok (s.db.direntIdxsFrom parent first) : Except StorageError _) = r :=
        (Prod.mk.inj he).1
      subst hr
      cases h₂
      rfl
    · have hr : (.error .engine : Except StorageError (List (Nat × DirentIdx))) = r :=
        Option.some.inj hf
      subst hr
      cases h₂

/-! ## A listing -/

/-- One page: an execution of `readdir` among others, whose scan found `db`. -/
def Page (v : Volume) (creds : Credentials) (parent : Ino) (maxEntries cookie : Nat) (db : Db)
    (out : List DirEntry × Bool) : Prop :=
  ∃ calls, Prog.Among Call.may (readdir v creds parent cookie maxEntries).run calls (.ok out) ∧
    ∀ p first s, (Call.scanDirentIdxs p first, s) ∈ calls → s.db = db

/-- A client's pages from a cookie to the end of the directory: the databases their
scans found and all entries returned. -/
inductive Listing (v : Volume) (creds : Credentials) (parent : Ino) (maxEntries : Nat) :
    Nat → List Db → List DirEntry → Prop where
  | last {cookie : Nat} {db : Db} {es : List DirEntry}
      (h : Page v creds parent maxEntries cookie db (es, true)) :
      Listing v creds parent maxEntries cookie [db] es
  | more {cookie : Nat} {db : Db} {dbs : List Db} {es es' : List DirEntry} {e : DirEntry}
      (h : Page v creds parent maxEntries cookie db (es, false)) (he : es.getLast? = some e)
      (hrest : Listing v creds parent maxEntries e.cookie dbs es') :
      Listing v creds parent maxEntries cookie (db :: dbs) (es ++ es')

/-- The index records of a directory that a scan can find: all but id `u64::MAX`. -/
def Db.listed (db : Db) (parent : Ino) : List (Nat × DirentIdx) :=
  (db.direntIdxsFrom parent 0).filter (fun kv => kv.1 < 2 ^ 64 - 1)

lemma mem_direntIdxsFrom {db : Db} {id first : Nat} {x : DirentIdx} :
    (id, x) ∈ db.direntIdxsFrom parent first ↔
      db.direntIdxs.get? (toLex (parent, id)) = some x ∧ first ≤ id := by
  unfold Db.direntIdxsFrom
  simp only [List.mem_map]
  constructor
  · rintro ⟨⟨k, y⟩, hk, he⟩
    obtain ⟨hget, hp⟩ := mem_scan.mp hk
    simp only [Prod.mk.injEq] at he
    simp only [decide_eq_true_eq] at hp
    have hkey : k = toLex (parent, id) := congrArg toLex (Prod.ext hp.1 he.1)
    rw [← hkey, ← he.2, ← he.1]
    exact ⟨hget, hp.2⟩
  · exact fun ⟨hget, hfirst⟩ => ⟨(toLex (parent, id), x), mem_scan.mpr ⟨hget, by simpa⟩, rfl⟩

lemma mem_listed {db : Db} {id : Nat} {x : DirentIdx} :
    (id, x) ∈ db.listed parent ↔
      db.direntIdxs.get? (toLex (parent, id)) = some x ∧ id < 2 ^ 64 - 1 := by
  rw [Db.listed, List.mem_filter, mem_direntIdxsFrom]
  simp

/-- The index of a directory is in the order of its ids. -/
lemma listed_sorted (db : Db) : Paging.Sorted Prod.fst (db.listed parent) := by
  refine List.Pairwise.filter _ ?_
  refine List.pairwise_map.mpr ?_
  refine (scan_sorted db.direntIdxs _).imp_of_mem ?_
  rintro ⟨a, _⟩ ⟨b, _⟩ ha hb hlt
  have h₁ := (mem_scan.mp ha).2
  have h₂ := (mem_scan.mp hb).2
  simp only [Nat.zero_le, and_true, decide_eq_true_eq] at h₁ h₂
  rcases Prod.Lex.lt_iff.mp hlt with h | ⟨_, h⟩
  · exact absurd h (by rw [h₁, h₂]; exact lt_irrefl _)
  · exact h

lemma scan_eq_after (db : Db) (cookie : Nat) :
    (db.direntIdxsFrom parent (nextCookie cookie)).filter (fun kv => kv.1 < 2 ^ 64 - 1) =
      Paging.after Prod.fst cookie (db.listed parent) := by
  unfold Db.listed Paging.after Db.direntIdxsFrom OrdMap.scan nextCookie
  simp only [List.filter_map, List.filter_filter, Function.comp_def]
  congr 1
  refine List.filter_congr fun e _ => ?_
  by_cases hp : (ofLex e.1).1 = parent
  · by_cases hm : (ofLex e.1).2 < 2 ^ 64 - 1
    · simp only [hp, hm, Nat.zero_le, true_and, Bool.true_and, decide_true, Bool.and_true]
      refine decide_eq_decide.mpr ?_
      omega
    · simp only [hm, decide_false, Bool.false_and, Bool.and_false]
  · simp [hp]

/-- An entry as the client gets it. -/
def Opens (v : Volume) (parent : Ino) (kv : Nat × DirentIdx) (e : DirEntry) : Prop :=
  e.cookie = kv.1 ∧ e.ino = kv.2.childIno ∧ e.kind = kv.2.kind ∧
    v.names.openName parent kv.2.encName = some e.name

lemma openEntries_ok (h : openEntries v parent kvs = .ok es) :
    List.Forall₂ (Opens v parent) kvs es := by
  induction kvs generalizing es with
  | nil => cases h; exact .nil
  | cons kv rest ih =>
    obtain ⟨id, idx⟩ := kv
    rw [openEntries] at h
    split at h
    · cases h
    rename_i name hname
    cases hr : openEntries v parent rest with
    | error e => rw [hr] at h; cases h
    | ok es' =>
      rw [hr] at h
      cases h
      exact .cons ⟨rfl, rfl, rfl, hname⟩ (ih hr)

/-- **What a page holds**: the first records behind the cookie, and whether that was all. -/
theorem Page.spec {db : Db} {eof : Bool} (h : Page v creds parent maxEntries cookie db (es, eof)) :
    List.Forall₂ (Opens v parent)
      ((Paging.after Prod.fst cookie (db.listed parent)).take maxEntries) es ∧
    eof = decide ((Paging.after Prod.fst cookie (db.listed parent)).length ≤ maxEntries) := by
  obtain ⟨calls, h, hdb⟩ := h
  obtain ⟨c₁, _, dir, _, h₁, rfl⟩ := among_bind h
  obtain ⟨c₂, _, _, _, h₂, rfl⟩ := among_bind h₁
  obtain ⟨c₃, _, kvs, hscan, h₃, rfl⟩ := among_bind h₂
  obtain ⟨c₄, _, entries, hopen, h₄, rfl⟩ := among_bind h₃
  obtain ⟨s, hs, rfl⟩ := among_scanDirentIdxs hscan
  have hs' : s.db = db := hdb parent (nextCookie cookie) s (by simp [hs])
  rw [hs', scan_eq_after] at hopen h₄
  cases h₄
  exact ⟨openEntries_ok (among_ofExcept hopen), rfl⟩

lemma getLast?_of_forall₂ {α β : Type} {R : α → β → Prop} {xs : List α} {ys : List β}
    (h : List.Forall₂ R xs ys) {y : β} (hy : ys.getLast? = some y) :
    ∃ x, xs.getLast? = some x ∧ R x y := by
  induction h with
  | nil => cases hy
  | @cons a b xs ys hab hrest ih =>
    cases hrest with
    | nil => exact ⟨a, rfl, Option.some.inj hy ▸ hab⟩
    | cons _ _ =>
      exact ih hy

lemma Listing.pages {dbs : List Db} (h : Listing v creds parent maxEntries cookie dbs es) :
    ∃ out, Paging.Pages Prod.fst maxEntries cookie (dbs.map (·.listed parent)) out ∧
      List.Forall₂ (Opens v parent) out es := by
  induction h with
  | @last cookie db es h =>
    obtain ⟨hes, heof⟩ := h.spec
    have hle := of_decide_eq_true heof.symm
    rw [List.take_of_length_le hle] at hes
    exact ⟨_, .last hle, hes⟩
  | @more cookie db dbs es es' e h he hrest ih =>
    obtain ⟨hes, heof⟩ := h.spec
    have hlt := Nat.lt_of_not_le (of_decide_eq_false heof.symm)
    obtain ⟨out, hout, hopens⟩ := ih
    obtain ⟨kv, hkv, hcookie, _⟩ := getLast?_of_forall₂ hes he
    rw [hcookie] at hout
    exact ⟨_, .more hlt hkv hout, List.rel_append hes hopens⟩

/-- Entries and index records correspond, cookie by cookie. -/
lemma cookies_of_opens {out : List (Nat × DirentIdx)}
    (hopens : List.Forall₂ (Opens v parent) out es) :
    es.map DirEntry.cookie = out.map Prod.fst := by
  induction hopens with
  | nil => rfl
  | cons ho _ ih => rw [List.map_cons, List.map_cons, ih, ho.1]

/-- A record that is listed comes as one entry. -/
lemma once_of_opens {out : List (Nat × DirentIdx)} {id : Nat} {x : DirentIdx}
    (hopens : List.Forall₂ (Opens v parent) out es) (hsorted : Paging.Sorted Prod.fst out)
    (hmem : (id, x) ∈ out) :
    ∃ e, es.filter (fun e => e.cookie = id) = [e] ∧ Opens v parent (id, x) e := by
  have hone := hsorted.filter_key hmem
  have hfilter : List.Forall₂ (Opens v parent) (out.filter (fun kv => kv.1 = id))
      (es.filter (fun e => e.cookie = id)) := by
    clear hone hmem hsorted
    induction hopens with
    | nil => exact .nil
    | @cons kv e _ _ ho _ ih =>
      rw [List.filter_cons, List.filter_cons, ho.1]
      split
      · exact .cons ho ih
      · exact ih
  rw [hone] at hfilter
  obtain ⟨e, _, hoe, hnil, he⟩ := List.forall₂_cons_left_iff.mp hfilter
  rw [List.forall₂_nil_left_iff.mp hnil] at he
  exact ⟨e, he, hoe⟩

/--
**A listing is complete.** Cookies increase strictly, so no entry comes twice, and an
entry that every scan could find under one id comes exactly once.
-/
theorem listing_exact {dbs : List Db} {es : List DirEntry}
    (h : Listing v creds parent maxEntries 0 dbs es) :
    (es.map DirEntry.cookie).Pairwise (· < ·) ∧
    ∀ id x, 0 < id → id < 2 ^ 64 - 1 →
      (∀ db ∈ dbs, db.direntIdxs.get? (toLex (parent, id)) = some x) →
      ∃ e, es.filter (fun e => e.cookie = id) = [e] ∧ Opens v parent (id, x) e := by
  obtain ⟨out, hpages, hopens⟩ := h.pages
  have hws : ∀ w ∈ dbs.map (·.listed parent), Paging.Sorted Prod.fst w := by
    intro w hw
    obtain ⟨db, _, rfl⟩ := List.mem_map.mp hw
    exact listed_sorted db
  have hsorted := hpages.sorted hws
  refine ⟨?_, fun id x hpos hmax hx => ?_⟩
  · rw [cookies_of_opens hopens]
    exact List.pairwise_map.mpr hsorted
  obtain ⟨_, hmem, -, rfl⟩ := hpages.mem (P := (· = (id, x))) hws hpos fun w hw => by
    obtain ⟨db, hdb, rfl⟩ := List.mem_map.mp hw
    exact ⟨_, mem_listed.mpr ⟨hx db hdb, hmax⟩, rfl, rfl⟩
  exact once_of_opens hopens hsorted hmem

/-! Pages on concrete inputs can be computed. -/

/-- A `readdir` that runs alone is a page of the database it runs on. -/
lemma Page.of_run {env : Env} {s s' : St}
    (hr : (readdir v creds parent cookie maxEntries).run.run (Call.answer env) s
      = some (.ok out, s')) :
    Page v creds parent maxEntries cookie s.db out := by
  obtain ⟨calls, hc, hv⟩ := Prog.Among.of_run (A := Call.may) (fun c s => Or.inl ⟨env, rfl⟩) hr
  have hquiet : IsQuiet .any (readdir v creds parent cookie maxEntries) s.db :=
    Track.wp_alone.mp (Track.wp_readdir (Track.atRest_alone fun _ => trivial)
      (fun _ _ _ _ => ⟨.inl rfl, rfl⟩) fun _ => trivial)
  exact ⟨calls, hc, fun p first t ht => hquiet.visits (hv _ ht)⟩

/-- The page a `readdir` that runs alone returns. -/
def pageAlone (parent : Ino) (cookie maxEntries : Nat) (s : St) : Option (List DirEntry × Bool) :=
  match (readdir Volume.plain .root parent cookie maxEntries).run.run (Call.answer .still) s with
  | some (.ok out, _) => some out
  | _ => none

lemma Page.of_pageAlone {s : St} (h : pageAlone parent cookie maxEntries s = some out) :
    Page Volume.plain .root parent maxEntries cookie s.db out := by
  unfold pageAlone at h
  split at h
  · rename_i hr
    cases h
    exact .of_run hr
  · cases h

/-- Two files, listed one a page. -/
theorem listing_of_two_files : ∃ s : St, Listing Volume.plain .root 1 1 0 [s.db, s.db]
      ([⟨[102], 2, .file, 3⟩] ++ [⟨[103], 3, .file, 4⟩]) ∧
    (([⟨[102], 2, .file, 3⟩] ++ [⟨[103], 3, .file, 4⟩] : List DirEntry).map
      DirEntry.cookie).Pairwise (· < ·) := by
  obtain ⟨s, _, h₁, h₂⟩ := Rests.of_runAll Volume.plain (fun _ _ => True) .still 9 .root
    [.create 1 [102] 0o644 true, .create 1 [103] 0o644 true] (freshVolume ⟨0, 0⟩ {})
    (fun s => pageAlone 1 0 1 s = some ([⟨[102], 2, .file, 3⟩], false)
      ∧ pageAlone 1 3 1 s = some ([⟨[103], 3, .file, 4⟩], true)) (by decide +kernel)
  have hl : Listing Volume.plain .root 1 1 0 [s.db, s.db]
      ([⟨[102], 2, .file, 3⟩] ++ [⟨[103], 3, .file, 4⟩]) :=
    .more (.of_pageAlone h₁) rfl (.last (.of_pageAlone h₂))
  exact ⟨s, hl, (listing_exact hl).1⟩

/-- A directory whose one entry has the last id there is. -/
def brimming : St :=
  { freshVolume ⟨0, 0⟩ {} with
    db := (mkfs ⟨0, 0⟩).apply
      [.put (.inode 2) (Inode.new .file 0o644 0 0 ⟨0, 0⟩),
        .put (.dirent 1 [102]) (Dirent.mk [102] 2 .file (2 ^ 64 - 1)),
        .put (.direntIdx 1 (2 ^ 64 - 1)) (DirentIdx.mk [102] 2 .file)] }

/-- **The entry with id `u64::MAX` is never listed**: the scan ends before it. -/
theorem last_id_not_listed : Listing Volume.plain .root 1 10 0 [brimming.db] [] ∧
    brimming.db.direntIdxs.get? (toLex (1, 2 ^ 64 - 1)) = some ⟨[102], 2, .file⟩ := by
  refine ⟨.last (.of_pageAlone ?_), ?_⟩
  · decide +kernel
  · decide +kernel

end SlateFs
