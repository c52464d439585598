import SlateFs.Lib.Numbered
import SlateFs.Seq.Runs

/-!
# Entries and the readdir index

Every directory entry has a record in the index by which `readdir` pages through
the directory, under a number of its own. Read as a table (`SlateFs.Lib.Numbered`),
entries and index change together in every transaction, and a directory gives each
number out once.
-/

namespace SlateFs

open OrdMap Numbered Db FsM

/-- A directory's next number. -/
def dirNext (i : Inode) : Option Nat := if i.kind.isDir then some i.nextDirentId else none

/-- The entries of a volume and their index: for each name, sealed, the child and its kind. -/
def Db.table (db : Db) : Numbered Ino Bytes (Ino × FileKind) where
  entry p e := (db.dirents.get? (toLex (p, e))).map (fun d => ((d.childIno, d.kind), d.direntId))
  index p i := (db.direntIdxs.get? (toLex (p, i))).map (fun x => (x.encName, (x.childIno, x.kind)))
  next p := (db.inodes.get? p).bind dirNext

variable {v : Volume} {G : Guard} {db db' : Db}
variable {i child : Inode} {p : Ino} {e name : Bytes} {d : Dirent}

lemma dirNext_of_dir (h : i.kind = .dir) : dirNext i = some i.nextDirentId := by
  simp [dirNext, h, FileKind.isDir]

lemma dirNext_of_leaf (h : i.kind ≠ .dir) : dirNext i = none := by
  simp [dirNext, isDir_of_ne h]

lemma dirNext_alike {i' : Inode} (h : i'.Alike i) : dirNext i' = dirNext i := by
  simp [dirNext, h.kind, h.nextDirentId]

lemma table_next_of_dir (hi : db.inodes.get? p = some i) (h : i.kind = .dir) :
    db.table.next p = some i.nextDirentId := by
  simp [table, hi, dirNext_of_dir h]

/-- A change that keeps entries, index and the directories' counters keeps the table. -/
lemma table_congr (hd : db'.dirents = db.dirents) (hx : db'.direntIdxs = db.direntIdxs)
    (hn : ∀ p, (db'.inodes.get? p).bind dirNext = (db.inodes.get? p).bind dirNext) :
    db'.table = db.table :=
  ext' (fun _ _ => by simp [table, hd]) (fun _ _ => by simp [table, hx]) hn

lemma table_rewrite {ino : Ino} {i' : Inode} (hi : db.inodes.get? ino = some i)
    (h : dirNext i' = dirNext i) (hin : db'.inodes = db.inodes.insert ino i')
    (hd : db'.dirents = db.dirents) (hx : db'.direntIdxs = db.direntIdxs) :
    db'.table = db.table :=
  table_congr hd hx (fun p => by rw [hin, read_insert hi h])

/-- Entries and index with a name dropped, and the counters as they were. -/
lemma table_drop {i : Nat} (hd : db'.dirents = db.dirents.erase (toLex (p, e)))
    (hx : db'.direntIdxs = db.direntIdxs.erase (toLex (p, i)))
    (hn : ∀ q, (db'.inodes.get? q).bind dirNext = (db.inodes.get? q).bind dirNext) :
    db'.table = db.table.drop p e i := by
  refine ext' (fun q b => ?_) (fun q j => ?_) hn
  · simp only [table, drop, hd, get?_erase, toLex_inj, Prod.mk.injEq]
    split <;> rfl
  · simp only [table, drop, hx, get?_erase, toLex_inj, Prod.mk.injEq]
    split <;> rfl

/-- Entries and index with a name added, and the directory's counter moved on. -/
lemma table_add (hd : db'.dirents = db.dirents.insert (toLex (p, e)) d)
    (hx : db'.direntIdxs = db.direntIdxs.insert (toLex (p, d.direntId)) ⟨e, d.childIno, d.kind⟩)
    (hn : ∀ q, (db'.inodes.get? q).bind dirNext =
      if q = p then some (d.direntId + 1) else (db.inodes.get? q).bind dirNext) :
    db'.table = db.table.add p e (d.childIno, d.kind) d.direntId := by
  refine ext' (fun q b => ?_) (fun q j => ?_) (fun q => ?_)
  · simp only [table, add, hd, get?_insert, toLex_inj, Prod.mk.injEq]
    split <;> rfl
  · simp only [table, add, hx, get?_insert, toLex_inj, Prod.mk.injEq]
    split <;> rfl
  · simp only [add, Function.update_apply]
    exact hn q

/-- A directory comes or goes without entries. -/
lemma table_setNext {m : Option Nat} (hd : db'.dirents = db.dirents)
    (hx : db'.direntIdxs = db.direntIdxs)
    (hn : ∀ q, (db'.inodes.get? q).bind dirNext =
      if q = p then m else (db.inodes.get? q).bind dirNext) :
    db'.table = db.table.setNext p m :=
  ext' (fun _ _ => by simp [table, setNext, hd])
    (fun _ _ => by simp [table, setNext, hx])
    (fun q => by rw [next_setNext]; exact hn q)

lemma table_entry_none (h : db.dirents.get? (toLex (p, e)) = none) :
    db.table.entry p e = none := by
  simp [table, h]

lemma Names.table_entry {dir : Inode} (h : Names v db p dir name d child) :
    db.table.entry p (v.names.sealName p name) = some ((d.childIno, d.kind), d.direntId) := by
  simp [table, h.hentry]

/-! ## Transactions -/

lemma table_insertNode {c : Ino} {parent : Inode} (target : Option Bytes) (ts : Timespec)
    (hins : Inserts v db p parent name c child) (hfresh : G.fresh c)
    (hroom : parent.nextDirentId + 1 < 2 ^ 64) :
    Steps FIRST_DIRENT_ID G.fresh db.table
      (db.apply (insertNodeBatch v p parent name c child target ts)).table := by
  have hpc := hins.ne.symm
  obtain ⟨hparent, hdir, hfree, hnew, hchild⟩ := hins
  rw [apply_insertNodeBatch]
  have hp' : dirNext (parentWithChild parent child ts) = some (parent.nextDirentId + 1) := by
    rw [← nextId_of_lt hroom]
    unfold parentWithChild
    split <;> exact dirNext_of_dir hdir
  -- the entry comes first, the new directory's counter after it
  have hadd : ∀ db₁ : Db, db₁.dirents = db.dirents.insert (toLex (p, v.names.sealName p name))
        ⟨name, c, child.kind, parent.nextDirentId⟩ →
      db₁.direntIdxs = db.direntIdxs.insert (toLex (p, parent.nextDirentId))
        ⟨v.names.sealName p name, c, child.kind⟩ →
      (∀ q, (db₁.inodes.get? q).bind dirNext = if q = p then some (parent.nextDirentId + 1)
        else (db.inodes.get? q).bind dirNext) →
      Step FIRST_DIRENT_ID G.fresh db.table db₁.table := by
    intro db₁ hd hx hn
    rw [table_add hd hx hn]
    exact .add (table_entry_none hfree) (table_next_of_dir hparent hdir)
  by_cases hk : child.kind = .dir
  · let db₁ : Db :=
      { db with
        inodes := db.inodes.insert p (parentWithChild parent child ts)
        dirents := db.dirents.insert (toLex (p, v.names.sealName p name))
          ⟨name, c, child.kind, parent.nextDirentId⟩
        direntIdxs := db.direntIdxs.insert (toLex (p, parent.nextDirentId))
          ⟨v.names.sealName p name, c, child.kind⟩ }
    have h₁ : Step FIRST_DIRENT_ID G.fresh db.table db₁.table := by
      refine hadd db₁ rfl rfl ?_
      intro q
      rw [get?_insert]
      split
      · exact hp'
      · rfl
    have hc : db₁.table.next c = none := by
      show ((db.inodes.insert p _).get? c).bind dirNext = none
      rw [get?_insert_of_ne _ _ hpc, hnew.inode]
      rfl
    refine (Relation.ReflTransGen.single h₁).tail ?_
    have hset := Step.opened hc hchild.firstId hfresh
    rwa [← table_setNext] at hset
    · rfl
    · rfl
    intro q
    by_cases hqc : q = c
    · rw [if_pos hqc, hqc, get?_insert_of_ne _ _ hpc, get?_insert_self]
      exact dirNext_of_dir hk
    · rw [if_neg hqc, get?_insert, get?_insert_of_ne _ _ hqc,
        show db₁.inodes = db.inodes.insert p (parentWithChild parent child ts) from rfl,
        get?_insert]
  · refine .single (hadd _ rfl rfl ?_)
    intro q
    rw [get?_insert]
    split
    · exact hp'
    rw [get?_insert]
    split
    · rename_i hqc
      rw [hqc, hnew.inode, Option.bind_some, dirNext_of_leaf hk]
      rfl
    · rfl

lemma table_move {q : Ino} {oldName newName : Bytes} {src : Dirent} {oldDir newDir moved : Inode}
    {crossing : Bool} (ts : Timespec)
    (hm : Moves v db p oldName q newName src oldDir newDir moved crossing)
    (hroom : newDir.nextDirentId + 1 < 2 ^ 64) :
    Steps FIRST_DIRENT_ID G.fresh db.table (db.apply (renameBatch v p oldName q newName src oldDir
      moved ⟨[], newDir, none, 0, 0⟩ crossing ts)).table := by
  obtain ⟨hsrc, hq, hqDir, hfree, -, -⟩ := hm
  rw [apply_renameBatch, apply_nil]
  let db₁ : Db :=
    { db with
      dirents := db.dirents.erase (toLex (p, v.names.sealName p oldName))
      direntIdxs := db.direntIdxs.erase (toLex (p, src.direntId)) }
  have hdrop : Step FIRST_DIRENT_ID G.fresh db.table db₁.table := by
    have htable : db₁.table = _ := table_drop rfl rfl (fun _ => rfl)
    rw [htable]
    exact .drop hsrc.table_entry
  refine (Relation.ReflTransGen.single hdrop).tail ?_
  have hadd : Step FIRST_DIRENT_ID G.fresh db₁.table (db₁.table.add q (v.names.sealName q newName)
      (src.childIno, moved.kind) newDir.nextDirentId) := by
    refine .add (table_entry_none ?_) (table_next_of_dir hq hqDir)
    exact get?_erase_none _ hfree
  rwa [← table_add (d := ⟨newName, src.childIno, moved.kind, newDir.nextDirentId⟩)] at hadd
  · rfl
  · rfl
  intro x
  rw [get?_inodesAfterMove]
  by_cases hxq : x = q
  · rw [if_pos hxq, if_pos hxq, ← nextId_of_lt hroom]
    exact dirNext_of_dir hqDir
  rw [if_neg hxq, if_neg hxq]
  split
  · rename_i hx
    rw [hx, show db₁.inodes = db.inodes from rfl, hsrc.hdir]
    rfl
  · split
    · rename_i hx
      rw [hx, show db₁.inodes = db.inodes from rfl, hsrc.hchild]
      rfl
    · rfl

lemma table_unlink {dir : Inode} (hn : Names v db p dir name d child)
    (hd : db'.dirents = db.dirents.erase (toLex (p, v.names.sealName p name)))
    (hx : db'.direntIdxs = db.direntIdxs.erase (toLex (p, d.direntId)))
    (hin : ∀ q, (db'.inodes.get? q).bind dirNext = (db.inodes.get? q).bind dirNext) :
    Steps FIRST_DIRENT_ID G.fresh db.table db'.table := by
  rw [table_drop hd hx hin]
  exact .single (.drop hn.table_entry)

/-- **Every transaction changes entries and index together.** -/
theorem Txn.table (hT : Tree db) (hG : ∀ n, G.entry n → n + 1 < 2 ^ 64)
    (ht : Txn v G db db') :
    Steps FIRST_DIRENT_ID G.fresh db.table db'.table := by
  have hsame : db'.table = db.table → Steps FIRST_DIRENT_ID G.fresh db.table db'.table := by
    intro h; rw [h]
  cases ht with
  | lease n => exact .refl
  | touch hi h => exact hsame (table_rewrite hi (dirNext_alike h) rfl rfl rfl)
  | setXattr name value hi => exact .refl
  | dropXattr ino name => exact .refl
  | insertNode target ts hparent hdir hfree hnew hfresh hchild _ _ hid =>
    exact table_insertNode target ts ⟨hparent, hdir, hfree, hnew, hchild⟩ hfresh (hG _ hid)
  | @link ino i i' p dir name ts hi hkind hdir hisDir hfree hroom hi' _ hid =>
    rw [apply_linkBatch]
    have hstep : Step FIRST_DIRENT_ID G.fresh db.table (db.table.add p (v.names.sealName p name)
        (ino, i'.kind) dir.nextDirentId) :=
      .add (table_entry_none hfree) (table_next_of_dir hdir hisDir)
    refine .single ?_
    rwa [← table_add (d := ⟨name, ino, i'.kind, dir.nextDirentId⟩)] at hstep
    · rfl
    · rfl
    intro q
    rw [get?_insert]
    split
    · rw [← nextId_of_lt (hG _ hid)]
      exact dirNext_of_dir hisDir
    · exact read_insert hi ((dirNext_alike hi').trans rfl) q
  | unlinkKeep hn hkind hdir' hlast hchild' =>
    have hc := dirNext_of_leaf hkind
    exact table_unlink hn rfl rfl (hn.read_put (dirNext_alike hdir') hc
      ((dirNext_alike hchild').trans (dirNext_of_leaf hkind)))
  | unlinkOpen ts hn hkind hdir' hlast =>
    have hc := dirNext_of_leaf hkind
    exact table_unlink hn rfl rfl (hn.read_put (dirNext_alike hdir') hc (dirNext_of_leaf hkind))
  | unlinkGone hn hkind hdir' hlast =>
    exact table_unlink hn rfl rfl (hn.read_drop (dirNext_alike hdir') (dirNext_of_leaf hkind))
  | @rmdir p dir dir' name d child hn hkind hempty hdir' hxattr =>
    rw [apply_dropDir]
    -- the entry goes first, the directory with its counter after it
    let db₁ : Db :=
      { db with
        inodes := db.inodes.insert p dir'
        dirents := db.dirents.erase (toLex (p, v.names.sealName p name))
        direntIdxs := db.direntIdxs.erase (toLex (p, d.direntId)) }
    have h₁ : Steps FIRST_DIRENT_ID G.fresh db.table db₁.table :=
      table_unlink hn rfl rfl (read_insert hn.hdir ((dirNext_alike hdir').trans rfl))
    have hclose : Step FIRST_DIRENT_ID G.fresh db₁.table (db₁.table.setNext d.childIno none) :=
      .closed (fun e => table_entry_none (get?_erase_none _ (hempty e)))
    refine h₁.tail ?_
    rwa [← table_setNext] at hclose
    · rfl
    · rfl
    intro q
    have hne : d.childIno ≠ p := by
      intro he
      have := hempty (v.names.sealName p name)
      rw [he, hn.hentry] at this
      cases this
    rw [get?_insert, get?_insert]
    by_cases hqc : q = d.childIno
    · rw [if_pos hqc, hqc, if_neg hne, get?_erase_self]
      rfl
    · rw [if_neg hqc, get?_erase_of_ne _ hqc]
  | move crossing ts hsrc hnew hnewDir hfree hcross hwalk hsub hid =>
    exact table_move ts ⟨hsrc, hnew, hnewDir, hfree, hcross, hwalk⟩ (hG _ hid)
  | write hi hkind hdata hmax hi' _ =>
    rw [apply_writeBatch] at hsame ⊢
    exact hsame (table_rewrite hi ((dirNext_alike hi').trans rfl) rfl rfl rfl)
  | truncate hi hkind hne hcs hi' _ =>
    rw [apply_truncateBatch] at hsame ⊢
    exact hsame (table_rewrite hi ((dirNext_alike hi').trans rfl) rfl rfl rfl)
  | spill hi hidx => exact .refl
  | @finish ino i hi hmark =>
    refine hsame (table_congr rfl rfl (read_erase ?_))
    rw [hi]
    exact dirNext_of_leaf (hT.marked_leaf hi hmark)
  | reap hgone hr =>
    refine hsame (table_congr hr.dirents ?_ (fun p => by rw [hr.inodes]))
    cases hr <;> rfl

lemma Txns.table (hT : Tree db) (hG : ∀ n, G.entry n → n + 1 < 2 ^ 64)
    (ht : Txns v G db db') :
    Steps FIRST_DIRENT_ID G.fresh db.table db'.table := by
  suffices Tree db' ∧ Steps FIRST_DIRENT_ID G.fresh db.table db'.table from this.2
  induction ht with
  | refl => exact ⟨hT, .refl⟩
  | tail _ ht ih => exact ⟨ih.1.txn ht, ih.2.trans (ht.table ih.1 hG)⟩

/-! ## Runs -/

variable {s s₁ s₂ s₃ : St}

/-- No call adds an entry to a directory whose counter is at the end of its range. -/
def Op.entryFits (op : Op) (s : St) : Bool :=
  op.receiver.all fun p => (s.db.inodes.get? p).all fun i => i.nextDirentId + 1 < 2 ^ 64

lemma Op.entryFits_meets {op : Op} {s : St} (h : op.entryFits s) :
    op.Meets { Guard.any with entry := fun n => n + 1 < 2 ^ 64 } v s.db := by
  refine ⟨op.allowed_any _, fun p hp i hi => ?_⟩
  simpa [entryFits, hp, hi] using h

/-- What later states keep of a sound state with entries and index in step. -/
structure Follows (s s' : St) : Prop where
  sound : Sound s'
  ok : s'.db.table.Ok FIRST_DIRENT_ID
  /-- Numbers are handed out upwards. -/
  next : s.mem.alloc.next ≤ s'.mem.alloc.next
  /-- What an id stands for, it stands for until it is retired. -/
  index : ∀ p i x, s.db.table.index p i = some x →
    s'.db.table.index p i = some x ∨ s'.db.table.Retired p i
  /-- Ids of a directory that was there stay retired. -/
  retired : ∀ p i, p < s.mem.alloc.next → s.db.table.Retired p i → s'.db.table.Retired p i

lemma Follows.refl (hs : Sound s) (hok : s.db.table.Ok FIRST_DIRENT_ID) : Follows s s :=
  ⟨hs, hok, le_refl _, fun _ _ _ h => .inl h, fun _ _ _ h => h⟩

/-- A number in the index belongs to a directory that is there, so it was handed out. -/
lemma Sound.index_lt (hs : Sound s) {i : Nat} {x : Bytes × Ino × FileKind}
    (hx : s.db.table.index p i = some x) : p < s.mem.alloc.next := by
  by_contra hp
  have hnone := (hs.fresh p (Nat.le_of_not_lt hp)).idx i
  simp [table, hnone] at hx

lemma Follows.trans (h₁ : Follows s₁ s₂) (hs : Sound s₁) (h₂ : Follows s₂ s₃) : Follows s₁ s₃ where
  sound := h₂.sound
  ok := h₂.ok
  next := le_trans h₁.next h₂.next
  index p i x hx := by
    rcases h₁.index p i x hx with h | h
    · exact h₂.index p i x h
    · exact .inr (h₂.retired p i (lt_of_lt_of_le (hs.index_lt hx) h₁.next) h)
  retired p i hp hr := h₂.retired p i (lt_of_lt_of_le hp h₁.next) (h₁.retired p i hp hr)

/-- One call, up to any of its steps. -/
lemma Follows.visits {op : Op} {env : Env} {fuel : Nat} {creds : Credentials} {s' : St}
    (hs : Sound s) (hok : s.db.table.Ok FIRST_DIRENT_ID) (hfits : op.entryFits s)
    (hv : Prog.Visits (Call.answer env) (op.prog v fuel creds).run s s') : Follows s s' := by
  obtain ⟨hs', hle, F, hF, ht⟩ := hs.visits (op.entryFits_meets hfits) hv
  have hsteps : Steps FIRST_DIRENT_ID F s.db.table s'.db.table := ht.table hs.tree fun _ h => h
  have hold : ∀ p, p < s.mem.alloc.next → ¬F p := fun p hp h => Nat.not_lt.mpr (hF p h) hp
  exact ⟨hs', hok.steps hsteps, hle,
    fun p i x hx => hok.index_steps hsteps (hold p (hs.index_lt hx)) hx,
    fun p i hp hr => hr.steps hsteps (hold p hp)⟩

lemma Rests.follows (h : Rests v (fun op s => op.entryFits s) s s₂) (hs : Sound s)
    (hok : s.db.table.Ok FIRST_DIRENT_ID) :
    Follows s s₂ := by
  induction h with
  | start => exact .refl hs hok
  | call _ hC hr ih => exact ih.trans hs (.visits ih.sound ih.ok hC (.of_run hr))

lemma Reached.follows (h : Reached v (fun op s => op.entryFits s) s s₂) (hs : Sound s)
    (hok : s.db.table.Ok FIRST_DIRENT_ID) : Follows s s₂ := by
  cases h with
  | rest h => exact h.follows hs hok
  | during h hC hv =>
    have hf := h.follows hs hok
    exact hf.trans hs (.visits hf.sound hf.ok hC hv)

/-- **Entries and index are in bijection**, with ids from 3 on that were given out. -/
structure Indexed (db : Db) : Prop where
  /-- Each entry has an index record under its id. -/
  index : ∀ p e d, db.dirents.get? (toLex (p, e)) = some d →
    db.direntIdxs.get? (toLex (p, d.direntId)) = some ⟨e, d.childIno, d.kind⟩
  /-- Each index record has an entry with its id. -/
  entry : ∀ p i x, db.direntIdxs.get? (toLex (p, i)) = some x →
    ∃ d, db.dirents.get? (toLex (p, x.encName)) = some d ∧
      d.direntId = i ∧ d.childIno = x.childIno ∧ d.kind = x.kind
  /-- Two entries of a directory have different ids. -/
  distinct : ∀ p e e' d d', db.dirents.get? (toLex (p, e)) = some d →
    db.dirents.get? (toLex (p, e')) = some d' → d.direntId = d'.direntId → e = e'
  /-- Ids start at 3 and are below the directory's next one. -/
  issued : ∀ p e d, db.dirents.get? (toLex (p, e)) = some d →
    3 ≤ d.direntId ∧ ∃ dir, db.inodes.get? p = some dir ∧ d.direntId < dir.nextDirentId

lemma indexed_of_ok (h : db.table.Ok FIRST_DIRENT_ID) : Indexed db := by
  have hentry : ∀ {p e d}, db.dirents.get? (toLex (p, e)) = some d →
      db.table.index p d.direntId = some (e, (d.childIno, d.kind)) :=
    fun {p e d} hd => h.indexed (by simp [table, hd])
  refine ⟨fun p e d hd => ?_, fun p i x hx => ?_, fun p e e' d d' hd hd' hid => ?_,
    fun p e d hd => ?_⟩
  · obtain ⟨x, hx, he⟩ := Option.map_eq_some_iff.mp (hentry hd)
    simp only [Prod.mk.injEq] at he
    rw [hx, ← he.1, ← he.2.1, ← he.2.2]
  · have hn : db.table.entry p x.encName = some ((x.childIno, x.kind), i) :=
      h.named (by simp [table, hx])
    obtain ⟨d, hd, he⟩ := Option.map_eq_some_iff.mp hn
    simp only [Prod.mk.injEq] at he
    exact ⟨d, hd, he.2, he.1.1, he.1.2⟩
  · have := (hentry hd).symm.trans (hid ▸ hentry hd')
    exact (Prod.mk.inj (Option.some.inj this)).1
  · obtain ⟨hle, m, hm, hlt⟩ := h.issued (hentry hd)
    refine ⟨hle, ?_⟩
    obtain ⟨dir, hdir, hnext⟩ := Option.bind_eq_some_iff.mp hm
    refine ⟨dir, hdir, ?_⟩
    unfold dirNext at hnext
    split at hnext
    · rwa [Option.some.inj hnext]
    · cases hnext

lemma freshVolume_table_ok (ts : Timespec) (limits : QuotaLimits) :
    (freshVolume ts limits).db.table.Ok FIRST_DIRENT_ID where
  indexed h := nomatch h
  named h := nomatch h
  issued h := nomatch h
  start {p m} hm := by
    have hm' : ((mkfs ts).inodes.get? p).bind dirNext = some m := hm
    rw [mkfs_inodes] at hm'
    split at hm'
    · exact le_of_eq (Option.some.inj hm')
    · cases hm'

/--
**Entries and index match, and ids are not reused**, as long as no directory has used up
its ids. The states `s₁`, `s₂` and `s₃` follow each other in one run, the last one possibly
in the middle of a call: what an id stands for at the beginning and at the end is one
entry, there all the time.
-/
theorem dirents_indexed {v : Volume} {ts : Timespec} {limits : QuotaLimits}
    (h₁ : Rests v (fun op s => op.entryFits s) (freshVolume ts limits) s₁)
    (h₂ : Rests v (fun op s => op.entryFits s) s₁ s₂)
    (h₃ : Reached v (fun op s => op.entryFits s) s₂ s₃) :
    Indexed s₃.db ∧ ∀ p i x y, s₁.db.direntIdxs.get? (toLex (p, i)) = some x →
      s₃.db.direntIdxs.get? (toLex (p, i)) = some y →
      y = x ∧ s₂.db.direntIdxs.get? (toLex (p, i)) = some x := by
  have hf₁ := h₁.follows (freshVolume_sound ts limits) (freshVolume_table_ok ts limits)
  have hf₂ := h₂.follows hf₁.sound hf₁.ok
  have hf₃ := h₃.follows hf₂.sound hf₂.ok
  refine ⟨indexed_of_ok hf₃.ok, fun p i x y hx hy => ?_⟩
  have hx' : s₁.db.table.index p i = some (x.encName, (x.childIno, x.kind)) := by
    simp [Db.table, hx]
  have hp : p < s₂.mem.alloc.next := lt_of_lt_of_le (hf₁.sound.index_lt hx') hf₂.next
  have hpresent : ¬s₃.db.table.Retired p i := fun h => by
    have := h.1
    simp [Db.table, hy] at this
  have h₂' := (hf₂.index p i _ hx').resolve_right (fun hr => hpresent (hf₃.retired p i hp hr))
  have h₃' := (hf₃.index p i _ h₂').resolve_right hpresent
  simp only [Db.table, hy, Option.map_some, Option.some.injEq, Prod.mk.injEq] at h₃'
  obtain ⟨z, hz, he⟩ := Option.map_eq_some_iff.mp h₂'
  exact ⟨by cases x; cases y; simp_all, by rw [hz]; cases x; cases z; simp_all⟩

theorem dirents_indexed_after_rename : ∃ s, Reached Volume.plain (fun op s => op.entryFits s)
    (freshVolume ⟨0, 0⟩ {}) s ∧ s.db.direntIdxs.get? (toLex (1, 5)) = some ⟨[103], 2, .file⟩ ∧
    Indexed s.db := by
  obtain ⟨s, hs, hx⟩ := Rests.of_runAll Volume.plain (fun op s => op.entryFits s) .still 9 .root
    [.create 1 [102] 0o644 true, .create 1 [103] 0o644 true, .rename 1 [102] 1 [103]]
    (freshVolume ⟨0, 0⟩ {}) (fun s => s.db.direntIdxs.get? (toLex (1, 5)) = some ⟨[103], 2, .file⟩)
    (by decide +kernel)
  exact ⟨s, .rest hs, hx, (dirents_indexed .start .start (.rest hs)).1⟩

/-! ## A counter that goes round -/

/-- A file in the root that is renamed from one name to another and back. -/
structure Worn (next : Nat) (here there : Bytes) (db : Db) : Prop where
  valid : validateName here = .ok () ∧ validateName there = .ok () ∧ here ≠ there
  root : ∃ i, db.inodes.get? ROOT_INO = some i ∧ i.kind = .dir ∧ i.nextDirentId = next
  entry : ∃ d, db.dirents.get? (toLex (ROOT_INO, here)) = some d ∧ d.childIno = 2
  file : ∃ i, db.inodes.get? 2 = some i ∧ i.kind = .file
  free : db.dirents.get? (toLex (ROOT_INO, there)) = none

lemma Worn.renamed {next : Nat} {here there : Bytes} {root file : Inode} {src : Dirent}
    (h : Worn next here there db) (hroot : db.inodes.get? ROOT_INO = some root)
    (hchild : src.childIno = 2) (hfile : db.inodes.get? 2 = some file) (ts : Timespec) :
    Worn (nextId next) there here (db.apply (renameBatch Volume.plain ROOT_INO here ROOT_INO there
      src root file ⟨[], root, none, 0, 0⟩ false ts)) := by
  obtain ⟨⟨hhere, hthere, hne⟩, ⟨i, hi, hdir, hn⟩, -, ⟨j, hj, hkind⟩, -⟩ := h
  obtain rfl : i = root := Option.some.inj (hi.symm.trans hroot)
  obtain rfl : j = file := Option.some.inj (hj.symm.trans hfile)
  rw [apply_renameBatch, apply_nil]
  refine ⟨⟨hthere, hhere, hne.symm⟩, ⟨newDirAfter i false ts, ?_, hdir, congrArg nextId hn⟩,
    ⟨_, get?_insert_self .., hchild⟩, ⟨movedNode j false ROOT_INO ts, ?_, hkind⟩, ?_⟩
  · rw [get?_inodesAfterMove, if_pos rfl]
  · rw [get?_inodesAfterMove, if_neg (by decide), if_neg (by decide), if_pos hchild.symm]
  · refine get?_insert_ne ?_ (get?_erase_self ..)
    intro he
    exact hne (Prod.mk.inj (toLex.injective he)).2.symm

/-- Each rename takes an id of the root, and it never fails. -/
lemma rename_worn {next : Nat} {here there : Bytes} (h : Worn next here there db) :
    wp (Oracle.granting.watch (fun _ _ => True) False)
      (fun _ db' => Worn (nextId next) there here db') (fun _ _ => False)
      (rename 1 Volume.plain .root ROOT_INO here ROOT_INO there) db := by
  obtain ⟨⟨hhere, hthere, hne⟩, ⟨root, hroot, hdir, -⟩, ⟨src, hsrc, hchild⟩, ⟨file, hfile, hkind⟩,
    hfree⟩ := id h
  have hseal : ∀ name, Volume.plain.names.sealName ROOT_INO name = name := fun _ => rfl
  have haccess : ∀ i a, access .root i a = .ok () := fun i a => rfl
  have hsticky : checkSticky .root root file = .ok () := by
    simp [checkSticky, Credentials.isPrivileged, Credentials.root]
  have hleaf : file.kind.isDir = false := by rw [hkind]; rfl
  have hok : ∀ {T : Db → Db → Prop} {Q : Unit → Db → Prop} {E : Abort → Db → Prop} {db : Db},
      wp (Oracle.granting.watch T False) Q E (FsM.ofExcept (.ok ())) db ↔ Q () db := Iff.rfl
  have hloadDir : ∀ {T : Db → Db → Prop} {Q : Inode → Db → Prop} {E : Abort → Db → Prop},
      wp (Oracle.granting.watch T False) Q E (loadDir ROOT_INO) db ↔ Q root db := by
    simp [wp_loadDir, hroot, hdir]
  have hload : ∀ {T : Db → Db → Prop} {Q : Inode → Db → Prop} {E : Abort → Db → Prop},
      wp (Oracle.granting.watch T False) Q E (loadInode 2) db ↔ Q file db := by
    simp [wp_loadInode, hfile]
  simp only [rename, hhere, hthere, hok, wp_bind, wp_withGuards, renameLoop, wp_direntOf, hseal]
  rw [hsrc]
  simp only [renameLocked, wp_bind, wp_direntOf, hseal, hsrc, hfree, wp_withGuards]
  -- the entries are as they were found, and the two names differ
  rw [if_neg (by simp), if_neg (by simp), if_neg (by simp [hne])]
  simp only [hchild, wp_bind, hloadDir, haccess, hok, wp_pure, if_true, wp_mapErr, hload, hsticky,
    hleaf, Bool.false_and, if_false, Bool.false_eq_true, wp_now, replaceTarget, renameCommit,
    wp_commit, wp_attrsInsert, wp_insertNegative, wp_removeNegative, wp_reserveQuiet, ne_eq,
    not_true_eq_false]
  exact fun ts => ⟨.inr trivial, fun _ _ => h.renamed hroot hchild hfile ts⟩

lemma worn_reached (k : Nat) : ∃ s here there, Rests Volume.plain (fun _ _ => True)
    (freshVolume ⟨0, 0⟩ {}) s ∧ s.mem.quota.limits = {} ∧
      Worn ((4 + k) % 2 ^ 64) here there s.db := by
  induction k with
  | zero =>
    obtain ⟨s, hs, hl, hroot, hentry, hfile, hfree⟩ := Rests.of_runAll Volume.plain
      (fun _ _ => True) .still 9 .root [.create 1 [97] 0o644 true] (freshVolume ⟨0, 0⟩ {})
      (fun s => s.mem.quota.limits = {} ∧
        (s.db.inodes.get? 1).map (fun i => (i.kind, i.nextDirentId)) = some (.dir, 4) ∧
        (s.db.dirents.get? (toLex (1, [97]))).map Dirent.childIno = some 2 ∧
        (s.db.inodes.get? 2).map Inode.kind = some .file ∧
        s.db.dirents.get? (toLex (1, [98])) = none) (by decide +kernel)
    obtain ⟨i, hi, hroot⟩ := Option.map_eq_some_iff.mp hroot
    exact ⟨s, [97], [98], hs, hl, ⟨rfl, rfl, by decide⟩,
      ⟨i, hi, (Prod.mk.inj hroot).1, (Prod.mk.inj hroot).2⟩, Option.map_eq_some_iff.mp hentry,
      Option.map_eq_some_iff.mp hfile, hfree⟩
  | succ k ih =>
    obtain ⟨s, here, there, hs, hl, hw⟩ := ih
    have hwp : wp (Oracle.granting.watch (fun _ _ => True) False)
        (fun _ db' => Worn (nextId ((4 + k) % 2 ^ 64)) there here db') (fun _ _ => False)
        (Op.prog Volume.plain 1 .root (.rename ROOT_INO here ROOT_INO there)) s.db :=
      (wp_map _ _).mpr (rename_worn hw)
    obtain ⟨r, s', hr, hl', hpost⟩ := granting_returns .still hwp hl
    refine ⟨s', there, here, hs.call trivial hr, hl', ?_⟩
    rw [nextId, Nat.mod_add_mod] at hpost
    cases r with
    | ok a => exact hpost
    | error e => exact hpost.elim

/-- **The counter of a directory goes round.** A file that is renamed often enough has the
last id, and then the next id is zero. -/
theorem dirent_ids_go_round : ¬∀ s, Reached Volume.plain (fun _ _ => True)
    (freshVolume ⟨0, 0⟩ {}) s → Indexed s.db := by
  intro h
  obtain ⟨s, here, there, hs, -, hw⟩ := worn_reached (2 ^ 64 - 4)
  obtain ⟨i, hi, -, hnext⟩ := hw.root
  obtain ⟨d, hd, -⟩ := hw.entry
  obtain ⟨-, dir, hdir, hlt⟩ := (h s (.rest hs)).issued ROOT_INO here d hd
  obtain rfl : i = dir := Option.some.inj (hi.symm.trans hdir)
  have hzero : (4 + (2 ^ 64 - 4)) % 2 ^ 64 = 0 := by decide
  rw [hnext, hzero] at hlt
  exact absurd hlt (Nat.not_lt_zero _)

end SlateFs
