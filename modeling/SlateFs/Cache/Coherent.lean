import SlateFs.Cache.Names
import SlateFs.Shared.Accounts

/-!
# What is cached is what is stored

Readers put into the cache what they have read, some time after they have read it and
without a lock. Writers bring the cache up to date under the lock of the node they have
changed. Between the two the cache can be wrong for good: a reader reads, a writer
commits and writes through, and the reader's old record lands on top.

`Timely` is the discipline under which it is not: what is put into the cache without a
lock is what is stored at that moment. Then every entry agrees with the store, or with
a change that a running task has committed and not written through yet.
-/

namespace SlateFs

open OrdMap Threads Function Pending

abbrev CacheConf := Conf Call Call.Ret Lock St (Except Abort Reply) Unit

/-- The filesystem's operations, run side by side. -/
def caching (v : Volume) (allows : CacheConf → Nat → Call → Prop) :
    Setting Call Call.Ret Lock St (Except Abort Reply) Unit where
  starts _ p := ∃ fuel creds op, p = (Op.prog v fuel creds op).run
  answers := Call.may
  allows := allows
  crash _ _ := False
  blank := ()
  note _ _ _ := ()

/-- The cache agrees with the store. A node that was deleted is not cached. -/
structure Agrees (v : Volume) (s : St) : Prop where
  node : ∀ ino i, s.mem.attrs.attrs.get? ino = some i → s.db.get (.inode ino) = some i
  name : ∀ p n, s.mem.attrs.negative.get? (toLex (p, n)) = some () →
    s.db.get (.dirent p (v.names.sealName p n)) = none

/-- What is put into the cache without the lock is what is stored. -/
def Settled (v : Volume) (s : St) (held : List Lock) : Call → Prop
  | .attrsInsert ino i =>
    Key.guard (.inode ino) ∈ held ∨ s.db.get (.inode ino) = some i
  | .insertNegative p n =>
    Key.guard (.dirent p []) ∈ held ∨ s.db.get (.dirent p (v.names.sealName p n)) = none
  | _ => True

/-- A task may make a call: it does not cache what is out of date, and it reads no file
that is billed for more bytes than the quota can count. -/
def Timely (v : Volume) (c : CacheConf) (t : Nat) (x : Call) : Prop :=
  Settled v c.st ((c.heldBy t).getD []) x ∧ x.Countable c.st

/-! ## Entries that are right, or about to be -/

section Entries

variable {v : Volume} {s s' : St} {locks : Nat → Option (List Lock)} {δ : Nat → Pending}
  {t : Nat} {ls : List Lock} {δ' : Pending}

/-- A running task has this left to do. -/
def Owed (locks : Nat → Option (List Lock)) (δ : Nat → Pending) (P : Pending → Prop) : Prop :=
  ∃ t, (locks t).isSome ∧ P (δ t)

section Owed

variable {P : Pending → Prop}

lemma owed_own (hP : P δ') :
    Owed (update locks t (some ls)) (update δ t δ') P := by
  refine ⟨t, ?_, ?_⟩
  · rw [update_self]
    rfl
  · rw [update_self]
    exact hP

/-- What another task has left to do stays with it. -/
lemma Owed.keep (h : Owed locks δ P) (himp : (locks t).isSome → P (δ t) → P δ') :
    Owed (update locks t (some ls)) (update δ t δ') P := by
  obtain ⟨u, hu, hP⟩ := h
  by_cases he : u = t
  · subst he
    exact owed_own (himp hu hP)
  · refine ⟨u, ?_, ?_⟩
    · rwa [update_of_ne he]
    · rwa [update_of_ne he]

lemma Owed.finish (h : Owed locks δ P) (hdone : ¬P (δ t)) :
    Owed (update locks t none) δ P := by
  obtain ⟨u, hu, hP⟩ := h
  have he : u ≠ t := by
    rintro rfl
    exact hdone hP
  refine ⟨u, ?_, hP⟩
  rwa [update_of_ne he]

end Owed

/-- Every cached entry agrees with the store, or a running task has still to put it right. -/
structure Settling (v : Volume) (s : St) (locks : Nat → Option (List Lock)) (δ : Nat → Pending) :
    Prop where
  node : ∀ ino i, s.mem.attrs.attrs.get? ino = some i →
    s.db.get (.inode ino) = some i ∨ Owed locks δ (fun d => ino ∈ d.nodes)
  name : ∀ p n, s.mem.attrs.negative.get? (toLex (p, n)) = some () →
    s.db.get (.dirent p (v.names.sealName p n)) = none ∨
      Owed locks δ (fun d => (p, v.names.sealName p n) ∈ d.names)

namespace Settling

/-- **One task moves.** An entry that was right, or that this task was to put right, must
be right or still on its list. -/
theorem moved (h : Settling v s locks δ)
    (hnode : ∀ ino i, s'.mem.attrs.attrs.get? ino = some i →
      s'.db.get (.inode ino) = some i ∨ ino ∈ δ'.nodes ∨
        s.mem.attrs.attrs.get? ino = some i ∧ s'.db.get (.inode ino) = s.db.get (.inode ino) ∧
          (ino ∈ (δ t).nodes → ino ∈ δ'.nodes))
    (hname : ∀ p n, s'.mem.attrs.negative.get? (toLex (p, n)) = some () →
      s'.db.get (.dirent p (v.names.sealName p n)) = none ∨
        (p, v.names.sealName p n) ∈ δ'.names ∨
        s.mem.attrs.negative.get? (toLex (p, n)) = some () ∧
          s'.db.get (.dirent p (v.names.sealName p n)) =
            s.db.get (.dirent p (v.names.sealName p n)) ∧
          ((p, v.names.sealName p n) ∈ (δ t).names → (p, v.names.sealName p n) ∈ δ'.names)) :
    Settling v s' (update locks t (some ls)) (update δ t δ') := by
  refine ⟨fun ino i hi => ?_, fun p n hn => ?_⟩
  · rcases hnode ino i hi with hr | hm | ⟨hi, hdb, himp⟩
    · exact .inl hr
    · exact .inr (owed_own hm)
    · rw [hdb]
      exact (h.node ino i hi).imp id fun ho => ho.keep fun _ => himp
  · rcases hname p n hn with hr | hm | ⟨hn, hdb, himp⟩
    · exact .inl hr
    · exact .inr (owed_own hm)
    · rw [hdb]
      exact (h.name p n hn).imp id fun ho => ho.keep fun _ => himp

/-- The task's move is none of the cache's business, or it only forgets entries. -/
lemma of_same (h : Settling v s locks δ) (hdb : ∀ k, s'.db.get k = s.db.get k)
    (hnode : ∀ ino i, s'.mem.attrs.attrs.get? ino = some i → s.mem.attrs.attrs.get? ino = some i)
    (hname : ∀ k, s'.mem.attrs.negative.get? k = some () → s.mem.attrs.negative.get? k = some ()) :
    Settling v s' (update locks t (some ls)) (update δ t (δ t)) := by
  refine h.moved (fun ino i hi => ?_) fun p n hn => ?_
  · exact .inr (.inr ⟨hnode ino i hi, hdb _, id⟩)
  · exact .inr (.inr ⟨hname _ hn, hdb _, id⟩)

lemma of_still (h : Settling v s locks δ) (hdb : s'.db = s.db)
    (hattrs : s'.mem.attrs = s.mem.attrs) :
    Settling v s' (update locks t (some ls)) (update δ t (δ t)) :=
  h.of_same (by simp [hdb]) (by simp [hattrs]) (by simp [hattrs])

lemma start (h : Settling v s locks δ) (hidle : locks t = none) :
    Settling v s (update locks t (some [])) (update δ t .clear) := by
  have hnot : ¬(locks t).isSome := by simp [hidle]
  exact ⟨fun ino i hi => (h.node ino i hi).imp id fun ho => ho.keep fun hs => absurd hs hnot,
    fun p n hn => (h.name p n hn).imp id fun ho => ho.keep fun hs => absurd hs hnot⟩

/-- A task that ends has nothing left to put right. -/
lemma finish (h : Settling v s locks δ) (hdone : δ t = .clear) :
    Settling v s (update locks t none) δ := by
  refine ⟨fun ino i hi => (h.node ino i hi).imp id fun ho => ho.finish ?_,
    fun p n hn => (h.name p n hn).imp id fun ho => ho.finish ?_⟩
  · rw [hdone]
    exact List.not_mem_nil
  · rw [hdone]
    exact List.not_mem_nil

/-! ### Calls -/

variable {b : Batch} {κ : Nat → Known}

lemma mem_nodes_of_lastWrite {ino : Ino} (h : lastWrite (.inode ino) b ≠ none) :
    ino ∈ b.filterMap Write.node := by
  obtain ⟨w, hw, hkey⟩ := exists_of_lastWrite h
  refine List.mem_filterMap.mpr ⟨w, hw, ?_⟩
  cases w with
  | put k x => obtain rfl := Option.some.inj hkey; rfl
  | delete k => obtain rfl := Option.some.inj hkey; rfl
  | _ => cases hkey

lemma mem_names_of_lastName {p : Ino} {enc : Bytes} {d : Dirent}
    (h : lastName p enc b = some (some d)) : (p, enc) ∈ b.filterMap Write.name := by
  induction b with
  | nil => cases h
  | cons w b ih =>
    rw [lastName] at h
    cases hb : lastName p enc b with
    | some o =>
      rw [hb] at h
      have := ih (hb.trans (by simpa using h))
      obtain ⟨w', hw', hname⟩ := List.mem_filterMap.mp this
      exact List.mem_filterMap.mpr ⟨w', List.mem_cons_of_mem _ hw', hname⟩
    | none =>
      rw [hb, Option.none_or] at h
      refine List.mem_filterMap.mpr ⟨w, List.mem_cons_self, ?_⟩
      unfold Write.toName at h
      split at h
      · split at h
        · rename_i he
          rw [Write.name, he.1, he.2]
        · cases h
      · split at h <;> cases h
      · cases h

lemma commit (h : Settling v s locks δ) (hdb : s'.db = s.db.apply b)
    (hattrs : s'.mem.attrs = s.mem.attrs) :
    Settling v s' (update locks t (some ls)) (update δ t
      ⟨b.filterMap Write.node ++ (δ t).nodes, b.filterMap Write.name ++ (δ t).names⟩) := by
  refine h.moved (fun ino i hi => ?_) fun p n hn => ?_
  · rw [hattrs] at hi
    by_cases hw : lastWrite (.inode ino) b = none
    · refine .inr (.inr ⟨hi, ?_, List.mem_append_right _⟩)
      rw [hdb, Db.get_apply, hw]
      rfl
    · exact .inr (.inl (List.mem_append_left _ (mem_nodes_of_lastWrite hw)))
  · rw [hattrs] at hn
    have hget : s'.db.get (.dirent p (v.names.sealName p n)) =
        (lastName p (v.names.sealName p n) b).getD
          (s.db.get (.dirent p (v.names.sealName p n))) := by
      rw [hdb, Db.get_apply, lastWrite_dirent]
      rfl
    cases hw : lastName p (v.names.sealName p n) b with
    | none =>
      rw [hw] at hget
      exact .inr (.inr ⟨hn, hget, List.mem_append_right _⟩)
    | some o =>
      cases o with
      | none =>
        rw [hw] at hget
        exact .inl hget
      | some d => exact .inr (.inl (List.mem_append_left _ (mem_names_of_lastName hw)))

lemma attrsInsert (h : Settling v s locks δ) (hgood : Good s locks κ) (ht : locks t = some ls)
    {ino : Ino} {i : Inode} (r : (Call.attrsInsert ino i).Ret)
    (hok : Pending.Proper v (.attrsInsert ino i) (κ t) (δ t))
    (hset : Settled v s ls (.attrsInsert ino i))
    (hs : s' = s.setAttrs { s.mem.attrs with attrs := s.mem.attrs.attrs.insert ino i }) :
    Settling v s' (update locks t (some ls))
      (update δ t (after v (.attrsInsert ino i) (κ t) (δ t) r)) := by
  obtain ⟨hheld, htrue⟩ := hgood.task t ls ht
  subst hs
  -- the entry is right, or the node is on the list and stays there
  have hnew : s.db.get (.inode ino) = some i ∨
      ino ∈ (after v (.attrsInsert ino i) (κ t) (δ t) r).nodes := by
    by_cases hg : Key.guard (.inode ino) ∈ (κ t).held
    · by_cases hk : (κ t).node ino = some (some i)
      · exact .inl (htrue.known _ _ hk)
      refine .inr ?_
      rw [after_attrsInsert_of_unknown hk hg]
      exact (hok hg).resolve_left hk
    · exact .inl (hset.resolve_left (hheld ▸ hg))
  refine h.moved (fun x j hx => ?_) fun p n hn => .inr (.inr ⟨hn, rfl, fun hm => ?_⟩)
  · by_cases hxi : x = ino
    · subst hxi
      obtain rfl := Option.some.inj ((get?_insert_self ..).symm.trans hx)
      exact hnew.imp id .inl
    · have hx := (get?_insert_of_ne _ _ hxi).symm.trans hx
      exact .inr (.inr ⟨hx, rfl, mem_after_attrsInsert hxi⟩)
  · rwa [names_after_attrsInsert]

/-- **A call keeps the entries settling.** -/
theorem call (h : Settling v s locks δ) (hgood : Good s locks κ) (ht : locks t = some ls) {x : Call}
    {r : x.Ret} (hm : x.may s r s') (hok : Pending.Proper v x (κ t) (δ t))
    (hset : Settled v s ls x) :
    Settling v s' (update locks t (some ls))
      (update δ t (after v x (κ t) (δ t) r)) := by
  rcases hm with ⟨env, he⟩ | ⟨hf, rfl⟩
  · obtain rfl : (x.answer env s).1 = r := by rw [he]
    obtain rfl : (x.answer env s).2 = s' := by rw [he]
    cases x
    case commit b => exact h.commit rfl rfl
    case attrsInsert ino i => exact h.attrsInsert hgood ht _ hok hset rfl
    case attrsRemove ino =>
      refine h.moved (fun x j hx => ?_) fun p n hn => .inr (.inr ⟨hn, rfl, id⟩)
      have hx : (s.mem.attrs.attrs.erase ino).get? x = some j := hx
      rw [get?_erase] at hx
      split at hx
      · cases hx
      · rename_i hne
        exact .inr (.inr ⟨hx, rfl, fun hm => List.mem_filter.mpr ⟨hm, decide_eq_true hne⟩⟩)
    case insertNegative p n =>
      obtain ⟨hheld, htrue⟩ := hgood.task t ls ht
      have hnone : s.db.get (.dirent p (v.names.sealName p n)) = none := by
        by_cases hg : Key.guard (.dirent p []) ∈ (κ t).held
        · exact htrue.known _ _ (hok hg)
        · exact hset.resolve_left (hheld ▸ hg)
      refine h.moved (fun x j hx => .inr (.inr ⟨hx, rfl, id⟩)) fun q m hm => ?_
      rcases of_get?_insert hm with ⟨heq, -⟩ | hm
      · obtain ⟨rfl, rfl⟩ := Prod.mk.inj (toLex.injective heq)
        exact .inl hnone
      · exact .inr (.inr ⟨hm, rfl, id⟩)
    case removeNegative p n =>
      refine h.moved (fun x j hx => .inr (.inr ⟨hx, rfl, id⟩)) fun q m hm => ?_
      have hm : (s.mem.attrs.negative.erase (toLex (p, n))).get? (toLex (q, m)) = some () := hm
      rw [get?_erase] at hm
      split at hm
      · cases hm
      rename_i hne
      refine .inr (.inr ⟨hm, rfl, fun hmem => List.mem_filter.mpr ⟨hmem, decide_eq_true ?_⟩⟩)
      -- sealed names tell names apart
      intro heq
      obtain ⟨rfl, hseal⟩ := Prod.mk.inj heq
      exact hne (by rw [v.names.seal_inj hseal])
    case attrsGet ino =>
      simp only [Call.answer]
      split
      · exact h.of_same (fun _ => rfl) (fun _ _ => get?_of_get?_erase) fun _ => id
      · exact h.of_still rfl rfl
    case isNegative p n =>
      simp only [Call.answer]
      split
      · exact h.of_same (fun _ => rfl) (fun _ _ => id) fun _ => get?_of_get?_erase
      · exact h.of_still rfl rfl
    case putNextIno n => exact h.of_same (fun k => by cases k <;> rfl) (fun _ _ => id) fun _ => id
    all_goals exact h.of_still rfl rfl
  · -- a failed commit owes nothing
    cases x
    case commit b =>
      obtain rfl := Option.some.inj hf
      exact h.of_still rfl rfl
    all_goals first | exact h.of_still rfl rfl | cases hf

end Settling

end Entries

/-! ## Runs -/

/-- The accounts are good and the entries are settling. -/
structure Coherent (v : Volume) (c : CacheConf) (γ : Nat → Known × Pending) : Prop where
  good : Good c.st c.heldBy (fun t => (γ t).1)
  settling : Settling v c.st c.heldBy (fun t => (γ t).2)

section Runs

variable {v : Volume} {c : CacheConf} {γ : Nat → Known × Pending} {t : Nat} {s' : St}
  {p : Prog Call Call.Ret Lock (Except Abort Reply)} {held held' : List Lock}

lemma Coherent.of_moved {γ' : Known × Pending}
    (hgood : Good s' (update c.heldBy t (some held'))
      (update (fun u => (γ u).1) t γ'.1))
    (hset : Settling v s' (update c.heldBy t (some held'))
      (update (fun u => (γ u).2) t γ'.2)) :
    Coherent v ⟨s', c.tasks.insert t ⟨p, held', ()⟩⟩ (update γ t γ') := by
  refine ⟨?_, ?_⟩
  · rw [Conf.heldBy_insert]
    exact (congrArg (Good s' _) (comp_update Prod.fst γ t γ')).mpr hgood
  · rw [Conf.heldBy_insert]
    exact (congrArg (Settling v s' _) (comp_update Prod.snd γ t γ')).mpr hset

lemma heldBy_of_get {n : Unit} (ht : c.tasks.get? t = some ⟨p, held, n⟩) :
    c.heldBy t = some held := by
  rw [Conf.heldBy, ht]
  rfl

lemma coherent_outline (v : Volume) :
    Setting.Outline (caching v (Timely v)) (through v).track.ghost (.blank, .clear)
      (FsM.Post (fun _ => Pending.Done) (fun _ => Pending.Done)) (Coherent v) where
  prog s p hp := by
    obtain ⟨fuel, creds, op, rfl⟩ := hp
    exact (serves v).op fuel creds op
  start := by
    intro c γ t p h ht _
    refine .of_moved h.good.start (h.settling.start ?_)
    rw [Conf.heldBy, ht]
    rfl
  call := by
    rintro c γ t x k held ⟨⟩ r s' h ht ⟨hset, hcount⟩ hm
    have hheld := heldBy_of_get ht
    obtain ⟨hallows, hgood⟩ := h.good.call hheld hm
    refine ⟨_, ⟨⟨hallows, canAnswer_of_may hcount hm⟩, rfl⟩, fun hok => .of_moved (hgood hok.1) ?_⟩
    rw [hheld] at hset
    exact h.settling.call h.good hheld hm hok.2 hset
  acquire := by
    rintro c γ t l k held ⟨⟩ h ht hfree
    have hheld := heldBy_of_get ht
    refine .of_moved (h.good.acquire hheld fun u ms hu => ?_) ?_
    · obtain ⟨τ, hτ, rfl⟩ := Option.map_eq_some_iff.mp hu
      exact hfree u τ hτ
    · exact h.settling.of_still rfl rfl
  release := by
    rintro c γ t l k held ⟨⟩ h ht
    exact .of_moved (h.good.release (heldBy_of_get ht)) (h.settling.of_still rfl rfl)
  finish := by
    intro c γ t a held n h ht hdone
    refine ⟨?_, ?_⟩
    · rw [Conf.heldBy_erase]
      exact h.good.finish
    · rw [Conf.heldBy_erase]
      refine h.settling.finish ?_
      cases a <;> exact hdone
  crash := fun _ h => h.elim

/-- Every number in use is one the allocator has passed. -/
def Allocated (s : St) : Prop := ∀ ino i, s.db.get (.inode ino) = some i → ino < s.mem.alloc.next

/-- **Once nothing runs, what is cached is what is stored**, in every run in which nothing
out of date is put into the cache without a lock. -/
theorem cached_is_stored (v : Volume) (s₀ : St) (hcache : Agrees v s₀) (halloc : Allocated s₀)
    (c : CacheConf) (hr : (caching v (Timely v)).Reached s₀ c) (hrest : c.tasks = ∅) :
    Agrees v c.st := by
  have hstart : Coherent v ⟨s₀, ∅⟩ fun _ => (.blank, .clear) := by
    refine ⟨⟨nofun, nofun, nofun, halloc⟩, ?_⟩
    exact ⟨fun ino i hi => .inl (hcache.node ino i hi), fun p n hn => .inl (hcache.name p n hn)⟩
  obtain ⟨γ, h, -⟩ := (coherent_outline v).reached hstart hr
  have hnone : ∀ {P : Pending → Prop}, ¬Owed c.heldBy (fun t => (γ t).2) P := by
    rintro P ⟨t, ht, -⟩
    rw [Conf.heldBy, hrest] at ht
    cases ht
  refine ⟨fun ino i hi => ?_, fun p n hn => ?_⟩
  · exact (h.settling.node ino i hi).resolve_right hnone
  · exact (h.settling.name p n hn).resolve_right hnone

end Runs

/-! ## Two runs -/

/-- Answer calls from the state, and let storage calls fail when told to. -/
def cacheDriver (env : Env) (v : Volume) (allows : CacheConf → Nat → Call → Prop)
    [∀ c t x, Decidable (allows c t x)] : Setting.Driver (caching v allows) where
  handler := Call.answer env
  failure := Call.failure
  admits c t x := decide (allows c t x)
  answers := Call.may_answer env
  fails := Call.may_fail
  allows c t x h := of_decide_eq_true (p := allows c t x) h

instance (v : Volume) (s : St) (held : List Lock) : DecidablePred (Settled v s held) := fun x => by
  rcases x
  case attrsInsert ino i => exact inferInstanceAs (Decidable (_ ∨ s.db.inodes.get? ino = some i))
  case insertNegative p n => exact inferInstanceAs
    (Decidable (_ ∨ s.db.dirents.get? (toLex (p, v.names.sealName p n)) = none))
  all_goals exact inferInstanceAs (Decidable True)

instance (s : St) : DecidablePred (Call.Countable s) := fun x => by
  rcases x with ⟨ino | _⟩ | _
  case get.inode => exact inferInstanceAs
    (Decidable (∀ n ∈ s.db.inodes.get? ino, n.billedBytes.toNat < 2 ^ 63))
  all_goals exact inferInstanceAs (Decidable True)

instance (v : Volume) (c : CacheConf) (t : Nat) : DecidablePred (Timely v c t) := fun _ =>
  inferInstanceAs (Decidable (_ ∧ _))

/-- Start a call and let it make some moves. -/
def play (t moves : Nat) (op : Op) :
    List (Setting.Move Call Call.Ret Lock St (Except Abort Reply)) :=
  Setting.Move.play t moves (op.prog .plain 4 .root).run

variable {allows : CacheConf → Nat → Call → Prop}

lemma play_fits {t moves : Nat} {op : Op} :
    ∀ m ∈ play t moves op, m.Fits (caching .plain allows) :=
  Setting.Move.play_fits fun _ => ⟨4, .root, op, rfl⟩

/-- A volume with nothing but its root, just mounted. -/
def mountedRoot : St := freshVolume ⟨0, 0⟩ {}

lemma mountedRoot_agrees : Agrees .plain mountedRoot := ⟨nofun, nofun⟩

lemma mountedRoot_allocated : Allocated mountedRoot := by
  intro ino i hi
  rcases of_get?_insert hi with ⟨rfl, -⟩ | hi
  · decide
  · cases hi

/-- The root's mode as it is cached. -/
def cachedMode (c : CacheConf) : Option UInt32 :=
  (c.st.mem.attrs.attrs.get? ROOT_INO).map Inode.mode

/-- The root's mode as it is stored. -/
def storedMode (c : CacheConf) : Option UInt32 := (c.st.db.inodes.get? ROOT_INO).map Inode.mode

/-- The root is looked at, and then its mode is changed. -/
def inTurn : List (Setting.Move Call Call.Ret Lock St (Except Abort Reply)) :=
  play 1 4 (.getattr 1) ++ play 2 7 (.setattr 1 { mode := some 0o700 })

lemma inTurn_fits : ∀ m ∈ inTurn, m.Fits (caching .plain allows) :=
  List.forall_mem_append.mpr ⟨play_fits, play_fits⟩

/-- A change is written through. -/
theorem inTurn_cached_is_stored : ∃ c, (caching .plain (Timely .plain)).Reached mountedRoot c ∧
    cachedMode c = some 0o700 ∧ Agrees .plain c.st := by
  obtain ⟨c, hr, hc⟩ := Setting.Reached.of_moves (cacheDriver .still .plain (Timely .plain)) inTurn
    mountedRoot (fun c => c.tasks.entries.length = 0 ∧ cachedMode c = some 0o700) inTurn_fits
    (by decide +kernel)
  have hrest : c.tasks = ∅ := eq_empty_of_entries (List.eq_nil_of_length_eq_zero hc.1)
  exact ⟨c, hr, hc.2, cached_is_stored .plain mountedRoot mountedRoot_agrees mountedRoot_allocated
    c hr hrest⟩

/-- The root is read, its mode is changed and written through, and what was read before
is put into the cache. -/
def overtakenReader : List (Setting.Move Call Call.Ret Lock St (Except Abort Reply)) :=
  play 1 2 (.getattr 1) ++ play 2 7 (.setattr 1 { mode := some 0o700 }) ++ [.step 1, .step 1]

lemma overtakenReader_fits : ∀ m ∈ overtakenReader, m.Fits (caching .plain allows) := by
  simp only [overtakenReader, List.forall_mem_append]
  exact ⟨⟨play_fits, play_fits⟩, by simp [Setting.Move.Fits]⟩

/-- **A reader that is overtaken leaves an old record in the cache.** Nothing runs any more,
the store says 0700 and the cache says 0755. -/
theorem overtakenReader_caches_stale : Agrees .plain mountedRoot ∧ Allocated mountedRoot ∧ ∃ c,
    (caching .plain (fun _ _ _ => True)).Reached mountedRoot c ∧ c.tasks = ∅ ∧
      ¬Agrees .plain c.st := by
  obtain ⟨c, hr, hc⟩ := Setting.Reached.of_moves (cacheDriver .still .plain (fun _ _ _ => True))
    overtakenReader mountedRoot (fun c => c.tasks.entries.length = 0 ∧
      cachedMode c = some 0o755 ∧ storedMode c = some 0o700) overtakenReader_fits
    (by decide +kernel)
  obtain ⟨hlen, hcached, hstored⟩ := hc
  refine ⟨mountedRoot_agrees, mountedRoot_allocated, c, hr,
    eq_empty_of_entries (List.eq_nil_of_length_eq_zero hlen), fun h => ?_⟩
  obtain ⟨i, hi, hmode⟩ := Option.map_eq_some_iff.mp hcached
  have hdb : c.st.db.inodes.get? ROOT_INO = some i := h.node ROOT_INO i hi
  rw [storedMode, hdb, Option.map_some, hmode] at hstored
  exact absurd hstored (by decide)

end SlateFs
