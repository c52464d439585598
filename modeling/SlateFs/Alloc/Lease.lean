import SlateFs.Shapes.Serves
import SlateFs.Lib.Threads

/-!
# Inode numbers across crashes

Numbers are handed out from a lease kept in memory; the store holds the end of the
lease (`meta/alloc.rs`). Writes reach the disk in the order they were issued, and a
crash keeps some prefix of them, so what matters is the order in which the end of a
lease and the records that use it are written. Here any number of tasks create nodes,
renewals and commits may fail, and a crash may come at any time.
-/

namespace SlateFs

open OrdMap Threads Track Function

/-! ## The disk and its past -/

/-- The store after some write, and the numbers whose nodes were created up to there. -/
structure Point where
  db : Db
  born : List Nat

/-- A mounted volume together with what a crash could take it back to. -/
structure Disk where
  st : St
  /-- Numbers whose nodes were created by the writes so far, latest first. -/
  born : List Nat
  /-- The points before the present one, latest first. -/
  past : List Point

def Disk.point (d : Disk) : Point := ⟨d.st.db, d.born⟩

/-- The nodes a batch creates are the ones it gives a name to. -/
def nameIn : Write → Option Nat
  | .put (.dirent _ _) d => some (Dirent.childIno d)
  | _ => none

def newborn (b : Batch) : List Nat := b.filterMap nameIn

/-- A successful write leaves the present behind it as a point of the past. -/
def Disk.after (d : Disk) : (c : Call) → c.Ret → St → Disk
  | .commit b, .ok _, s' => ⟨s', newborn b ++ d.born, d.point :: d.past⟩
  | .putNextIno _, .ok _, s' => ⟨s', d.born, d.point :: d.past⟩
  | _, _, s' => ⟨s', d.born, d.past⟩

/-- The store as it was at a point, mounted again: the allocator takes a new lease from
the mark it finds, if there are numbers left, and writes its end. -/
def Disk.reload (d : Disk) (p : Point) (older : List Point) (limits : QuotaLimits) :
    Except Invalid Disk :=
  (St.load ⟨p.db, d.st.mem, d.st.commits⟩ limits).map fun s => ⟨s, p.born, p :: older⟩

/-- The calls that create a node. -/
def Op.creates : Op → Bool
  | .create _ _ _ _ | .mkdir _ _ _ | .mknod _ _ _ _ _ | .symlink _ _ _ => true
  | _ => false

abbrev DiskConf := Conf Call Call.Ret Lock Disk (Except Abort Reply) Unit

/-- Tasks that create nodes, on a disk that may crash. -/
def creating (v : Volume) (allows : DiskConf → Nat → Call → Prop) :
    Setting Call Call.Ret Lock Disk (Except Abort Reply) Unit where
  starts _ p := ∃ fuel creds op, Op.creates op = true ∧ p = (op.prog v fuel creds).run
  answers c d r d' := ∃ s', c.may d.st r s' ∧ d' = d.after c r s'
  allows := allows
  crash d d' := ∃ p older limits, p :: older <:+ d.point :: d.past ∧
    d.reload p older limits = .ok d'
  blank := ()
  note _ _ _ := ()

/-- A mounted volume at rest: its lease is recorded, and all its nodes have numbers
below the next one. -/
structure Booted (d : Disk) : Prop where
  leased : d.st.mem.alloc.next < d.st.mem.alloc.leaseEnd
  recorded : d.st.db.nextIno = d.st.mem.alloc.leaseEnd
  born : d.born = d.st.db.inodes.entries.map Prod.fst
  used : ∀ n ∈ d.born, n < d.st.mem.alloc.next
  past : d.past = []

/-! ## The law -/

/-- **No number is committed twice.** -/
structure NumberedOnce (Y : Setting Call Call.Ret Lock Disk (Except Abort Reply) Unit)
    (c : DiskConf) : Prop where
  /-- The allocator never returns a number that was committed. -/
  fresh : ∀ t k held n, c.tasks.get? t = some ⟨.call .allocate k, held, n⟩ →
    Y.allows c t .allocate → c.st.st.mem.alloc.allocate.1.1 ∉ c.st.born
  /-- No two nodes were created with one number. -/
  once : c.st.born.Nodup

/-- A number is allocated only while the lease in memory is the one that is stored: no
renewal is taken that has not been written. And there is room for another lease: the
numbers are `u64`, and the allocator does not check. -/
def Recorded (c : DiskConf) (_ : Nat) : Call → Prop
  | .allocate => c.st.st.db.nextIno = c.st.st.mem.alloc.leaseEnd ∧
      c.st.st.mem.alloc.leaseEnd + LEASE_SIZE < 2 ^ 64
  | _ => True

/-! ## What a task has in hand -/

/-- A number that is not committed yet, and a renewal that is not written yet. -/
structure Hand where
  number : Option Nat
  renewal : Option Nat

namespace Hand

def after : (c : Call) → c.Ret → Hand → Hand
  | .allocate, r, _ => ⟨some r.1, r.2⟩
  | .putNextIno _, _, h => ⟨h.number, none⟩
  | .commit _, .ok _, h => ⟨none, h.renewal⟩
  | _, _, h => h

/-- The renewal is written first, then the node is created with the number in hand. -/
def Proper : Call → Hand → Prop
  | .allocate, h => h.renewal = none
  | .putNextIno e, h => h.renewal = some e
  | .commit b, h => newborn b = h.number.toList
  | _, _ => True

end Hand

/-- Following what a task has in hand. -/
def hands : Track Hand :=
  .ofCalls (fun _ _ _ => True) (fun c h _ => h.Proper c) (fun c h r => h.after c r)
    fun c h r hc => by cases c <;> first | exact ⟨trivial, rfl⟩ | cases hc

namespace Hand

open FsM (wp wp_seq)

lemma wp_makeNode {v : Volume} {parent : Ino} {dir : Inode} {name : Bytes}
    {mk : Timespec → Inode} {target : Option Bytes} :
    wp hands.ghost (fun _ _ => True) (fun _ _ => True) (makeNode v parent dir name mk target)
      ⟨none, none⟩ := by
  have hinsert : ∀ n child, wp hands.ghost (fun _ _ => True) (fun _ _ => True)
      (insertNewNode v parent dir name n child target) ⟨some n, none⟩ := by
    intro n child
    refine wp_seq (wp_then fun r _ => ⟨trivial, ?_⟩)
    refine wp_ofExcept (fun _ => trivial) fun _ _ => ?_
    refine wp_seq (wp_now (quiet_ofCalls _) fun ts => ?_)
    refine wp_then fun r _ => ⟨by cases target <;> rfl, ?_⟩
    cases r with
    | error e => exact wp_then fun _ _ => ⟨trivial, trivial⟩
    | ok _ =>
      refine wp_then fun _ _ => ⟨trivial, ?_⟩
      refine wp_then fun _ _ => ⟨trivial, ?_⟩
      exact (wp_call (.removeNegative _ _)).mpr fun _ _ => ⟨trivial, trivial⟩
  have hrest : ∀ n, wp hands.ghost (fun _ _ => True) (fun _ _ => True) (do
      let ts ← now
      let child := mk ts
      insertNewNode v parent dir name n child target
      pure (makeAttr n child)) ⟨some n, none⟩ := by
    intro n
    refine wp_seq (wp_now (quiet_ofCalls _) fun ts => ?_)
    exact wp_seq (FsM.wp_conseq (hinsert n _) (fun _ _ _ => trivial) (fun _ _ _ => trivial))
  refine wp_seq (wp_then fun r _ => ⟨rfl, ?_⟩)
  obtain ⟨n, renew⟩ := r
  cases renew with
  | none => exact hrest n
  | some e =>
    refine wp_seq (wp_then fun r _ => ⟨rfl, ?_⟩)
    exact wp_mapped (fun _ => trivial) fun _ _ => hrest n

/-- A task that creates a node has its renewal written before its number is used. -/
lemma wp_creates {v : Volume} (fuel : Nat) (creds : Credentials) {op : Op}
    (hop : op.creates = true) :
    wp hands.ghost (fun _ _ => True) (fun _ _ => True) (op.prog v fuel creds) ⟨none, none⟩ := by
  have hmake : ∀ parent name, hands.Makes ⟨none, none⟩ v parent name
      (fun _ _ => True) (fun _ _ => True) := by
    intro parent name dir mk target h hs _
    obtain rfl := (quiet_ofCalls _).still h hs
    rw [show hands.acqAll _ _ = _ from acqAll_ofCalls _ _]
    exact wp_makeNode
  have hE : hands.AtRest (fun _ _ => True) ⟨none, none⟩ := ⟨quiet_ofCalls _, fun _ => trivial⟩
  cases op <;> rw [Op.prog, FsM.wp_map]
  case create => exact wp_create hE (fun _ => trivial) (hmake _ _)
  case mkdir => exact wp_mkdir hE (hmake _ _)
  case mknod => exact wp_mknod hE (hmake _ _)
  case symlink => exact wp_symlink hE (hmake _ _)
  all_goals cases hop

end Hand

/-! ## The invariant -/

lemma apply_nextIno (db : Db) (b : Batch) : (db.apply b).nextIno = db.nextIno := by
  induction b generalizing db with
  | nil => rfl
  | cons w b ih =>
    rw [Db.apply_cons, ih]
    cases w with
    | put k x => cases k <;> rfl
    | delete k => cases k <;> rfl
    | mergeBytes d => rfl
    | mergeInodes d => rfl

/-- The calls that matter to numbers. -/
def Hand.moves : Call → Bool
  | .allocate | .putNextIno _ | .commit _ => true
  | _ => false

variable {x : Call} {allows : DiskConf → Nat → Call → Prop}

lemma Hand.after_other (hx : Hand.moves x = false) (r : x.Ret) (h : Hand) : h.after x r = h := by
  cases x <;> first | rfl | cases hx

/-- Other calls leave the disk and the allocator alone. -/
lemma may_disk (hx : Hand.moves x = false) {s s' : St} {r : x.Ret} (h : x.may s r s') :
    s'.db = s.db ∧ s'.mem.alloc = s.mem.alloc := by
  rcases h with ⟨env, he⟩ | ⟨-, rfl⟩
  · obtain rfl : (x.answer env s).2 = s' := by rw [he]
    cases x
    case attrsGet => simp only [Call.answer]; split <;> exact ⟨rfl, rfl⟩
    case isNegative => simp only [Call.answer]; split <;> exact ⟨rfl, rfl⟩
    all_goals first | exact ⟨rfl, rfl⟩ | cases hx
  · exact ⟨rfl, rfl⟩

lemma Disk.after_other (hx : Hand.moves x = false) (d : Disk) (r : x.Ret) (s' : St) :
    d.after x r s' = ⟨s', d.born, d.past⟩ := by
  cases x <;> first | rfl | cases hx

section Invariant

variable {c : DiskConf} {γ : Nat → Hand} {t u n e : Nat} {d' : Disk} {h' : Hand}

/-- A running task has a number it has not committed. -/
def InHand (c : DiskConf) (γ : Nat → Hand) (t n : Nat) : Prop :=
  (c.tasks.get? t).isSome ∧ (γ t).number = some n

/-- A running task has a renewal it has not written. -/
def Owes (c : DiskConf) (γ : Nat → Hand) (t e : Nat) : Prop :=
  (c.tasks.get? t).isSome ∧ (γ t).renewal = some e

variable {τ' : Task Call Call.Ret Lock (Except Abort Reply) Unit}

lemma has_insert (f : Hand → Option Nat) :
    ((c.tasks.insert t τ').get? u).isSome ∧ f (update γ t h' u) = some n ↔
      u = t ∧ f h' = some n ∨ u ≠ t ∧ (c.tasks.get? u).isSome ∧ f (γ u) = some n := by
  by_cases hut : u = t
  · subst hut
    simp
  · simp [get?_insert_of_ne _ _ hut, hut]

lemma inHand_insert : InHand ⟨d', c.tasks.insert t τ'⟩ (update γ t h') u n ↔
    u = t ∧ h'.number = some n ∨ u ≠ t ∧ InHand c γ u n := has_insert Hand.number

lemma owes_insert : Owes ⟨d', c.tasks.insert t τ'⟩ (update γ t h') u e ↔
    u = t ∧ h'.renewal = some e ∨ u ≠ t ∧ Owes c γ u e := has_insert Hand.renewal

/-- Numbers, marks and leases are in order. -/
structure Leased (c : DiskConf) (γ : Nat → Hand) : Prop where
  leased : c.st.st.mem.alloc.next < c.st.st.mem.alloc.leaseEnd
  marked : c.st.st.db.nextIno ≤ c.st.st.mem.alloc.leaseEnd
  /-- Wherever a crash goes back to, the mark is beyond every number used by then. -/
  points : ∀ p ∈ c.st.point :: c.st.past, p.born.Nodup ∧ ∀ n ∈ p.born, n < p.db.nextIno
  used : ∀ n ∈ c.st.born, n < c.st.st.mem.alloc.next
  /-- A number in hand is below the mark already, and nobody else's. -/
  hand : ∀ t n, InHand c γ t n →
    n < c.st.st.mem.alloc.next ∧ n < c.st.st.db.nextIno ∧ n ∉ c.st.born
  apart : ∀ t u n, InHand c γ t n → InHand c γ u n → t = u
  /-- A renewal that is not written is of the present lease, and the only one. -/
  renewal : ∀ t e, Owes c γ t e →
    e = c.st.st.mem.alloc.leaseEnd ∧ c.st.st.db.nextIno < c.st.st.mem.alloc.leaseEnd
  lone : ∀ t u e e', Owes c γ t e → Owes c γ u e' → t = u

namespace Leased

variable {c' : DiskConf} {τ' : Task Call Call.Ret Lock (Except Abort Reply) Unit}
  {k : Except StorageError Unit → Prog Call Call.Ret Lock (Except Abort Reply)}
  {r : Except StorageError Unit} {p : Prog Call Call.Ret Lock (Except Abort Reply)}

/-- A move that touches neither the disk nor the allocator nor what tasks have in hand. -/
lemma of_same {γ' : Nat → Hand} (h : Leased c γ) (hdb : c'.st.st.db = c.st.st.db)
    (ha : c'.st.st.mem.alloc = c.st.st.mem.alloc) (hb : c'.st.born = c.st.born)
    (hp : c'.st.past = c.st.past) (hn : ∀ t n, InHand c' γ' t n → InHand c γ t n)
    (ho : ∀ t e, Owes c' γ' t e → Owes c γ t e) :
    Leased c' γ' where
  leased := by rw [ha]; exact h.leased
  marked := by rw [ha, hdb]; exact h.marked
  points := by rw [Disk.point, hdb, hb, hp]; exact h.points
  used := by rw [ha, hb]; exact h.used
  hand t n hc := by rw [ha, hb, hdb]; exact h.hand t n (hn t n hc)
  apart t u n h₁ h₂ := h.apart t u n (hn t n h₁) (hn u n h₂)
  renewal t e hc := by rw [ha, hdb]; exact h.renewal t e (ho t e hc)
  lone t u e e' h₁ h₂ := h.lone t u e e' (ho t e h₁) (ho u e' h₂)

lemma of_still (h : Leased c γ) (ht : (c.tasks.get? t).isSome) (hdb : d'.st.db = c.st.st.db)
    (ha : d'.st.mem.alloc = c.st.st.mem.alloc) (hb : d'.born = c.st.born)
    (hp : d'.past = c.st.past) :
    Leased ⟨d', c.tasks.insert t τ'⟩ (update γ t (γ t)) := by
  refine h.of_same hdb ha hb hp (fun u n hn => ?_) fun u e hu => ?_
  · rcases inHand_insert.mp hn with ⟨rfl, hn⟩ | ⟨-, hn⟩
    · exact ⟨ht, hn⟩
    · exact hn
  · rcases owes_insert.mp hu with ⟨rfl, hr⟩ | ⟨-, hu⟩
    · exact ⟨ht, hr⟩
    · exact hu

variable {held : List Lock} {s' : St}

lemma of_moved (h : Leased c γ) (hc : c' = ⟨d', c.tasks.insert t τ'⟩)
    (hleased : d'.st.mem.alloc.next < d'.st.mem.alloc.leaseEnd)
    (hmark : c.st.st.db.nextIno ≤ d'.st.db.nextIno ∧ d'.st.db.nextIno ≤ d'.st.mem.alloc.leaseEnd)
    (hnext : c.st.st.mem.alloc.next ≤ d'.st.mem.alloc.next)
    (hpast : d'.past ⊆ c.st.point :: c.st.past)
    (hnodup : d'.born.Nodup)
    (hborn : ∀ n ∈ d'.born, n < d'.st.db.nextIno ∧ n < d'.st.mem.alloc.next)
    (hown : ∀ n, h'.number = some n → n < d'.st.mem.alloc.next ∧ n < d'.st.db.nextIno ∧
      n ∉ d'.born ∧ ∀ u, u ≠ t → ¬InHand c γ u n)
    (hothers : ∀ u n, u ≠ t → InHand c γ u n → n ∉ d'.born)
    (howes : ∀ u e, u = t ∧ h'.renewal = some e ∨ u ≠ t ∧ Owes c γ u e →
      e = d'.st.mem.alloc.leaseEnd ∧ d'.st.db.nextIno < d'.st.mem.alloc.leaseEnd)
    (halone : h'.renewal = none ∨ ∀ u e, u ≠ t → ¬Owes c γ u e) :
    Leased c' (update γ t h') := by
  subst hc
  refine ⟨hleased, hmark.2, fun p hp => ?_, fun n hn => (hborn n hn).2, fun u n hn => ?_,
    fun u w n hu hw => ?_, fun u e hu => ?_, fun u w e e' hu hw => ?_⟩
  · rcases List.mem_cons.mp hp with rfl | hp
    · exact ⟨hnodup, fun n hn => (hborn n hn).1⟩
    · exact h.points p (hpast hp)
  · rcases inHand_insert.mp hn with ⟨-, hn⟩ | ⟨hut, hn⟩
    · exact ⟨(hown n hn).1, (hown n hn).2.1, (hown n hn).2.2.1⟩
    · obtain ⟨h₁, h₂, -⟩ := h.hand u n hn
      exact ⟨lt_of_lt_of_le h₁ hnext, lt_of_lt_of_le h₂ hmark.1, hothers u n hut hn⟩
  · rcases inHand_insert.mp hu with ⟨hu, hn⟩ | ⟨hut, hu⟩ <;>
      rcases inHand_insert.mp hw with ⟨hw, hn'⟩ | ⟨hwt, hw⟩
    · rw [hu, hw]
    · exact absurd hw ((hown n hn).2.2.2 w hwt)
    · exact absurd hu ((hown n hn').2.2.2 u hut)
    · exact h.apart u w n hu hw
  · exact howes u e (owes_insert.mp hu)
  · have hno : ∀ {u w e e' : Nat}, h'.renewal = some e → w ≠ t → Owes c γ w e' → u = w := by
      intro u w e e' he hwt hw
      rcases halone with hnone | hnone
      · rw [hnone] at he
        cases he
      · exact absurd hw (hnone w e' hwt)
    rcases owes_insert.mp hu with ⟨hu, he⟩ | ⟨hut, hu⟩ <;>
      rcases owes_insert.mp hw with ⟨hw, he'⟩ | ⟨hwt, hw⟩
    · rw [hu, hw]
    · exact hno he hwt hw
    · exact (hno he' hut hu).symm
    · exact h.lone u w e e' hu hw

lemma reload_ok {d : Disk} {p : Point} {older : List Point} {limits : QuotaLimits}
    (h : d.reload p older limits = .ok d') :
    d' = ⟨St.mounted ⟨p.db, d.st.mem, d.st.commits⟩ limits, p.born, p :: older⟩ := by
  unfold Disk.reload St.load InodeAllocator.load at h
  split at h
  · exact (Except.ok.inj h).symm
  · cases h

lemma allocate_spec {a : InodeAllocator} (h : a.next < a.leaseEnd) :
    a.allocate.1.1 = a.next ∧ a.allocate.2.next = a.next + 1 ∧
      a.allocate.2.next < a.allocate.2.leaseEnd ∧ a.leaseEnd ≤ a.allocate.2.leaseEnd ∧
      ∀ e, a.allocate.1.2 = some e →
        e = a.allocate.2.leaseEnd ∧ a.leaseEnd < a.allocate.2.leaseEnd := by
  unfold InodeAllocator.allocate LEASE_SIZE
  split <;> dsimp only
  · refine ⟨rfl, rfl, by omega, by omega, fun e he => ?_⟩
    obtain rfl := Option.some.inj he
    omega
  · exact ⟨rfl, rfl, by omega, by omega, nofun⟩

lemma allocate {k : Ino × Option Nat → Prog Call Call.Ret Lock (Except Abort Reply)}
    {r : Ino × Option Nat} (h : Leased c γ)
    (hrec : c.st.st.db.nextIno = c.st.st.mem.alloc.leaseEnd)
    (ha : Call.may .allocate c.st.st r s') :
    Leased ⟨c.st.after .allocate r s', c.tasks.insert t ⟨k r, held, ()⟩⟩
      (update γ t ((γ t).after .allocate r)) := by
  rcases ha with ⟨env, he⟩ | ⟨hf, -⟩
  swap
  · cases hf
  obtain ⟨rfl, rfl⟩ := Prod.mk.inj he
  obtain ⟨h₁, h₂, h₃, h₄, h₅⟩ := allocate_spec h.leased
  have hpt := h.points _ List.mem_cons_self
  have hnext : c.st.st.mem.alloc.next < c.st.st.mem.alloc.allocate.2.next := by omega
  have hnoOwes : ∀ u e, ¬Owes c γ u e := fun u e ho => absurd (h.renewal u e ho).2 (by omega)
  refine h.of_moved rfl h₃ ⟨le_refl _, h.marked.trans h₄⟩ hnext.le (List.subset_cons_self ..) hpt.1
    (fun n hn => ⟨hpt.2 n hn, (h.used n hn).trans hnext⟩) ?_
    (fun u n _ hn => (h.hand u n hn).2.2) ?_ (.inr fun u e _ => hnoOwes u e)
  · intro n hn
    obtain rfl : c.st.st.mem.alloc.next = n := h₁.symm.trans (Option.some.inj hn)
    exact ⟨hnext, h.leased.trans_eq hrec.symm, fun hb => lt_irrefl _ (h.used _ hb),
      fun u _ hu => lt_irrefl _ (h.hand u _ hu).1⟩
  · rintro u e (⟨-, he'⟩ | ⟨-, hu⟩)
    · obtain ⟨rfl, hlt⟩ := h₅ e he'
      exact ⟨rfl, hrec.trans_lt hlt⟩
    · exact absurd hu (hnoOwes u e)

lemma putNextIno (h : Leased c γ) (ht : c.tasks.get? t = some ⟨p, held, ()⟩)
    (hok : (γ t).renewal = some e) (ha : Call.may (.putNextIno e) c.st.st r s') :
    Leased ⟨c.st.after (.putNextIno e) r s', c.tasks.insert t ⟨k r, held, ()⟩⟩
      (update γ t ((γ t).after (.putNextIno e) r)) := by
  have howes : Owes c γ t e := ⟨by rw [ht]; rfl, hok⟩
  obtain ⟨rfl, hlt⟩ := h.renewal t e howes
  have hnone : ∀ {x : Nat → Prop} u e', u = t ∧ (none : Option Nat) = some e' ∨
      u ≠ t ∧ Owes c γ u e' → x e' := by
    rintro x u e' (⟨-, hn⟩ | ⟨hut, hu⟩)
    · cases hn
    · exact absurd (h.lone u t e' _ hu howes) hut
  have hpt := h.points _ List.mem_cons_self
  have hown : ∀ n, (γ t).number = some n → n < c.st.st.mem.alloc.next ∧ n < c.st.st.db.nextIno ∧
      n ∉ c.st.born ∧ ∀ u, u ≠ t → ¬InHand c γ u n := by
    intro n hn
    have hin : InHand c γ t n := ⟨by rw [ht]; rfl, hn⟩
    obtain ⟨h₁, h₂, h₃⟩ := h.hand t n hin
    exact ⟨h₁, h₂, h₃, fun u hut hu => hut (h.apart u t n hu hin)⟩
  rcases ha with ⟨env, he⟩ | ⟨hf, rfl⟩
  · obtain ⟨rfl, rfl⟩ := Prod.mk.inj he
    refine h.of_moved rfl h.leased ⟨le_of_lt hlt, le_refl _⟩ (le_refl _) (List.Subset.refl _) hpt.1
      ?_ ?_ (fun u n _ hn => (h.hand u n hn).2.2) hnone (.inl rfl)
    · exact fun n hn => ⟨lt_trans (hpt.2 n hn) hlt, h.used n hn⟩
    · exact fun n hn => ⟨(hown n hn).1, lt_trans (hown n hn).2.1 hlt, (hown n hn).2.2⟩
  · obtain rfl : Except.error .engine = r := Option.some.inj hf
    exact h.of_moved rfl h.leased ⟨le_refl _, h.marked⟩ (le_refl _) (List.subset_cons_self ..) hpt.1
      (fun n hn => ⟨hpt.2 n hn, h.used n hn⟩) hown (fun u n _ hn => (h.hand u n hn).2.2) hnone
      (.inl rfl)

lemma commit {b : Batch} (h : Leased c γ) (ht : c.tasks.get? t = some ⟨p, held, ()⟩)
    (hok : newborn b = (γ t).number.toList) (ha : Call.may (.commit b) c.st.st r s') :
    Leased ⟨c.st.after (.commit b) r s', c.tasks.insert t ⟨k r, held, ()⟩⟩
      (update γ t ((γ t).after (.commit b) r)) := by
  have hsome : (c.tasks.get? t).isSome := by rw [ht]; rfl
  have hpt := h.points _ List.mem_cons_self
  rcases ha with ⟨env, he⟩ | ⟨hf, rfl⟩
  · obtain ⟨rfl, rfl⟩ := Prod.mk.inj he
    have hmark : (c.st.st.db.apply b).nextIno = c.st.st.db.nextIno := apply_nextIno _ b
    -- the number that is committed was in hand
    have hborn : ∀ n ∈ newborn b, InHand c γ t n := by
      intro n hn
      rw [hok] at hn
      exact ⟨hsome, Option.mem_toList.mp hn⟩
    have hold : ∀ n ∈ newborn b ++ c.st.born,
        n < (c.st.st.db.apply b).nextIno ∧ n < c.st.st.mem.alloc.next := by
      intro n hn
      rw [hmark]
      rcases List.mem_append.mp hn with hn | hn
      · exact ⟨(h.hand t n (hborn n hn)).2.1, (h.hand t n (hborn n hn)).1⟩
      · exact ⟨hpt.2 n hn, h.used n hn⟩
    refine h.of_moved rfl h.leased ⟨hmark.ge, hmark.trans_le h.marked⟩ (le_refl _)
      (List.Subset.refl _) ?_ hold nofun ?_ ?_ ?_
    · refine List.nodup_append'.mpr ⟨?_, hpt.1, fun n hn hn' => ?_⟩
      · rw [hok]
        cases (γ t).number with
        | none => exact List.nodup_nil
        | some n => exact List.nodup_singleton n
      · exact (h.hand t n (hborn n hn)).2.2 hn'
    · intro u n hut hu hn
      rcases List.mem_append.mp hn with hn | hn
      · exact hut (h.apart u t n hu (hborn n hn))
      · exact (h.hand u n hu).2.2 hn
    · intro u e hu
      show _ = c.st.st.mem.alloc.leaseEnd ∧ (c.st.st.db.apply b).nextIno < _
      rw [hmark]
      rcases hu with ⟨rfl, hr⟩ | ⟨-, hu⟩
      · exact h.renewal u e ⟨hsome, hr⟩
      · exact h.renewal u e hu
    · cases hren : (γ t).renewal with
      | none => exact .inl hren
      | some e => exact .inr fun u e' hut hu => hut (h.lone u t e' e hu ⟨hsome, hren⟩)
  · obtain rfl : Except.error .engine = r := Option.some.inj hf
    exact h.of_still hsome rfl rfl rfl rfl

/-- **Every call keeps numbers in order.** -/
theorem call {x : Call} {k : x.Ret → Prog Call Call.Ret Lock (Except Abort Reply)} {r : x.Ret}
    (h : Leased c γ) (ht : c.tasks.get? t = some ⟨.call x k, held, ()⟩) (hrec : Recorded c t x)
    (ha : x.may c.st.st r s') (hok : (γ t).Proper x) :
    Leased ⟨c.st.after x r s', c.tasks.insert t ⟨k r, held, ()⟩⟩
      (update γ t ((γ t).after x r)) := by
  by_cases hx : Hand.moves x = false
  · rw [Hand.after_other hx, Disk.after_other hx]
    obtain ⟨hdb, halloc⟩ := may_disk hx ha
    exact h.of_still (by rw [ht]; rfl) hdb halloc rfl rfl
  · cases x with
    | allocate => exact h.allocate hrec.1 ha
    | putNextIno e => exact h.putNextIno ht hok ha
    | commit b => exact h.commit ht hok ha
    | _ => exact absurd rfl hx

/-- A crash goes back to a point at which the mark was beyond every number used. -/
lemma reload (h : Leased c γ) {p : Point} {older : List Point} {limits : QuotaLimits}
    (hp : p :: older <:+ c.st.point :: c.st.past) (hload : c.st.reload p older limits = .ok d')
    (γ' : Nat → Hand) : Leased ⟨d', ∅⟩ γ' := by
  obtain rfl := reload_ok hload
  have hpt : ∀ q ∈ p :: older, q.born.Nodup ∧ ∀ n ∈ q.born, n < q.db.nextIno :=
    fun q hq => h.points q (hp.subset hq)
  have hone := hpt p List.mem_cons_self
  have hnone : ∀ {P : Prop} {t : Nat}, ((∅ : OrdMap Nat (Task Call Call.Ret Lock
      (Except Abort Reply) Unit)).get? t).isSome → P := fun h => nomatch h
  refine ⟨?_, le_refl _, ?_, hone.2, fun t n hn => hnone hn.1, fun t u n hn => hnone hn.1,
    fun t e hn => hnone hn.1, fun t u e e' hn => hnone hn.1⟩
  · exact Nat.lt_add_of_pos_right (by decide)
  · intro q hq
    rcases List.mem_cons.mp hq with rfl | hq
    · exact ⟨hone.1, fun n hn => Nat.lt_add_right _ (hone.2 n hn)⟩
    · exact hpt q hq

end Leased

end Invariant

variable {v : Volume}

lemma leased_outline :
    Setting.Outline (creating v Recorded) hands.ghost ⟨none, none⟩
      (FsM.Post (fun _ _ => True) (fun _ _ => True)) Leased where
  prog s p hp := by
    obtain ⟨fuel, creds, op, hop, rfl⟩ := hp
    exact Hand.wp_creates fuel creds hop
  start := by
    intro c γ t p h ht _
    refine h.of_same rfl rfl rfl rfl (fun u n hn => ?_) fun u e hu => ?_
    · rcases inHand_insert.mp hn with ⟨-, hn⟩ | ⟨-, hn⟩
      · cases hn
      · exact hn
    · rcases owes_insert.mp hu with ⟨-, hr⟩ | ⟨-, hu⟩
      · cases hr
      · exact hu
  call := by
    rintro c γ t x k held ⟨⟩ r d' h ht hrec ⟨s', ha, rfl⟩
    exact ⟨(γ t).after x r, ⟨trivial, rfl⟩, fun hok => h.call ht hrec ha hok⟩
  acquire := by
    intro c γ t l k held n h ht _
    exact h.of_still (by rw [ht]; rfl) rfl rfl rfl rfl
  release := by
    intro c γ t l k held n h ht
    exact h.of_still (by rw [ht]; rfl) rfl rfl rfl rfl
  finish := by
    intro c γ t a held n h ht _
    have hrun : ∀ u, ((c.tasks.erase t).get? u).isSome → (c.tasks.get? u).isSome := by
      intro u hu
      rw [get?_erase] at hu
      split at hu
      · cases hu
      · exact hu
    exact h.of_same rfl rfl rfl rfl (fun u n hn => ⟨hrun u hn.1, hn.2⟩)
      fun u e hu => ⟨hrun u hu.1, hu.2⟩
  crash := by
    rintro c γ d' h ⟨p, older, limits, hp, hload⟩
    exact h.reload hp hload γ

/-- **No number is committed twice**, in every run in which numbers are allocated only
from a lease that is stored, with room for another. -/
theorem numbered_once (v : Volume) (d₀ : Disk) (h0 : Booted d₀) (c : DiskConf)
    (hr : (creating v Recorded).Reached d₀ c) : NumberedOnce (creating v Recorded) c := by
  have hstart : Leased ⟨d₀, ∅⟩ fun _ => ⟨none, none⟩ := by
    have hpt : ∀ p ∈ d₀.point :: d₀.past, p = d₀.point := by
      rw [h0.past]
      exact fun p hp => List.mem_singleton.mp hp
    have hborn : d₀.born.Nodup := h0.born ▸ nodup_keys _
    refine ⟨h0.leased, le_of_eq h0.recorded, fun p hp => ?_, h0.used, nofun, nofun, nofun, nofun⟩
    rw [hpt p hp]
    refine ⟨hborn, fun n hn => lt_trans (h0.used n hn) ?_⟩
    show _ < d₀.st.db.nextIno
    rw [h0.recorded]
    exact h0.leased
  obtain ⟨γ, h, -⟩ := leased_outline.reached hstart hr
  refine ⟨fun t k held n _ _ hn => ?_, (h.points _ (List.mem_cons_self ..)).1⟩
  rw [(Leased.allocate_spec h.leased).1] at hn
  exact absurd (h.used _ hn) (lt_irrefl _)

/-! ## Two runs -/

/-- Answer calls from the disk, and let storage calls fail when told to. -/
def diskDriver (env : Env) (v : Volume) (allows : DiskConf → Nat → Call → Prop)
    [∀ c t x, Decidable (allows c t x)] : Setting.Driver (creating v allows) where
  handler x d := ((x.answer env d.st).1, d.after x (x.answer env d.st).1 (x.answer env d.st).2)
  failure := Call.failure
  admits c t x := decide (allows c t x)
  answers x d := ⟨_, .inl ⟨env, rfl⟩, rfl⟩
  fails x d r h := by
    refine ⟨d.st, .inr ⟨h, rfl⟩, ?_⟩
    cases x <;> first | rfl | (obtain rfl := Option.some.inj h; rfl)
  allows c t x h := of_decide_eq_true (p := allows c t x) h

instance (c : DiskConf) (t : Nat) : DecidablePred (Recorded c t) := fun x => by
  cases x with
  | allocate => exact inferInstanceAs (Decidable (_ ∧ _))
  | _ => exact inferInstanceAs (Decidable True)

/-- Start a call and let it make some moves. -/
def creates (t moves : Nat) (op : Op) :
    List (Setting.Move Call Call.Ret Lock Disk (Except Abort Reply)) :=
  Setting.Move.play t moves (op.prog .plain 4 .root).run

lemma creates_fits {t moves : Nat} {op : Op} (hop : op.creates = true) :
    ∀ m ∈ creates t moves op, m.Fits (creating .plain allows) :=
  Setting.Move.play_fits fun _ => ⟨4, .root, op, hop, rfl⟩

/-- A crash that loses nothing, and the mount after it. -/
def Disk.restart (d : Disk) : Option Disk := (d.reload d.point d.past {}).toOption

lemma fits_restart : (Setting.Move.crash Disk.restart).Fits (creating .plain allows) := by
  intro d d' h
  refine ⟨d.point, d.past, {}, List.suffix_refl _, ?_⟩
  unfold Disk.restart at h
  cases hload : d.reload d.point d.past {} with
  | error e => rw [hload] at h; cases h
  | ok d₁ =>
    rw [hload] at h
    rw [Option.some.inj h]

/-- A volume whose lease has two numbers left. -/
def nearlyUsed : Disk where
  st := { freshVolume ⟨0, 0⟩ {} with
    mem := { (freshVolume ⟨0, 0⟩ {}).mem with alloc := ⟨LEASE_SIZE, LEASE_SIZE + 2⟩ } }
  born := [ROOT_INO]
  past := []

lemma nearlyUsed_booted : Booted nearlyUsed :=
  ⟨by decide, by decide, rfl, by decide, rfl⟩

/-- The last numbers of a lease are used, the lease is renewed, and the volume restarts. -/
def renewed : List (Setting.Move Call Call.Ret Lock Disk (Except Abort Reply)) :=
  creates 1 13 (.mkdir 1 [100] 0o755) ++ creates 1 14 (.create 1 [97] 0o644 true)
    ++ [.crash Disk.restart] ++ creates 1 13 (.create 1 [98] 0o644 true)

lemma renewed_fits : ∀ m ∈ renewed, m.Fits (creating .plain allows) := by
  simp only [renewed, List.forall_mem_append, List.forall_mem_singleton]
  exact ⟨⟨⟨creates_fits rfl, creates_fits rfl⟩, fits_restart⟩, creates_fits rfl⟩

/-- A renewal that is written in time. -/
theorem renewed_numbered_once : ∃ c, (creating .plain Recorded).Reached nearlyUsed c ∧
    c.st.born = [131074, 65537, 65536, 1] ∧ NumberedOnce (creating .plain Recorded) c := by
  obtain ⟨c, hr, hc⟩ := Setting.Reached.of_moves (diskDriver .still .plain Recorded) renewed
    nearlyUsed (fun c => c.st.born = [131074, 65537, 65536, 1]) renewed_fits (by decide +kernel)
  exact ⟨c, hr, hc, numbered_once .plain nearlyUsed nearlyUsed_booted c hr⟩

/-- The last number of a lease is taken and its renewal not written; another task takes
the first number of the new lease and commits; a crash loses only the renewal. -/
def overtaken : List (Setting.Move Call Call.Ret Lock Disk (Except Abort Reply)) :=
  creates 1 13 (.mkdir 1 [100] 0o755) ++ creates 1 4 (.create 1 [97] 0o644 true)
    ++ creates 2 13 (.create 65536 [98] 0o644 true)
    ++ [.crash Disk.restart] ++ creates 1 13 (.create 1 [99] 0o644 true)

lemma overtaken_fits : ∀ m ∈ overtaken, m.Fits (creating .plain allows) := by
  simp only [overtaken, List.forall_mem_append, List.forall_mem_singleton]
  exact ⟨⟨⟨⟨creates_fits rfl, creates_fits rfl⟩, creates_fits rfl⟩, fits_restart⟩,
    creates_fits rfl⟩

/-- **A number is handed out before its lease is stored.** After the crash the allocator
starts again from the old mark, and number 65538 is committed for a second node. -/
theorem overtaken_numbers_twice : Booted nearlyUsed ∧ ∃ c,
    (creating .plain (fun _ _ _ => True)).Reached nearlyUsed c ∧
      ¬NumberedOnce (creating .plain (fun _ _ _ => True)) c := by
  obtain ⟨c, hr, hc⟩ := Setting.Reached.of_moves (diskDriver .still .plain (fun _ _ _ => True))
    overtaken nearlyUsed (fun c => c.st.born = [65538, 65538, 65536, 1]) overtaken_fits
    (by decide +kernel)
  refine ⟨nearlyUsed_booted, c, hr, fun h => ?_⟩
  have := h.once
  rw [hc] at this
  exact absurd this (by decide)

end SlateFs
