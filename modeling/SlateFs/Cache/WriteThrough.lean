import SlateFs.Shapes.Serves
import SlateFs.Shared.Known

/-!
# Every change is written through

The attribute cache is to agree with the store. Whoever commits a change to a node or
puts a name into a directory has left the cache behind and must bring it up to date
before the operation ends. `Pending` is what is left to do, and every operation ends
with nothing left, also when it fails.

An entry that is put into the cache under the node's lock must be what the task knows
to be stored. Nothing is asked of an entry that is put there without the lock: the
track cannot know what is stored then.
-/

namespace SlateFs

/-! ## What an operation may be answered -/

/-- The answers an operation can get: only a charge is refused, and billed bytes are
those of a file that fits the counters. -/
def Call.CanAnswer : (c : Call) → c.Ret → Prop
  | .reserve b i, .error _ => 0 < b ∨ 0 < i
  | .get (.inode _), .ok (some i) => i.billedBytes.toNat < 2 ^ 63
  | _, _ => True

/-- The node a call reads is billed less than `2 ^ 63` bytes. -/
def Call.Countable (s : St) : Call → Prop
  | .get (.inode ino) => ∀ n, s.db.inodes.get? ino = some n → n.billedBytes.toNat < 2 ^ 63
  | _ => True

lemma reserve_refused {q : QuotaTracker} {b i : Int64} {now : Nat} {e : FsError}
    (h : (q.reserve b i now).1 = .error e) : 0 < b ∨ 0 < i := by
  unfold QuotaTracker.reserve at h
  dsimp only at h
  split at h
  · rename_i hb
    exact .inl hb.1
  split at h
  · rename_i hi
    exact .inr hi.1
  · cases h

lemma canAnswer_of_may {x : Call} {r : x.Ret} {s s' : St} (hx : x.Countable s)
    (ha : x.may s r s') : x.CanAnswer r := by
  cases x with
  | reserve b i =>
    cases r with
    | ok _ => trivial
    | error e =>
      rcases ha with ⟨env, he⟩ | ⟨hf, -⟩
      · exact reserve_refused (Prod.mk.inj he).1
      · cases hf
  | get key =>
    cases key with
    | inode ino =>
      rcases ha with ⟨env, he⟩ | ⟨hf, -⟩
      · obtain ⟨rfl, -⟩ := Prod.mk.inj he
        show Call.CanAnswer (.get (.inode ino)) (Except.ok (s.db.inodes.get? ino))
        cases hn : s.db.inodes.get? ino with
        | none => trivial
        | some n => exact hx n hn
      · obtain rfl := Option.some.inj hf
        trivial
    | _ => trivial
  | _ => trivial

lemma neg_billed_le {x : UInt64} (h : x.toNat < 2 ^ 63) : -x.toInt64 ≤ 0 := by
  have hsize : (Int64.size : Int) = 2 ^ 64 := rfl
  have hx : x.toInt64.toInt = x.toNat := by
    rw [← UInt64.ofNat_toNat (x := x), UInt64.toInt64_ofNat', Int64.toInt_ofNat', Int.bmod_def,
      hsize, UInt64.toNat_ofNat']
    split <;> omega
  rw [Int64.le_iff_toInt_le, Int64.toInt_neg, hx, Int.bmod_def]
  have h0 : (0 : Int64).toInt = 0 := rfl
  split <;> omega

open Knowing Track Write

/-- What the cache is still to hear of. -/
structure Pending where
  /-- Nodes that were written. -/
  nodes : List Ino
  /-- Names that were put into a directory. -/
  names : List (Ino × Bytes)

/-- Nothing is left to do. -/
def Pending.clear : Pending := ⟨[], []⟩

/-- The node record a write is about. -/
def Write.node : Write → Option Ino
  | .put (.inode ino) _ | .delete (.inode ino) => some ino
  | _ => none

/-- The name a write puts into a directory. -/
def Write.name : Write → Option (Ino × Bytes)
  | .put (.dirent p enc) _ => some (p, enc)
  | _ => none

lemma Write.key_of_node {w : Write} {x : Ino} (h : w.node = some x) : w.key = some (.inode x) := by
  unfold node at h
  split at h
  · obtain rfl := Option.some.inj h
    rfl
  · obtain rfl := Option.some.inj h
    rfl
  · cases h

namespace Pending

/-- How calls move what is left. An insert settles a node if it is what is known to be
stored, or if it was made without the lock. -/
def after (v : Volume) : (c : Call) → Known → Pending → c.Ret → Pending
  | .commit b, _, δ, .ok _ => ⟨b.filterMap Write.node ++ δ.nodes, b.filterMap Write.name ++ δ.names⟩
  | .attrsInsert ino i, κ, δ, _ =>
    if κ.node ino = some (some i) ∨ Key.guard (.inode ino) ∉ κ.held then
      { δ with nodes := δ.nodes.filter (· ≠ ino) }
    else δ
  | .attrsRemove ino, _, δ, _ => { δ with nodes := δ.nodes.filter (· ≠ ino) }
  | .removeNegative p n, _, δ, _ =>
    { δ with names := δ.names.filter (· ≠ (p, v.names.sealName p n)) }
  | _, _, δ, _ => δ

section

variable {v : Volume} {κ : Known} {δ : Pending} {ino : Ino} {i : Inode}
  {r : (Call.attrsInsert ino i).Ret}

lemma after_attrsInsert_of_unknown (hk : κ.node ino ≠ some (some i))
    (hg : Key.guard (.inode ino) ∈ κ.held) : after v (.attrsInsert ino i) κ δ r = δ := by
  simp only [after, hk, hg, not_true, or_self, if_false]

lemma mem_after_attrsInsert {x : Ino} (hx : x ≠ ino) (h : x ∈ δ.nodes) :
    x ∈ (after v (.attrsInsert ino i) κ δ r).nodes := by
  simp only [after]
  split
  · exact List.mem_filter.mpr ⟨h, decide_eq_true hx⟩
  · exact h

lemma names_after_attrsInsert : (after v (.attrsInsert ino i) κ δ r).names = δ.names := by
  simp only [after]
  split <;> rfl

end

/-- What is put into the cache under a lock is what is stored, or is put right later. -/
def Proper (v : Volume) : Call → Known → Pending → Prop
  | .attrsInsert ino i, κ, δ => Key.guard (.inode ino) ∈ κ.held →
      κ.known (.inode ino) = some (some i) ∨ ino ∈ δ.nodes
  | .insertNegative p n, κ, _ => Key.guard (.dirent p []) ∈ κ.held →
      κ.known (.dirent p (v.names.sealName p n)) = some none
  | _, _, _ => True

end Pending

/-- Following what is known and what is left to do. -/
def through (v : Volume) : Knowing Pending where
  can c _ r := c.CanAnswer r
  ok c κ δ _ := Pending.Proper v c κ δ
  next c κ δ r := Pending.after v c κ δ r
  plain c κ δ r hc := by cases c <;> first | exact ⟨trivial, rfl⟩ | cases hc

namespace Pending

open FsM (wp wp_seq)

variable {v : Volume} {κ : Known} {δ : Pending} {E : Abort → Known × Pending → Prop} {ino : Ino}
  {i : Inode}

/-- Nothing is left to do. -/
def Done (γ : Known × Pending) : Prop := γ.2 = .clear

lemma settled {δ : Pending} (hnodes : ∀ x ∈ δ.nodes, x = ino) :
    { δ with nodes := δ.nodes.filter (· ≠ ino) } = (⟨[], δ.names⟩ : Pending) := by
  rw [List.filter_eq_nil_iff.mpr fun x hx => by simp [hnodes x hx]]

/-! ## Rules -/

variable {Q : Unit → Known × Pending → Prop} {b : Batch}

/-- One more entry is right, or none is left to be put right by. -/
lemma wp_attrsInsert
    (hok : Key.guard (.inode ino) ∈ κ.held → κ.known (.inode ino) = some (some i) ∨ ino ∈ δ.nodes)
    (hQ : ∀ δ', δ'.names = δ.names → (∀ x ∈ δ'.nodes, x ∈ δ.nodes ∧
      (κ.known (.inode ino) = some (some i) ∨ Key.guard (.inode ino) ∉ κ.held → x ≠ ino)) →
      Q () (κ, δ')) :
    wp (through v).track.ghost Q E (attrsInsert ino i) (κ, δ) := by
  refine (wp_call (.attrsInsert ino i)).mpr fun _ _ => ⟨⟨trivial, hok⟩, ?_⟩
  show Q () (κ, if κ.node ino = some (some i) ∨ Key.guard (.inode ino) ∉ κ.held then _ else _)
  split
  · refine hQ _ rfl fun x hx => ?_
    obtain ⟨hx, hne⟩ := List.mem_filter.mp hx
    exact ⟨hx, fun _ => of_decide_eq_true hne⟩
  · rename_i hno
    exact hQ δ rfl fun x hx => ⟨hx, fun h => absurd h hno⟩

/-- An entry that is right, or that was put there without the lock, settles its node. -/
lemma wp_settle (hok : κ.known (.inode ino) = some (some i) ∨ Key.guard (.inode ino) ∉ κ.held)
    (hQ : Q () (κ, { δ with nodes := δ.nodes.filter (· ≠ ino) })) :
    wp (through v).track.ghost Q E (attrsInsert ino i) (κ, δ) := by
  refine (wp_call (.attrsInsert ino i)).mpr fun _ _ =>
    ⟨⟨trivial, fun hg => .inl (hok.resolve_right (not_not.mpr hg))⟩, ?_⟩
  have hstored : κ.node ino = some (some i) ∨ Key.guard (.inode ino) ∉ κ.held := hok
  show Q () (κ, if κ.node ino = some (some i) ∨ Key.guard (.inode ino) ∉ κ.held then _ else _)
  rw [if_pos hstored]
  exact hQ

lemma wp_attrsRemove (hQ : Q () (κ, { δ with nodes := δ.nodes.filter (· ≠ ino) })) :
    wp (through v).track.ghost Q E (attrsRemove ino) (κ, δ) :=
  (wp_call (.attrsRemove ino)).mpr fun _ _ => ⟨⟨trivial, trivial⟩, hQ⟩

lemma wp_insertNegative {p : Ino} {n : Bytes}
    (hok : Key.guard (.dirent p []) ∈ κ.held →
      κ.known (.dirent p (v.names.sealName p n)) = some none)
    (hQ : Q () (κ, δ)) :
    wp (through v).track.ghost Q E (insertNegative p n) (κ, δ) :=
  (wp_call (.insertNegative p n)).mpr fun _ _ => ⟨⟨trivial, hok⟩, hQ⟩

lemma wp_removeNegative {p : Ino} {n : Bytes}
    (hQ : Q () (κ, { δ with names := δ.names.filter (· ≠ (p, v.names.sealName p n)) })) :
    wp (through v).track.ghost Q E (removeNegative p n) (κ, δ) :=
  (wp_call (.removeNegative p n)).mpr fun _ _ => ⟨⟨trivial, trivial⟩, hQ⟩

/-- What a commit leaves to do. -/
def ofBatch (b : Batch) : Pending := ⟨b.filterMap Write.node, b.filterMap Write.name⟩

@[simp] lemma nodes_append (b b' : Batch) :
    (ofBatch (b ++ b')).nodes = (ofBatch b).nodes ++ (ofBatch b').nodes := List.filterMap_append

@[simp] lemma names_append (b b' : Batch) :
    (ofBatch (b ++ b')).names = (ofBatch b).names ++ (ofBatch b').names := List.filterMap_append

lemma ofBatch_sweeps {ino : Ino} (hb : Track.Sweeps ino b) :
    (ofBatch b).nodes = [] ∧ (ofBatch b).names = [] := by
  constructor
  · refine List.filterMap_eq_nil_iff.mpr fun w hw => ?_
    obtain ⟨k, hbody, rfl⟩ := hb w hw
    cases k <;> first | exact hbody.elim | rfl
  · refine List.filterMap_eq_nil_iff.mpr fun w hw => ?_
    obtain ⟨k, -, rfl⟩ := hb w hw
    rfl

lemma wp_tryCommit {Q : Except StorageError Unit → Known × Pending → Prop} (hb : κ.Covers b)
    (hno : ∀ e, Q (.error e) (κ, .clear)) (hyes : Q (.ok ()) (κ.write b, ofBatch b)) :
    wp (through v).track.ghost Q E (tryCommit b) (κ, .clear) := by
  refine (wp_call (.commit b)).mpr ?_
  rintro (e | _) _
  · exact ⟨⟨hb, trivial⟩, hno e⟩
  refine ⟨⟨hb, trivial⟩, ?_⟩
  show Q _ (κ.write b, ⟨b.filterMap node ++ [], b.filterMap name ++ []⟩)
  rw [List.append_nil, List.append_nil]
  exact hyes

lemma wp_commit (hb : κ.Covers b) (hno : ∀ e, E e (κ, .clear))
    (hyes : Q () (κ.write b, ofBatch b)) :
    wp (through v).track.ghost Q E (commit b) (κ, .clear) := by
  rw [commit, FsM.wp_bind]
  exact wp_tryCommit hb (fun _ => hno _) hyes

lemma wp_reserve {b n : Int64} (hno : 0 < b ∨ 0 < n → ∀ e, E e (κ, δ)) (hyes : Q () (κ, δ)) :
    wp (through v).track.ghost Q E (reserve b n) (κ, δ) := by
  refine wp_then ?_
  rintro (e | _) hc
  · exact ⟨⟨trivial, trivial⟩, hno hc.2 _⟩
  · exact ⟨⟨trivial, trivial⟩, hyes⟩

lemma wp_reserveQuiet {b n : Int64} (hQ : Q () (κ, δ)) :
    wp (through v).track.ghost Q E (reserveQuiet b n) (κ, δ) :=
  wp_then fun _ _ => ⟨⟨trivial, trivial⟩, hQ⟩

lemma wp_release {b n : Int64} (hQ : Q () (κ, δ)) :
    wp (through v).track.ghost Q E (releaseQuota b n) (κ, δ) :=
  (wp_call (.release b n)).mpr fun _ _ => ⟨⟨trivial, trivial⟩, hQ⟩

lemma wp_handlesIsOpen {ino : Ino} {Q : Bool → Known × Pending → Prop} (hQ : ∀ r, Q r (κ, δ)) :
    wp (through v).track.ghost Q E (handlesIsOpen ino) (κ, δ) :=
  (wp_call (.handlesIsOpen ino)).mpr fun r _ => ⟨⟨trivial, trivial⟩, hQ r⟩

/-! ## Operations under their locks -/

/-- From here the program ends with nothing left to do, whether or not it fails. -/
def Ends {α : Type} (v : Volume) (p : FsM α) (κ : Known) : Prop :=
  wp (through v).track.ghost (fun _ => Done) (fun _ => Done) p (κ, .clear)

lemma under {α : Type} {ls : List Lock} {κ₀ : Known} {K : Known × Pending → Prop}
    {Q : α → Known × Pending → Prop} {p : FsM α}
    (h : ∀ κ, (∀ l ∈ ls, l ∈ κ.held) → K (κ, .clear) → Ends v p κ)
    (hQ : ∀ a γ, Done γ → Q a γ := by exact fun _ _ h => h)
    (hE : ∀ e γ, Done γ → E e γ := by exact fun _ _ h => h) :
    (through v).track.Under ls (κ₀, .clear) K Q E p := by
  rintro ⟨κ, δ⟩ hs hk
  obtain rfl : δ = .clear := (saw hs).2.trans (acqAll_rest ls _).2
  refine FsM.wp_conseq (h κ (fun l hl => mem_held hl hs) hk) (fun a γ' hd => hQ _ _ ?_)
    (fun e γ' hd => hE _ _ ?_)
  · exact (relAll_rest ls γ').2.trans hd
  · exact (relAll_rest ls γ').2.trans hd

lemma fails {γ : Known × Pending} (h : Done γ) : (through v).track.Fails (fun _ => Done) γ :=
  fun _ _ hs => (saw hs).2.trans h

lemma ends_now {α : Type} {f : Timespec → FsM α}
    (h : ∀ ts κ', κ.Grows κ' → Ends v (f ts) κ') : Ends v (now >>= f) κ := by
  rw [Ends, FsM.wp_bind]
  refine see_now fun ts γ' hs => ?_
  obtain ⟨κ', δ⟩ := γ'
  obtain ⟨hg, rfl⟩ := saw hs
  exact h ts κ' hg

/-- A node is rewritten, and whatever else is written is no node and no name. -/
structure Rewrites (κ : Known) (ino : Ino) (i : Inode) (b : Batch) : Prop where
  covers : κ.Covers b
  last : lastNode ino b = some (some i)
  nodes : ∀ x ∈ b.filterMap Write.node, x = ino
  names : b.filterMap Write.name = []

/-- **Commit and write through.** -/
theorem Rewrites.through (hb : Rewrites κ ino i b) (hg : Lock.stripe (stripeOf ino) ∈ κ.held)
    (hQ : Q () (κ.write b, .clear)) :
    wp (through v).track.ghost Q E (attrsInsert ino i) (κ.write b, ofBatch b) := by
  have hknown : (κ.write b).known (.inode ino) = some (some i) :=
    Known.known_write_node hb.last hg
  refine wp_settle (.inl hknown) ?_
  rw [settled hb.nodes, ofBatch, hb.names]
  exact hQ

/-- Contents and attributes of the node are written with it. -/
lemma Rewrites.body (ws ms : Batch) (hi : κ.Has ino)
    (hws : ∀ w ∈ ws ++ ms, ∀ k, w.key = some k →
      (∃ idx, k = .chunk ino idx) ∨ ∃ n, k = .xattr ino n) (i : Inode) :
    Rewrites κ ino i (ws ++ [.put (.inode ino) i] ++ ms) := by
  have hcov : ∀ b, (∀ w ∈ b, w ∈ ws ++ ms) → κ.Covers b := by
    intro b hb w hw k hk
    rcases hws w (hb w hw) k hk with ⟨idx, rfl⟩ | ⟨n, rfl⟩ <;> exact hi.held
  have hother : ∀ b, (∀ w ∈ b, w ∈ ws ++ ms) → lastNode ino b = none ∧
      b.filterMap node = [] ∧ b.filterMap name = [] := by
    intro b hb
    have hkey : ∀ w ∈ b, w.node = none ∧ w.name = none := by
      intro w hw
      cases w with
      | put k x => rcases hws _ (hb _ hw) k rfl with ⟨idx, rfl⟩ | ⟨n, rfl⟩ <;> exact ⟨rfl, rfl⟩
      | delete k => rcases hws _ (hb _ hw) k rfl with ⟨idx, rfl⟩ | ⟨n, rfl⟩ <;> exact ⟨rfl, rfl⟩
      | mergeBytes d => exact ⟨rfl, rfl⟩
      | mergeInodes d => exact ⟨rfl, rfl⟩
    refine ⟨?_, List.filterMap_eq_nil_iff.mpr fun w hw => (hkey w hw).1,
      List.filterMap_eq_nil_iff.mpr fun w hw => (hkey w hw).2⟩
    rw [← lastWrite_inode]
    refine lastWrite_eq_none fun w hw he => ?_
    rcases hws w (hb w hw) _ he with ⟨idx, h⟩ | ⟨n, h⟩ <;> cases h
  obtain ⟨hl, hn, hm⟩ := hother ws fun w hw => List.mem_append_left _ hw
  obtain ⟨hl', hn', hm'⟩ := hother ms fun w hw => List.mem_append_right _ hw
  refine ⟨?_, ?_, fun x hx => ?_, ?_⟩
  · refine Known.covers_append.mpr ⟨Known.covers_append.mpr ⟨?_, ?_⟩, ?_⟩
    · exact hcov ws fun w hw => List.mem_append_left _ hw
    · simp [Known.covers_cons, key, Known.MayWrite, hi]
    · exact hcov ms fun w hw => List.mem_append_right _ hw
  · simp [hl', lastNode, toNode]
  · simpa [hn, hn', node] using hx
  · rw [List.filterMap_append, List.filterMap_append, hm, hm']
    rfl

lemma sweepable (v : Volume) (ino : Ino) : (through v).track.Sweepable ino
    (fun γ => Done γ ∧ Lock.stripe (stripeOf ino) ∈ γ.1.held) where
  look h hs := ⟨(saw hs).2.trans h.1, (saw hs).1.held ▸ h.2⟩
  sweep := by
    rintro ⟨κ, δ⟩ b ⟨rfl, hg⟩ hb (e | _) _
    · exact ⟨⟨Known.covers_sweeps hg hb, trivial⟩, rfl, hg⟩
    obtain ⟨hnodes, hnames⟩ := ofBatch_sweeps hb
    refine ⟨⟨Known.covers_sweeps hg hb, trivial⟩, ?_, hg⟩
    show (⟨(ofBatch b).nodes ++ [], (ofBatch b).names ++ []⟩ : Pending) = .clear
    rw [hnodes, hnames]
    rfl

lemma ends_reap {fuel : Nat} (hg : Lock.stripe (stripeOf ino) ∈ κ.held) :
    Ends v (reapOrphanData fuel ino) κ :=
  Track.wp_reapOrphanData (sweepable v ino) (fun _ h _ => h.1) (fun _ h => h.1) ⟨rfl, hg⟩

/-! ### One node -/

lemma ends_setattrCommit {rs : Resized} {ts : Timespec} (hi : κ.Has ino)
    (hws : ∀ w ∈ rs.writes, ∀ k, w.key = some k → ∃ idx, k = .chunk ino idx) :
    Ends v (setattrCommit ino rs ts) κ := by
  have hb : Rewrites κ ino { rs.inode with ctime := ts }
      (rs.writes ++ [.put (.inode ino) { rs.inode with ctime := ts }]) := by
    have := Rewrites.body rs.writes [] hi ?_ { rs.inode with ctime := ts }
    · rwa [List.append_nil] at this
    intro w hw k hk
    rw [List.append_nil] at hw
    exact .inl (hws w hw k hk)
  unfold setattrCommit
  rw [Ends, FsM.wp_bind]
  refine wp_tryCommit hb.covers (fun e => ?_) ?_
  · exact wp_seq (wp_release rfl)
  · refine wp_seq (hb.through hi.held ?_)
    rw [FsM.wp_bind]
    refine FsM.wp_conseq ?_ (fun _ _ h => h) (fun _ _ h => h)
    exact Track.wp_spillDeletes (sweepable v ino) (fun _ h _ => h.1) (fun _ h => h.1) _
      ⟨rfl, hi.held⟩

lemma truncateBatch_keys (plan : TruncatePlan) :
    ∀ w ∈ truncateBatch ino plan, ∀ k, w.key = some k → ∃ idx, k = .chunk ino idx := by
  intro w hw k hk
  rcases List.mem_append.mp hw with hw | hw
  · rcases List.mem_append.mp hw with hw | hw
    · unfold tailWrite at hw
      split at hw
      · obtain rfl := List.mem_singleton.mp hw
        exact ⟨_, (Option.some.inj hk).symm⟩
      · exact absurd hw List.not_mem_nil
    · obtain ⟨idx, -, rfl⟩ := List.mem_map.mp hw
      exact ⟨idx, (Option.some.inj hk).symm⟩
  · split at hw
    · obtain rfl := List.mem_singleton.mp hw
      cases hk
    · exact absurd hw List.not_mem_nil

section

variable (hi : κ.Has ino)
include hi

lemma ends_write {creds : Credentials} {plan : WritePlan} (i : Inode) :
    Ends v (do
      reserve plan.billedDelta 0
      let ts ← now
      match ← tryCommit (writeBatch ino (inodeAfterWrite creds i plan ts) plan) with
      | .error _ =>
        releaseQuota plan.billedDelta 0
        FsM.fail .io
      | .ok _ => attrsInsert ino (inodeAfterWrite creds i plan ts)) κ := by
  rw [Ends, FsM.wp_bind]
  refine wp_reserve (fun _ _ => rfl) (ends_now fun ts κ' hgrows => ?_)
  have hb : Rewrites κ' ino (inodeAfterWrite creds i plan ts)
      (writeBatch ino (inodeAfterWrite creds i plan ts) plan) := by
    refine Rewrites.body _ _ (hgrows.has hi) (fun w hw k hk => ?_) _
    rcases List.mem_append.mp hw with hw | hw
    · obtain ⟨p, -, rfl⟩ := List.mem_map.mp hw
      exact .inl ⟨p.1, (Option.some.inj hk).symm⟩
    · split at hw
      · obtain rfl := List.mem_singleton.mp hw
        cases hk
      · exact absurd hw List.not_mem_nil
  rw [Ends, FsM.wp_bind]
  refine wp_tryCommit hb.covers (fun e => ?_) ?_
  · exact wp_seq (wp_release rfl)
  · exact hb.through (hgrows.has hi).held rfl

lemma ends_xattr {w : Write}
    (hw : ∃ name, (∃ value, w = .put (.xattr ino name) value) ∨ w = .delete (.xattr ino name))
    (i : Inode) :
    Ends v (do
      commit [w, .put (.inode ino) i]
      attrsInsert ino i) κ := by
  have hb : Rewrites κ ino i [w, .put (.inode ino) i] := by
    refine Rewrites.body [w] [] hi (fun w' hw' k hk => ?_) i
    obtain rfl := List.mem_singleton.mp hw'
    obtain ⟨name, ⟨value, rfl⟩ | rfl⟩ := hw <;> exact .inr ⟨name, (Option.some.inj hk).symm⟩
  rw [Ends, FsM.wp_bind]
  exact wp_commit hb.covers (fun _ => rfl) (hb.through hi.held rfl)

lemma ends_atime (i : Inode) :
    Ends v (do
      match ← tryCommit [.put (.inode ino) i] with
      | .ok _ => attrsInsert ino i
      | .error _ => pure ()) κ := by
  have hb : Rewrites κ ino i [.put (.inode ino) i] :=
    Rewrites.body [] [] hi (fun _ hw => absurd hw List.not_mem_nil) i
  rw [Ends, FsM.wp_bind]
  exact wp_tryCommit hb.covers (fun _ => rfl) (hb.through hi.held rfl)

end

lemma ends_finishOrphan {fuel : Nat} (hg : Lock.stripe (stripeOf ino) ∈ κ.held) :
    Ends v (finishOrphan fuel ino) κ := by
  unfold finishOrphan
  rw [Ends, FsM.wp_bind]
  refine see_dbGet (fails (γ := (κ, .clear)) rfl) _ fun o γ' hs ho => ?_
  obtain ⟨κ', δ⟩ := γ'
  obtain ⟨hgrows, rfl⟩ := saw hs
  have hg' : Lock.stripe (stripeOf ino) ∈ κ'.held := by
    rw [hgrows.held]
    exact hg
  -- whatever the cache has of the node goes, and then the rest of the node
  have hlast : ∀ κ'' δ'', Lock.stripe (stripeOf ino) ∈ κ''.held → δ''.names = [] →
      (∀ x ∈ δ''.nodes, x = ino) → wp (through v).track.ghost (fun _ => Done) (fun _ => Done) (do
        attrsRemove ino
        reapOrphanData fuel ino) (κ'', δ'') := by
    intro κ'' δ'' hheld hnames hnodes
    refine wp_seq (wp_attrsRemove ?_)
    rw [settled hnodes, hnames]
    exact ends_reap hheld
  cases o with
  | none => exact hlast κ' .clear hg' rfl fun x hx => absurd hx List.not_mem_nil
  | some i =>
    have hhas : κ'.Has ino := ⟨i, known_of_knows ho hg' rfl⟩
    have hbilled : i.billedBytes.toNat < 2 ^ 63 := by
      obtain ⟨γ₀, hcan, -⟩ := ho
      exact hcan.2
    have hneg := neg_billed_le hbilled
    refine wp_seq (wp_commit ?_ (fun _ => rfl) ?_)
    · simp [finishBatch, Known.covers_cons, key, Known.MayWrite, hhas]
    refine wp_seq (wp_reserve (fun hpos => ?_) ?_)
    · -- a free is never refused
      rcases hpos with h | h
      · exact absurd h (Int64.not_lt.mpr hneg)
      · exact absurd h (by decide)
    · refine hlast _ _ hg' ?_ fun x hx => ?_
      · simp [ofBatch, finishBatch, name]
      · simpa [ofBatch, finishBatch, node] using hx

end Pending

end SlateFs
