import SlateFs.Seq.Nodes
import SlateFs.Seq.Runs

/-!
# What a number stands for

Handles, file identifiers and remembered entries hold on to an inode number. They rely on
its standing for one node: while the node is there it is of the same kind and links to the
same target, and when it is gone no other node takes the number.
-/

namespace SlateFs

open OrdMap

variable {v : Volume} {G : Guard} {db db' db'' : Db} {n : Ino}

/-- What is kept of the node under number `n`. -/
structure Stays (db db' : Db) (n : Ino) : Prop where
  gone : db.inodes.get? n = none → db'.inodes.get? n = none
  node : ∀ i i', db.inodes.get? n = some i → db'.inodes.get? n = some i' →
    i'.kind = i.kind ∧ db'.symlinks.get? n = db.symlinks.get? n

lemma Stays.trans (h : Stays db db' n) (h' : Stays db' db'' n) : Stays db db'' n where
  gone hn := h'.gone (h.gone hn)
  node i i'' hi hi'' := by
    cases hi' : db'.inodes.get? n with
    | none => rw [h'.gone hi'] at hi''; cases hi''
    | some i' =>
      obtain ⟨hkind, htarget⟩ := h.node i i' hi hi'
      obtain ⟨hkind', htarget'⟩ := h'.node i' i'' hi' hi''
      exact ⟨hkind'.trans hkind, htarget'.trans htarget⟩

/-- A link target is written with its node, and deleted only after it. -/
lemma Txn.target {i : Inode} (ht : Txn v G db db') (hi : db.inodes.get? n = some i) :
    db'.symlinks.get? n = db.symlinks.get? n := by
  have hne : ∀ {m}, db.inodes.get? m = none → n ≠ m := by
    rintro m hm rfl
    rw [hm] at hi
    cases hi
  cases ht with
  | @insertNode _ _ _ _ _ target _ _ _ _ hnew _ _ _ _ _ =>
    rw [apply_insertNodeBatch]
    cases target with
    | none => rfl
    | some t => exact get?_insert_of_ne _ _ (hne hnew.inode)
  | rmdir => rw [apply_dropDir]
  | move => rw [apply_renameBatch]; rfl
  | write => rw [apply_writeBatch]
  | truncate => rw [apply_truncateBatch]
  | reap hgone hr =>
    cases hr with
    | symlink => exact get?_erase_of_ne _ (hne hgone)
    | _ => rfl
  | _ => rfl

lemma Txn.stays (ht : Txn v G db db') (hn : ¬G.fresh n) : Stays db db' n where
  gone hi := by
    have h := ht.node n
    generalize db'.inodes.get? n = o at h ⊢
    cases h with
    | same => exact hi
    | rewritten hj _ _ | written hj _ _ _ _ | resized hj _ _ _ => rw [hi] at hj; cases hj
    | born _ hfresh _ => exact absurd hfresh hn
    | gone _ _ => rfl
  node _ _ hi hi' := ⟨(hi' ▸ ht.node n).kind hi, ht.target hi⟩

/-- There is room for another lease. The allocator counts in `u64` and does not check; a
call takes one number at most. -/
def LeaseLeft (_ : Op) (s : St) : Prop := s.mem.alloc.leaseEnd + LEASE_SIZE < 2 ^ 64

instance (op : Op) (s : St) : Decidable (LeaseLeft op s) := inferInstanceAs (Decidable (_ < _))

/--
**A number stands for one node for good**, as long as the numbers last. Take two states
of a run, the later one possibly in the middle of a call. A number the earlier state has
handed out, as it has that of every node, keeps its node's kind and link target while the
node is there, and is never given to another.
-/
theorem number_stands_for_one_node {v : Volume} {ts : Timespec} {limits : QuotaLimits}
    {s₀ s : St} (h₀ : Rests v LeaseLeft (freshVolume ts limits) s₀)
    (h : Reached v LeaseLeft s₀ s) :
    (∀ n i, s₀.db.inodes.get? n = some i → n < s₀.mem.alloc.next) ∧
      ∀ n, n < s₀.mem.alloc.next → Stays s₀.db s.db n := by
  have hany : ∀ (op : Op) (s : St), op.Meets Guard.any v s.db :=
    fun op s => ⟨op.allowed_any s.db, fun _ _ _ _ => trivial⟩
  have hs₀ : Sound s₀ := (Reached.txns (J := fun _ => True) (freshVolume_sound ts limits) trivial
    (fun op s _ _ _ => hany op s) (fun _ _ _ _ _ _ => trivial) (.rest h₀)).1
  refine ⟨fun n i hi => ?_, fun n hn => ?_⟩
  · refine Nat.lt_of_not_le fun hle => ?_
    rw [(hs₀.fresh n hle).inode] at hi
    cases hi
  have hstart : Stays s₀.db s₀.db n :=
    ⟨id, fun i i' hi hi' => ⟨by rw [Option.some.inj (hi.symm.trans hi')], rfl⟩⟩
  refine (Reached.inv (P := fun s => Sound s ∧ s₀.mem.alloc.next ≤ s.mem.alloc.next ∧
    Stays s₀.db s.db n) ⟨hs₀, le_refl _, hstart⟩ ?_ h).2.2
  rintro s s' op env fuel creds ⟨hs, hle, hstays⟩ - hv
  obtain ⟨hs', hle', F, hF, ht⟩ := hs.visits (hany op s) hv
  have hold : ¬F n := fun hf => by
    have := hF n hf
    omega
  refine ⟨hs', hle.trans hle', ?_⟩
  generalize s'.db = db' at ht
  induction ht with
  | refl => exact hstays
  | tail _ ht ih => exact ih.trans (ht.stays hold)

/-- A directory, a link and a file; then the link is renamed, the file goes and another file
is made. -/
theorem link_and_file_stand : ∃ s₀ s, Rests Volume.plain LeaseLeft (freshVolume ⟨0, 0⟩ {}) s₀ ∧
    Reached Volume.plain LeaseLeft s₀ s ∧ s₀.mem.alloc.next = 5 ∧
    (s.db.symlinks.get? 3 = some [47] ∧ (s.db.inodes.get? 4).isNone ∧
      (s.db.inodes.get? 5).isSome) ∧ Stays s₀.db s.db 3 ∧ Stays s₀.db s.db 4 := by
  obtain ⟨s₀, hs₀, hn⟩ := Rests.of_runAll Volume.plain LeaseLeft .still 9 .root
    [.mkdir 1 [97] 0o755, .symlink 2 [98] [47], .create 1 [99] 0o644 true]
    (freshVolume ⟨0, 0⟩ {}) (fun s => s.mem.alloc.next = 5 ∧
      (runAll Volume.plain LeaseLeft .still 9 .root [.rename 2 [98] 1 [98], .unlink 1 [99],
        .create 1 [99] 0o644 true] s).any fun s => s.db.symlinks.get? 3 = some [47] ∧
          (s.db.inodes.get? 4).isNone ∧ (s.db.inodes.get? 5).isSome)
    (by decide +kernel)
  obtain ⟨s, hs, hlater⟩ := Rests.of_runAll Volume.plain LeaseLeft .still 9 .root
    [.rename 2 [98] 1 [98], .unlink 1 [99], .create 1 [99] 0o644 true] s₀ _ hn.2
  have hstays := (number_stands_for_one_node hs₀ (.rest hs)).2
  exact ⟨s₀, s, hs₀, .rest hs, hn.1, hlater, hstays 3 (by rw [hn.1]; decide),
    hstays 4 (by rw [hn.1]; decide)⟩

end SlateFs
