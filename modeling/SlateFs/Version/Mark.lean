import SlateFs.Version.Gc

/-!
# What a collection retains

The loops of `retained` and `mark`, read as sets. A commit is *kept* when it lies on
the first-parent line of some branch at a position the limits keep. It is *retained*
when it is kept, or is an ancestor of a kept one and there are no limits, or is named
by a tag or a reflog entry. Everything else is garbage.
-/

namespace SlateFs.Version

open OrdMap Worklist Objects

variable {Id : Type} [ObjectId Id]

namespace Objects

variable {s : Objects Id} {l : Limits}

/-! ## First-parent lines -/

/-- `id` is at position `p` of the first-parent line from `a`, and the commits before it on that
line satisfy `P`. -/
inductive LineVia (s : Objects Id) (P : Id → Prop) : Id → Nat → Id → Prop where
  | here {id : Id} : (s.commits.get? id).isSome → LineVia s P id 0 id
  | there {a b id : Id} {p : Nat} {body : VersionCommitBody Id} :
      s.commits.get? a = some body → P a → body.parents.head? = some b →
      LineVia s P b p id → LineVia s P a (p + 1) id

/-- `id` is at position `p` of the first-parent line from `a`. -/
abbrev Line (s : Objects Id) : Id → Nat → Id → Prop := LineVia s (fun _ => True)

variable {id : Id} {n : Nat} {chain : List (VersionCommit Id)}

lemma LineVia.start {P : Id → Prop} {a : Id} {p : Nat} (h : s.LineVia P a p id) :
    (s.commits.get? a).isSome := by
  cases h with
  | here h => exact h
  | there h _ _ _ => rw [h]; rfl

/-- A line in a smaller store, through commits that satisfy `P`, is a line in the larger one. -/
lemma LineVia.mono {t : Objects Id} {P Q : Id → Prop} {a : Id} {p : Nat} (h : s.LineVia P a p id)
    (hsub : ∀ x body, s.commits.get? x = some body → t.commits.get? x = some body)
    (hP : ∀ x, (s.commits.get? x).isSome → P x → Q x) : t.LineVia Q a p id := by
  induction h with
  | here h =>
    obtain ⟨body, hb⟩ := Option.isSome_iff_exists.mp h
    exact .here (by rw [hsub _ _ hb]; rfl)
  | there hb hp hhead _ ih =>
    exact .there (hsub _ _ hb) (hP _ (by rw [hb]; rfl) hp) hhead ih

lemma tryGetCommit_eq {c : VersionCommit Id} :
    s.tryGetCommit id = some c ↔ s.commits.get? id = some c.toVersionCommitBody ∧ c.id = id := by
  unfold tryGetCommit
  rw [Option.map_eq_some_iff]
  constructor
  · rintro ⟨body, hb, rfl⟩
    exact ⟨hb, rfl⟩
  · rintro ⟨hb, rfl⟩
    exact ⟨_, hb, rfl⟩

/-- **What the loop over first parents meets** is the first-parent line. -/
theorem lineage_getElem : ∀ {a : Id} {chain : List (VersionCommit Id)} {stop : Option Id},
    s.lineage n (some a) = some (chain, stop) → ∀ {p : Nat} {c : VersionCommit Id},
      chain[p]? = some c ↔ s.Line a p c.id ∧ s.commits.get? c.id = some c.toVersionCommitBody := by
  induction n with
  | zero => intro a chain stop h; cases h
  | succ n ih =>
    intro a chain stop h p c
    rw [lineage] at h
    split at h
    · rename_i hnone
      cases h
      have hmissing : s.commits.get? a = none := Option.map_eq_none_iff.mp hnone
      refine ⟨nofun, fun hl => ?_⟩
      have := hl.1.start
      rw [hmissing] at this
      cases this
    · rename_i commit hcommit
      obtain ⟨hbody, rfl⟩ := tryGetCommit_eq.mp hcommit
      split at h
      · cases h
      rename_i ch st hch
      cases h
      cases p with
      | zero =>
        simp only [List.getElem?_cons_zero, Option.some.injEq]
        constructor
        · rintro rfl
          exact ⟨.here (by rw [hbody]; rfl), hbody⟩
        rintro ⟨hl, hc⟩
        have hid : c.id = commit.id := by
          generalize hx : c.id = x at hl
          cases hl with
          | here _ => rfl
        rw [hid, hbody, Option.some.injEq] at hc
        cases c
        cases commit
        simp only at hid hc
        rw [hid, hc]
      | succ p =>
        rw [List.getElem?_cons_succ]
        cases hhead : commit.parents.head? with
        | none =>
          rw [hhead] at hch
          have hnil : ch = [] := by
            cases n <;> (cases hch; rfl)
          subst hnil
          refine ⟨nofun, fun hl => ?_⟩
          cases hl.1 with
          | there hb _ hh _ =>
            rw [hbody, Option.some.injEq] at hb
            rw [← hb, hhead] at hh
            cases hh
        | some b =>
          rw [hhead] at hch
          rw [ih hch]
          refine and_congr_left fun _ => ⟨fun hl => .there hbody trivial hhead hl, ?_⟩
          intro hl
          cases hl with
          | there hb _ hh hl =>
            rw [hbody, Option.some.injEq] at hb
            rw [← hb, hhead] at hh
            cases hh
            exact hl

/-- A history breaks off at a commit that is missing, that its first commit reaches, and that is
not its first. -/
lemma lineage_stop : ∀ {o : Option Id} {chain : List (VersionCommit Id)} {q : Id},
    s.lineage n o = some (chain, some q) →
      s.commits.get? q = none ∧ Reach s.parents (o = some ·) q ∧ (chain = [] → o = some q) := by
  induction n with
  | zero => intro o chain q h; cases o <;> cases h
  | succ n ih =>
    intro o chain q h
    cases o with
    | none => cases h
    | some a =>
      rw [lineage] at h
      split at h
      · rename_i hnone
        cases h
        exact ⟨Option.map_eq_none_iff.mp hnone, .root rfl, fun _ => rfl⟩
      rename_i commit hc
      obtain ⟨hbody, -⟩ := tryGetCommit_eq.mp hc
      split at h
      · cases h
      rename_i hch
      cases h
      obtain ⟨hmissing, hreach, -⟩ := ih hch
      refine ⟨hmissing, hreach.mem_of_closed (fun b hb => ?_) (fun _ _ => .step), nofun⟩
      exact .step (.root rfl) (mem_follow.mpr ⟨_, hbody, List.mem_of_head? hb⟩)

/-- A branch may break off at a pruned commit, behind its head. -/
lemma checkStop_ok {b : String} {chain : List (VersionCommit Id)} {q : Id} :
    s.checkStop b chain (some q) = .ok () ↔ chain ≠ [] ∧ s.isPrunedCommit q = true := by
  unfold checkStop
  split <;> simp_all

/-! ## Kept, pinned, retained -/

/-- Kept on some branch. -/
def Kept (s : Objects Id) (l : Limits) (id : Id) : Prop :=
  ∃ b head p body, s.branches.get? b = some head ∧ s.Line head.commitId p id ∧
    s.commits.get? id = some body ∧ l.keeps p body.createdAt = true

/-- Named by a tag or a reflog entry. -/
def Pinned (s : Objects Id) (id : Id) : Prop :=
  (∃ t v, s.tags.get? t = some v ∧ v.commitId = id) ∨ id ∈ s.reflogCommitIds

/-- What a branch holds on to. -/
def Held (s : Objects Id) (l : Limits) (id : Id) : Prop :=
  if l.unbounded then Reach s.parents (s.Kept l) id else s.Kept l id

/-- **The retained commits.** -/
def Retained (s : Objects Id) (l : Limits) (id : Id) : Prop :=
  (s.commits.get? id).isSome ∧ (s.Held l id ∨ s.Pinned id)

lemma Kept.held (h : s.Kept l id) : s.Held l id := by
  unfold Held
  split
  · exact .root h
  · exact h

lemma Kept.retained (h : s.Kept l id) : s.Retained l id := by
  have hheld := h.held
  obtain ⟨b, head, p, body, -, -, hb, -⟩ := h
  exact ⟨by rw [hb]; rfl, .inl hheld⟩

/-- The head of a branch is kept whatever the limits. -/
lemma kept_head {b : String} {head : VersionRef Id} (hb : s.branches.get? b = some head)
    (hc : (s.commits.get? head.commitId).isSome) : s.Kept l head.commitId := by
  obtain ⟨body, hbody⟩ := Option.isSome_iff_exists.mp hc
  exact ⟨b, head, 0, body, hb, .here hc, hbody, rfl⟩

omit [ObjectId Id] in
lemma mem_keptOf :
    id ∈ keptOf l chain ↔ ∃ p c, chain[p]? = some c ∧ l.keeps p c.createdAt = true ∧ c.id = id := by
  unfold keptOf
  simp only [List.mem_map, List.mem_filter, Prod.exists, List.mk_mem_zipIdx_iff_getElem?]
  constructor
  · rintro ⟨c, p, ⟨hc, hk⟩, rfl⟩
    exact ⟨p, c, hc, hk, rfl⟩
  · rintro ⟨p, c, hc, hk, rfl⟩
    exact ⟨c, p, ⟨hc, hk⟩, rfl⟩

lemma mem_keptOf_lineage {a : Id} {stop : Option Id}
    (h : s.lineage n (some a) = some (chain, stop)) :
    id ∈ keptOf l chain ↔ ∃ p body, s.Line a p id ∧ s.commits.get? id = some body ∧
      l.keeps p body.createdAt = true := by
  rw [mem_keptOf]
  constructor
  · rintro ⟨p, c, hc, hk, rfl⟩
    obtain ⟨hl, hb⟩ := (lineage_getElem h).mp hc
    exact ⟨p, _, hl, hb, hk⟩
  · rintro ⟨p, body, hl, hb, hk⟩
    exact ⟨p, ⟨body, id⟩, (lineage_getElem h).mpr ⟨hl, hb⟩, hk, rfl⟩

/-- A branch whose history ends, and breaks off only where it may. -/
def BranchOk (s : Objects Id) (n : Nat) (e : String × VersionRef Id) : Prop :=
  ∃ chain stop, s.lineage n (some e.2.commitId) = some (chain, stop) ∧
    (e.1 ≠ "main" → s.checkStop e.1 chain stop = .ok ())

lemma keptBranches_ok : ∀ {es : List (String × VersionRef Id)} {ids : List Id},
    s.keptBranches n l es = some (.ok ids) → ∀ id, id ∈ ids ↔
      ∃ e ∈ es, e.1 ≠ "main" ∧ ∃ p body, s.Line e.2.commitId p id ∧
        s.commits.get? id = some body ∧ l.keeps p body.createdAt = true := by
  intro es
  induction es with
  | nil =>
    intro ids h id
    cases h
    simp
  | cons e es ih =>
    intro ids h id
    rw [keptBranches] at h
    simp only [List.exists_mem_cons_iff]
    split at h
    · rename_i hmain
      rw [ih h]
      exact ⟨.inr, fun h => h.resolve_left fun h => h.1 hmain⟩
    · rename_i hmain
      split at h
      · cases h
      rename_i chain stop hch
      split at h
      · cases h
      split at h
      · cases h
      · cases h
      rename_i rest hrest
      cases h
      rw [List.mem_append, mem_keptOf_lineage hch, ih hrest]
      exact or_congr_left ⟨fun h => ⟨hmain, h⟩, fun h => h.2⟩

lemma keptBranches_ok_iff : ∀ {es : List (String × VersionRef Id)},
    (∃ ids, s.keptBranches n l es = some (.ok ids)) ↔ ∀ e ∈ es, e.1 ≠ "main" → s.BranchOk n e := by
  intro es
  induction es with
  | nil => simp [keptBranches]
  | cons e es ih =>
    rw [List.forall_mem_cons, ← ih, keptBranches]
    by_cases hmain : e.1 = "main"
    · simp [hmain]
    unfold BranchOk
    simp only [hmain, if_false, ne_eq, not_false_eq_true, forall_const]
    cases s.lineage n (some e.2.commitId) with
    | none => simp
    | some r =>
      obtain ⟨chain, stop⟩ := r
      cases hstop : s.checkStop e.1 chain stop with
      | error err => simp [hstop]
      | ok u =>
        cases s.keptBranches n l es with
        | none => simp [hstop]
        | some r =>
          cases r with
          | error err => simp [hstop]
          | ok ids => simp [hstop]

lemma mem_pin : ∀ {pins : List (String × Id)} {ids out : List Id}, s.pin pins ids = .ok out →
    ∀ id, id ∈ out ↔ id ∈ ids ∨ id ∈ pins.map Prod.snd := by
  intro pins
  induction pins with
  | nil =>
    intro ids out h id
    cases h
    simp
  | cons e pins ih =>
    intro ids out h id
    rw [pin] at h
    rw [List.map_cons, List.mem_cons]
    split at h
    · rename_i hin
      rw [ih h]
      refine ⟨fun h => h.imp_right .inr, ?_⟩
      rintro (h | rfl | h)
      · exact .inl h
      · exact .inl hin
      · exact .inr h
    · split at h
      · cases h
      · rw [ih h, List.mem_cons]
        tauto

/-- Pinning succeeds when every named commit is there already or exists. -/
lemma pin_ok_iff : ∀ {pins : List (String × Id)} {ids : List Id},
    (∃ out, s.pin pins ids = .ok out) ↔ ∀ e ∈ pins, e.2 ∈ ids ∨ (s.commits.get? e.2).isSome := by
  intro pins
  induction pins with
  | nil => simp [pin]
  | cons e pins ih =>
    intro ids
    rw [pin, List.forall_mem_cons]
    by_cases hin : e.2 ∈ ids
    · rw [if_pos hin, ih]
      exact ⟨fun h => ⟨.inl hin, h⟩, fun h => h.2⟩
    rw [if_neg hin]
    cases hc : s.commits.get? e.2 with
    | none => simp [hin]
    | some body =>
      simp only [Option.isNone_some, Bool.false_eq_true, if_false, ih, Option.isSome_some,
        or_true, true_and, List.mem_cons]
      refine forall₂_congr fun x _ => ⟨?_, fun h => h.imp_left .inr⟩
      rintro ((hx | hx) | hx)
      · right
        rw [hx, hc]
        rfl
      · exact .inl hx
      · exact .inr hx

lemma mem_pins : id ∈ (s.tagPins ++ s.reflogPins).map Prod.snd ↔ s.Pinned id := by
  unfold Pinned tagPins reflogPins
  simp only [List.map_append, List.map_map, List.mem_append, List.mem_map, Prod.exists,
    Function.comp_apply, exists_eq_right, mem_entries]

/-- **What a collection needs**: every branch history ends properly, and every commit that a tag
or a reflog entry names exists. -/
structure Collectable (s : Objects Id) (n : Nat) (l : Limits) : Prop where
  branch : ∀ b head, s.branches.get? b = some head → s.BranchOk n (b, head)
  pinned : ∀ id, s.Pinned id → s.Held l id ∨ (s.commits.get? id).isSome

lemma mem_keptMain {main : List Id} (h : s.keptMain n l = some main) :
    id ∈ main ↔ ∃ head p body, s.branches.get? "main" = some head ∧ s.Line head.commitId p id ∧
      s.commits.get? id = some body ∧ l.keeps p body.createdAt = true := by
  unfold keptMain at h
  split at h
  · rename_i hnone
    cases h
    simp [hnone]
  · rename_i head hhead
    obtain ⟨⟨chain, stop⟩, hch, rfl⟩ := Option.map_eq_some_iff.mp h
    rw [mem_keptOf_lineage hch]
    constructor
    · rintro ⟨p, body, hl⟩
      exact ⟨head, p, body, hhead, hl⟩
    · rintro ⟨head', p, body, hhead', hl⟩
      rw [hhead, Option.some.injEq] at hhead'
      subst hhead'
      exact ⟨p, body, hl⟩

lemma mem_kept {main others : List Id} (hm : s.keptMain n l = some main)
    (ho : s.keptBranches n l s.branches.entries = some (.ok others)) :
    id ∈ main ++ others ↔ s.Kept l id := by
  rw [List.mem_append, mem_keptMain hm, keptBranches_ok ho]
  constructor
  · rintro (⟨head, p, body, hh, hl⟩ | ⟨e, he, -, p, body, hl⟩)
    · exact ⟨"main", head, p, body, hh, hl⟩
    · exact ⟨e.1, e.2, p, body, mem_entries.mp he, hl⟩
  · rintro ⟨b, head, p, body, hh, hl⟩
    by_cases hb : b = "main"
    · subst hb
      exact .inl ⟨head, p, body, hh, hl⟩
    · exact .inr ⟨(b, head), mem_entries.mpr hh, hb, p, body, hl⟩

/-- Without limits the kept commits are closed under parents. -/
lemma mem_held {kept : List Id} (h : ∀ id, id ∈ kept ↔ s.Kept l id) :
    id ∈ (if l.unbounded then closure s.commits (·.parents) kept else kept) ↔ s.Held l id := by
  unfold Held
  cases l.unbounded with
  | false => exact h id
  | true =>
    rw [if_pos rfl, if_pos rfl, mem_closure, funext fun x => propext (h x)]
    exact Iff.rfl

lemma retained_eq_ok {R : List Id} : s.retained n l = some (.ok R) ↔
    ∃ main others out, s.keptMain n l = some main ∧
      s.keptBranches n l s.branches.entries = some (.ok others) ∧
      s.pin (s.tagPins ++ s.reflogPins)
        (if l.unbounded then closure s.commits (·.parents) (main ++ others) else main ++ others)
        = .ok out ∧
      R = (out.filter fun id => (s.commits.get? id).isSome).dedup := by
  constructor
  · intro h
    unfold retained at h
    split at h
    · cases h
    rename_i main hm
    split at h
    · cases h
    · cases h
    rename_i others ho
    dsimp only at h
    split at h
    · cases h
    rename_i out hout
    cases h
    exact ⟨main, others, out, hm, ho, hout, rfl⟩
  · rintro ⟨main, others, out, hm, ho, hout, rfl⟩
    unfold retained
    simp only [hm, ho, hout]

/-- **A collection can decide what to retain just when the store is collectable.** -/
theorem retained_ok_iff : (∃ R, s.retained n l = some (.ok R)) ↔ s.Collectable n l := by
  have hmain : (∃ main, s.keptMain n l = some main) ↔
      ∀ head, s.branches.get? "main" = some head → s.BranchOk n ("main", head) := by
    unfold keptMain BranchOk
    cases s.branches.get? "main" with
    | none => simp
    | some head => cases s.lineage n (some head.commitId) <;> simp
  have hothers : (∃ ids, s.keptBranches n l s.branches.entries = some (.ok ids)) ↔
      ∀ e ∈ s.branches.entries, e.1 ≠ "main" → s.BranchOk n e := keptBranches_ok_iff
  constructor
  · rintro ⟨R, h⟩
    obtain ⟨main, others, out, hm, ho, hout, -⟩ := retained_eq_ok.mp h
    constructor
    · intro b head hb
      by_cases hbm : b = "main"
      · subst hbm
        exact hmain.mp ⟨main, hm⟩ head hb
      · exact hothers.mp ⟨others, ho⟩ (b, head) (mem_entries.mpr hb) hbm
    · intro id hid
      obtain ⟨e, he, rfl⟩ := List.mem_map.mp (mem_pins.mpr hid)
      refine (pin_ok_iff.mp ⟨out, hout⟩ e he).imp_left ?_
      exact fun h => (mem_held fun _ => mem_kept hm ho).mp h
  · intro h
    obtain ⟨main, hm⟩ := hmain.mpr fun head hb => h.branch _ _ hb
    obtain ⟨others, ho⟩ := hothers.mpr fun e he _ => h.branch _ _ (mem_entries.mp he)
    have hpins : ∀ e ∈ s.tagPins ++ s.reflogPins,
        e.2 ∈ (if l.unbounded then closure s.commits (·.parents) (main ++ others)
          else main ++ others) ∨ (s.commits.get? e.2).isSome := by
      intro e he
      refine (h.pinned e.2 (mem_pins.mp (List.mem_map.mpr ⟨e, he, rfl⟩))).imp_left ?_
      exact fun h => (mem_held fun _ => mem_kept hm ho).mpr h
    obtain ⟨out, hout⟩ := pin_ok_iff.mpr hpins
    exact ⟨_, retained_eq_ok.mpr ⟨main, others, out, hm, ho, hout, rfl⟩⟩

/-- **What it retains.** -/
theorem mem_retained {R : List Id} (h : s.retained n l = some (.ok R)) :
    id ∈ R ↔ s.Retained l id := by
  obtain ⟨main, others, out, hm, ho, hout, rfl⟩ := retained_eq_ok.mp h
  rw [List.mem_dedup, List.mem_filter, mem_pin hout, mem_held fun _ => mem_kept hm ho, mem_pins]
  unfold Retained
  tauto

/-! ## Live and garbage -/

/-- A blob in the tree of one of the given commits. -/
def BlobOf (s : Objects Id) (C : Id → Prop) (b : Id) : Prop :=
  ∃ n node r, s.NodeOf C n ∧ s.nodes.get? n = some node ∧ r ∈ node.blobRefs ∧ r.cid = b

lemma mem_blobs_eq {env : Env Id} {ids : List Id} {C : Id → Prop} {blobs : List (BlobRef Id)}
    {b : Id} (h : ∀ id, id ∈ ids ↔ C id)
    (hb : env.markReachableBlobs s.nodes ((ids.filterMap s.tryGetCommit).map (·.tree)) =
      .ok blobs) : b ∈ blobs.map (·.cid) ↔ s.BlobOf C b := by
  simp only [List.mem_map, env.mem_blobs hb, inTrees_eq h]
  constructor
  · rintro ⟨r, ⟨n, node, hn, hget, hr⟩, rfl⟩
    exact ⟨n, node, r, hn, hget, hr, rfl⟩
  · rintro ⟨n, node, r, hn, hget, hr, rfl⟩
    exact ⟨r, ⟨n, node, hn, hget, hr⟩, rfl⟩

end Objects

namespace Store

variable {s : Store Id} {l : Limits}

/-- **A record that nothing retained needs.** -/
def Garbage (s : Store Id) (l : Limits) : Candidate Id → Prop
  | .attestation c k => (s.attestations.get? (toLex (c, k))).isSome ∧ ¬ s.Retained l c
  | .blob b => (s.blobs.get? b).isSome ∧ ¬ s.BlobOf (s.Retained l) b
  | .commit c => (s.commits.get? c).isSome ∧ ¬ s.Retained l c
  | .idempotency k => ∃ r, s.idempotency.get? k = some r ∧ ¬ s.Retained l r.commitId
  | .node n => (s.nodes.get? n).isSome ∧ ¬ s.NodeOf (s.Retained l) n

/-- A store on which a collection succeeds. -/
structure Collectable (s : Store Id) (n : Nat) (l : Limits) : Prop where
  refs : s.toObjects.Collectable n l
  node : ∀ id, s.NodeOf (s.Retained l) id → (s.nodes.get? id).isSome

variable {env : Env Id} {cs : List (Candidate Id)}

lemma mark_eq_ok {n k : Nat} : s.mark env n l = some (.ok (k, cs)) ↔
    ∃ R nodes blobs, s.retained n l = some (.ok R) ∧
      env.markReachable s.nodes ((R.filterMap s.tryGetCommit).map (·.tree)) = .ok nodes ∧
      env.markReachableBlobs s.nodes ((R.filterMap s.tryGetCommit).map (·.tree)) = .ok blobs ∧
      k = R.length ∧ cs = s.candidates R nodes (blobs.map (·.cid)) := by
  unfold mark
  constructor
  · intro h
    split at h
    · cases h
    · cases h
    rename_i R hR
    dsimp only at h
    split at h
    · cases h
    rename_i nodes hnodes
    split at h
    · cases h
    rename_i blobs hblobs
    cases h
    exact ⟨R, nodes, blobs, hR, hnodes, hblobs, rfl, rfl⟩
  · rintro ⟨R, nodes, blobs, hR, hnodes, hblobs, rfl, rfl⟩
    simp only [hR, hnodes, hblobs]

/-- **A collection succeeds just on the collectable stores.** -/
theorem mark_ok_iff {n : Nat} : (∃ m, s.mark env n l = some (.ok m)) ↔ s.Collectable n l := by
  constructor
  · rintro ⟨⟨k, cs⟩, h⟩
    obtain ⟨R, nodes, blobs, hR, hnodes, -⟩ := mark_eq_ok.mp h
    refine ⟨retained_ok_iff.mp ⟨R, hR⟩, ?_⟩
    intro id hid
    refine env.marks_iff.mp ⟨nodes, hnodes⟩ id ?_
    rw [inTrees_eq fun _ => mem_retained hR]
    exact hid
  · intro h
    obtain ⟨R, hR⟩ := retained_ok_iff.mpr h.refs
    have hall : ∀ id, InTrees s.nodes ((R.filterMap s.tryGetCommit).map (·.tree)) id →
        (s.nodes.get? id).isSome := by
      rw [inTrees_eq fun _ => mem_retained hR]
      exact h.node
    obtain ⟨nodes, hnodes⟩ := env.marks_iff.mpr hall
    obtain ⟨blobs, hblobs⟩ := env.marks_blobs hnodes
    exact ⟨_, mark_eq_ok.mpr ⟨R, nodes, blobs, hR, hnodes, hblobs, rfl, rfl⟩⟩

/-- **The candidates are the garbage.** -/
theorem mem_mark {n k : Nat} (h : s.mark env n l = some (.ok (k, cs))) (c : Candidate Id) :
    c ∈ cs ↔ s.Garbage l c := by
  obtain ⟨R, nodes, blobs, hR, hnodes, hblobs, -, rfl⟩ := mark_eq_ok.mp h
  have hret : ∀ id, id ∈ R ↔ s.Retained l id := fun _ => mem_retained hR
  have hnode : ∀ n, n ∈ nodes ↔ s.NodeOf (s.Retained l) n := by
    intro n
    rw [env.mem_marks hnodes, inTrees_eq hret]
  have hblob : ∀ b, b ∈ blobs.map (·.cid) ↔ s.BlobOf (s.Retained l) b :=
    fun _ => mem_blobs_eq hret hblobs
  unfold candidates
  cases c with
  | attestation c k => simp [Garbage, hret, mem_entries, Option.isSome_iff_exists]
  | blob b => simp [Garbage, ← hblob, mem_entries, Option.isSome_iff_exists]
  | commit c => simp [Garbage, hret, mem_entries, Option.isSome_iff_exists]
  | idempotency k => simp [Garbage, hret, mem_entries]
  | node n => simp [Garbage, hnode, mem_entries, Option.isSome_iff_exists]

end Store

end SlateFs.Version
