import SlateFs.Cache.WriteThrough

/-!
# Changes to names are written through

The operations that make, link, remove and rename nodes. Each writes two to four nodes
and up to two names in one batch, and then goes through them one by one.
-/

namespace SlateFs

namespace Pending

open Known Write Knowing FsM Track

open FsM (wp wp_seq wp_if)

variable {v : Volume} {κ : Known} {δ : Pending} {E : Abort → Known × Pending → Prop}

/-! ## Creating -/

section Make

variable {parent : Ino} {dir : Inode} {name : Bytes} {n : Ino} {child : Inode}
  {target : Option Bytes}

lemma ofBatch_insertNodeBatch (ts : Timespec) :
    ofBatch (insertNodeBatch v parent dir name n child target ts) =
      ⟨[n, parent], [(parent, v.names.sealName parent name)]⟩ := by
  cases target <;> rfl

lemma lastNode_insertNodeBatch (ts : Timespec) (x : Ino) :
    lastNode x (insertNodeBatch v parent dir name n child target ts) =
      if parent = x then some (some (parentWithChild dir child ts))
      else if n = x then some (some child) else none := by
  cases target <;> simp only [insertNodeBatch, lastNode, toNode, List.cons_append,
    List.nil_append, Option.none_or] <;> split <;> rfl

lemma ends_insertNewNode (hdir : κ.Has parent) (hn : κ.num = some n) (hfresh : n ≠ parent) :
    Ends v (insertNewNode v parent dir name n child target) κ := by
  unfold insertNewNode
  rw [Ends, wp_bind]
  refine wp_reserve (fun _ _ => rfl) (ends_now fun ts κ' hgrows => ?_)
  have hdir' := hgrows.has hdir
  rw [Ends, wp_bind]
  refine wp_tryCommit ?_ (fun e => ?_) ?_
  · have hc : κ'.MayWrite (.inode n) := .inr (hgrows.num.trans hn)
    have hs : κ'.MayWrite (.symlink n) := .inr (hgrows.num.trans hn)
    cases target <;> simp [insertNodeBatch, covers_cons, key, hdir'.node, hc, hs,
      hdir'.name, hdir'.idx]
  · exact wp_seq (wp_release rfl)
  · have hparent : lastNode parent (insertNodeBatch v parent dir name n child target ts) =
        some (some (parentWithChild dir child ts)) := by
      rw [lastNode_insertNodeBatch, if_pos rfl]
    have hchild : lastNode n (insertNodeBatch v parent dir name n child target ts) =
        some (some child) := by
      rw [lastNode_insertNodeBatch, if_neg (Ne.symm hfresh), if_pos rfl]
    have hpknown := known_write_node hparent hdir'.held
    rw [ofBatch_insertNodeBatch]
    rw [wp_bind]
    -- the child's stripe need not be held, but nobody else has its number
    have hcsettled : _ ∨ Key.guard (.inode n) ∉ κ'.held :=
      (em _).imp_left (known_write_node hchild)
    refine wp_settle hcsettled (wp_seq (wp_settle (.inl hpknown) (wp_removeNegative ?_)))
    simp [Done, clear]

lemma ends_makeNode {mk : Timespec → Inode} (hdir : κ.Has parent) :
    Ends v (makeNode v parent dir name mk target) κ := by
  have hrest : ∀ n κ', κ'.Has parent → κ'.num = some n → n ≠ parent → Ends v (do
        let ts ← now
        let child := mk ts
        insertNewNode v parent dir name n child target
        pure (makeAttr n child)) κ' := by
    intro n κ' hd hn hfresh
    refine ends_now fun ts κ'' hgrows => ?_
    rw [Ends, wp_bind]
    exact wp_conseq (ends_insertNewNode (hgrows.has hd) (hgrows.num.trans hn) hfresh)
      (fun _ _ h => h) (fun _ _ h => h)
  unfold makeNode allocIno
  rw [Ends, wp_bind]
  refine wp_then fun r hr => ⟨⟨trivial, trivial⟩, ?_⟩
  obtain ⟨n, renew⟩ := r
  -- the number is that of no node the task knows
  have hfresh : n ≠ parent := by
    rintro rfl
    obtain ⟨i, hi⟩ := hdir
    cases hi.symm.trans hr.1
  cases renew with
  | none => exact hrest n { κ with num := some n } hdir rfl hfresh
  | some e =>
    refine wp_seq (wp_then fun r _ =>
      ⟨⟨trivial, trivial⟩, ?_⟩)
    refine wp_mapped (fun _ => ?_) fun _ _ => ?_
    · exact rfl
    · exact hrest n { κ with num := some n } hdir rfl hfresh

end Make

/-! ## Linking -/

variable {ino : Ino} {newName : Bytes} {i dir : Inode} {ts : Timespec}

lemma ofBatch_linkBatch {newParent : Ino} : ofBatch (linkBatch v ino i newParent dir newName ts) =
      ⟨[ino, newParent], [(newParent, v.names.sealName newParent newName)]⟩ := rfl

lemma ends_link {newParent : Ino} (hi : κ.Has ino) (hdir : κ.Has newParent)
    (hne : ino ≠ newParent) :
    Ends v (do
      commit (linkBatch v ino i newParent dir newName ts)
      attrsInsert ino i
      attrsInsert newParent (dirWithEntry dir ts)
      removeNegative newParent newName) κ := by
  have hlast : lastNode ino (linkBatch v ino i newParent dir newName ts) = some (some i) := by
    simp [linkBatch, lastNode, toNode, Ne.symm hne]
  have hlast' : lastNode newParent (linkBatch v ino i newParent dir newName ts) =
      some (some (dirWithEntry dir ts)) := by
    simp [linkBatch, lastNode, toNode]
  have hknown := known_write_node hlast hi.held
  have hknown' := known_write_node hlast' hdir.held
  rw [Ends, wp_bind]
  refine wp_commit ?_ (fun _ => rfl) ?_
  · simp [linkBatch, covers_cons, key, hi.node, hdir.node, hdir.name, hdir.idx]
  rw [ofBatch_linkBatch, wp_bind]
  refine wp_settle (.inl hknown) (wp_seq (wp_settle (.inl hknown') (wp_removeNegative ?_)))
  simp [Done, clear]

/-! ## Removing -/

/-- The writes of a burial are to the node and its marker. -/
def Buries (ino : Ino) (b : Batch) : Prop :=
  ∀ w ∈ b, ∀ k, w.key = some k → k = .inode ino ∨ k = .orphan ino

section Bury

variable {ino x p : Ino} {enc : Bytes} {b : Batch} (hb : Buries ino b)
include hb

lemma Buries.covers (hi : κ.Has ino) : κ.Covers b := by
  intro w hw k hk
  rcases hb w hw k hk with rfl | rfl
  · exact .inl hi
  · exact hi.held

lemma Buries.nodes (hx : x ∈ (ofBatch b).nodes) : x = ino := by
  obtain ⟨w, hw, hn⟩ := List.mem_filterMap.mp hx
  rcases hb w hw _ (key_of_node hn) with h | h
  · exact Key.inode.inj h
  · cases h

lemma Buries.names : (ofBatch b).names = [] := by
  refine List.filterMap_eq_nil_iff.mpr fun w hw => ?_
  cases w with
  | put k _ =>
    rcases hb _ hw k rfl with rfl | rfl <;> rfl
  | delete k => rfl
  | mergeBytes d => rfl
  | mergeInodes d => rfl

lemma Buries.lastNode_eq (hx : x ≠ ino) : lastNode x b = none := by
  rw [← lastWrite_inode]
  refine lastWrite_eq_none fun w hw hk => ?_
  rcases hb w hw _ hk with h | h
  · exact hx (Key.inode.inj h)
  · cases h

lemma Buries.lastName_eq : lastName p enc b = none := by
  rw [← lastWrite_dirent]
  refine lastWrite_eq_none fun w hw hk => ?_
  rcases hb w hw _ hk with h | h <;> cases h

end Bury

lemma wp_dropLink {Q : Burial → Known × Pending → Prop}
    (h : ∀ r κ', Buries ino r.writes → κ.Grows κ' → Q r (κ', .clear)) :
    wp (through v).track.ghost Q E (dropLink ino i ts) (κ, .clear) := by
  have hput : ∀ i' : Inode, Buries ino [.put (.inode ino) i'] := by
    intro i' w hw k hk
    obtain rfl := List.mem_singleton.mp hw
    exact .inl (Option.some.inj hk).symm
  refine wp_if (fun _ => ?_) fun _ => h _ κ (hput _) (.refl κ)
  refine wp_seq (wp_handlesIsOpen fun isOpen => ?_)
  refine wp_if (fun _ => ?_) fun _ => h _ κ ?_ (.refl κ)
  · refine wp_seq (see_now fun ts γ' hs => ?_)
    obtain ⟨κ', δ⟩ := γ'
    obtain ⟨hgrows, rfl⟩ := saw hs
    refine h _ κ' ?_ hgrows
    intro w hw k hk
    simp only [buryOpen, List.mem_cons, List.not_mem_nil, or_false] at hw
    rcases hw with rfl | rfl
    · exact .inr (Option.some.inj hk).symm
    · exact .inl (Option.some.inj hk).symm
  · intro w hw k hk
    simp only [buryGone, List.mem_cons, List.not_mem_nil, or_false] at hw
    rcases hw with rfl | rfl | rfl | rfl
    · exact .inr (Option.some.inj hk).symm
    · exact .inl (Option.some.inj hk).symm
    · cases hk
    · cases hk

/-- The node of a removed name is out of the cache, and the name is known to be gone. -/
lemma ends_unlinkCommit {fuel : Nat} {parent : Ino} {name : Bytes} {d : Dirent} {r : Burial}
    (hr : Buries d.childIno r.writes) (hdir : κ.Has parent) (hchild : κ.Has d.childIno)
    (hne : parent ≠ d.childIno) :
    Ends v (unlinkCommit fuel v parent dir name d r) κ := by
  have hlast : lastNode parent (dropEntry v parent name d.direntId ++ [.put (.inode parent) dir]
      ++ r.writes) = some (some dir) := by
    simp [hr.lastNode_eq hne, dropEntry, lastNode, toNode]
  have hgone : lastName parent (v.names.sealName parent name)
      (dropEntry v parent name d.direntId ++ [.put (.inode parent) dir] ++ r.writes) =
      some none := by
    simp [hr.lastName_eq, dropEntry, lastName, toName]
  have hknown := known_write_node hlast hdir.held
  unfold unlinkCommit
  rw [Ends, wp_bind]
  refine wp_commit ?_ (fun _ => rfl) ?_
  · simp [dropEntry, covers_cons, key, hdir.node, hdir.name, hdir.idx,
      hr.covers hchild]
  refine wp_seq (wp_settle (.inl hknown) (wp_seq (wp_attrsRemove ?_)))
  rw [settled, names_append, hr.names]
  rotate_left
  · intro x hx
    obtain ⟨hx, hxp⟩ := List.mem_filter.mp hx
    rw [nodes_append] at hx
    rcases List.mem_append.mp hx with hx | hx
    · exact absurd (List.mem_singleton.mp hx) (of_decide_eq_true hxp)
    · exact hr.nodes hx
  refine wp_seq (wp_insertNegative (fun _ => known_write_name hgone hdir.held) ?_)
  refine wp_seq (wp_reserveQuiet ?_)
  exact wp_if (fun _ => ends_reap hchild.held) fun _ => rfl

lemma ends_rmdir {parent : Ino} {name : Bytes} {d : Dirent} {xattrs : List (Bytes × Bytes)}
    (hdir : κ.Has parent) (hchild : κ.Has d.childIno) :
    Ends v (do
      commit (rmdirBatch v parent dir name d xattrs ts)
      attrsInsert parent { dir.touchMtime ts with nlink := dir.nlink - 1 }
      attrsRemove d.childIno
      insertNegative parent name
      reserveQuiet 0 (-1)) κ := by
  have hsweep : Track.Sweeps d.childIno (xattrs.map fun kv => .delete (.xattr d.childIno kv.1)) :=
    sweeps_map d.childIno (fun kv : Bytes × Bytes => .xattr d.childIno kv.1) (fun _ => rfl) _
  obtain ⟨hnodes, hnames⟩ := ofBatch_sweeps hsweep
  have hlast : lastNode parent (rmdirBatch v parent dir name d xattrs ts) =
      some (some { dir.touchMtime ts with nlink := dir.nlink - 1 }) := by
    unfold rmdirBatch
    simp [lastNode, toNode]
  have hgone : lastName parent (v.names.sealName parent name)
      (rmdirBatch v parent dir name d xattrs ts) = some none := by
    have hnone : lastName parent (v.names.sealName parent name)
        (xattrs.map fun kv => .delete (.xattr d.childIno kv.1)) = none := by
      rw [← lastWrite_dirent]
      refine lastWrite_eq_none fun w hw hk => ?_
      obtain ⟨kv, -, rfl⟩ := List.mem_map.mp hw
      cases hk
    unfold rmdirBatch
    rw [lastName_append, lastName_append, lastName_append, hnone]
    simp [dropEntry, lastName, toName]
  have hknown := known_write_node hlast hdir.held
  rw [Ends, wp_bind]
  refine wp_commit ?_ (fun _ => rfl) ?_
  · unfold rmdirBatch
    rw [covers_append, covers_append, covers_append]
    refine ⟨⟨⟨?_, ?_⟩, covers_sweeps hchild.held hsweep⟩, ?_⟩
    · simp [dropEntry, covers_cons, key, hdir.name, hdir.idx]
    · simp [covers_cons, key, hchild.node]
    · simp [covers_cons, key, hdir.node]
  refine wp_seq (wp_settle (.inl hknown) (wp_seq (wp_attrsRemove ?_)))
  rw [rmdirBatch, settled, names_append, names_append, hnames]
  rotate_left
  · intro x hx
    obtain ⟨hx, hxp⟩ := List.mem_filter.mp hx
    rw [nodes_append, nodes_append, hnodes, List.append_nil] at hx
    rcases List.mem_append.mp hx with hx | hx
    · exact List.mem_singleton.mp hx
    · exact absurd (List.mem_singleton.mp hx) (of_decide_eq_true hxp)
  exact wp_seq (wp_insertNegative (fun _ => known_write_name hgone hdir.held)
    (wp_reserveQuiet rfl))

/-! ## Renaming -/

/-- What replacing the target writes: the target's node and marker, and its name, which goes. -/
structure Replaces (newParent : Ino) (dst : Option Dirent) (rep : Replaced) : Prop where
  keys : ∀ w ∈ rep.writes, ∀ k, w.key = some k →
    (∃ d ∈ dst, k = .inode d.childIno ∨ k = .orphan d.childIno) ∨
    (∃ enc, k = .dirent newParent enc) ∨ ∃ id, k = .direntIdx newParent id
  names : (ofBatch rep.writes).names = []
  reap : ∀ ino ∈ rep.reap, ∃ d ∈ dst, ino = d.childIno

section Rename

variable {oldParent newParent : Ino} {oldName newName : Bytes} {src : Dirent}
  {dst : Option Dirent} {rep : Replaced}

lemma Replaces.nodes (h : Replaces newParent dst rep) {x : Ino}
    (hx : x ∈ (ofBatch rep.writes).nodes) : ∃ d ∈ dst, x = d.childIno := by
  obtain ⟨w, hw, hn⟩ := List.mem_filterMap.mp hx
  rcases h.keys w hw _ (key_of_node hn) with ⟨d, hd, h | h⟩ | ⟨enc, h⟩ | ⟨id, h⟩
  · exact ⟨d, hd, Key.inode.inj h⟩
  all_goals cases h

lemma Replaces.covers (h : Replaces newParent dst rep) (hdst : ∀ d ∈ dst, κ.Has d.childIno)
    (hnew : κ.Has newParent) : κ.Covers rep.writes := by
  intro w hw k hk
  rcases h.keys w hw k hk with ⟨d, hd, rfl | rfl⟩ | ⟨enc, rfl⟩ | ⟨id, rfl⟩
  · exact .inl (hdst d hd)
  · exact (hdst d hd).held
  · exact hnew.held
  · exact hnew.held

variable {ts : Timespec}

lemma ends_replaceTarget {α : Type} {creds : Credentials} {newDir moved : Inode}
    {f : Replaced → FsM α} (hgd : ∀ d ∈ dst, Lock.stripe (stripeOf d.childIno) ∈ κ.held)
    (h : ∀ rep κ', Replaces newParent dst rep → (∀ d ∈ dst, κ'.Has d.childIno) → κ.Grows κ' →
      Ends v (f rep) κ') :
    Ends v (replaceTarget v creds newParent newName newDir moved ts dst >>= f) κ := by
  have hdrop : ∀ id, ∀ w ∈ dropEntry v newParent newName id, ∀ k, w.key = some k →
      (∃ enc, k = .dirent newParent enc) ∨ ∃ id, k = .direntIdx newParent id := by
    intro id w hw k hk
    simp only [dropEntry, List.mem_cons, List.not_mem_nil, or_false] at hw
    rcases hw with rfl | rfl
    · exact .inl ⟨_, (Option.some.inj hk).symm⟩
    · exact .inr ⟨_, (Option.some.inj hk).symm⟩
  cases dst with
  | none => exact h _ κ ⟨by simp, rfl, by simp⟩ (by simp) (.refl κ)
  | some d =>
    rw [Ends, wp_bind, replaceTarget, wp_bind]
    refine see_loadMapped (fails (γ := (κ, .clear)) rfl) .io _ fun target γ' hs hk => ?_
    obtain ⟨κ', δ⟩ := γ'
    obtain ⟨hgrows, rfl⟩ := saw hs
    have hhas : κ'.Has d.childIno := by
      refine ⟨target, known_of_knows hk ?_ rfl⟩
      rw [hgrows.held]
      exact hgd d rfl
    refine wp_seq (wp_ofExcept (fails (v := v) (γ := (κ', .clear)) rfl).here fun _ _ => ?_)
    split
    -- a directory and a file do not replace each other
    · exact rfl
    · exact rfl
    · rw [wp_bind]
      refine see_scanDirents (fails (γ := (κ', .clear)) rfl) _ fun entries γ' hs _ => ?_
      obtain ⟨κ'', δ⟩ := γ'
      obtain ⟨hgrows', rfl⟩ := saw hs
      refine wp_if (fun _ => rfl) fun _ => h _ κ'' ⟨?_, rfl, by simp⟩ ?_ (hgrows.trans hgrows')
      · intro w hw k hk
        rcases List.mem_append.mp hw with hw | hw
        · simp only [List.mem_cons, List.not_mem_nil, or_false] at hw
          rcases hw with rfl | rfl
          · exact .inl ⟨d, rfl, .inl (Option.some.inj hk).symm⟩
          · cases hk
        · exact .inr (hdrop _ w hw k hk)
      · intro d' hd'
        obtain rfl := Option.mem_some_iff.mp hd'
        exact hgrows'.has hhas
    · refine wp_seq (wp_dropLink fun b κ'' hb hgrows' => ?_)
      refine h _ κ'' ⟨fun w hw k hk => ?_, ?_, fun ino hino => ?_⟩ ?_ (hgrows.trans hgrows')
      · rcases List.mem_append.mp hw with hw | hw
        · exact .inl ⟨d, rfl, hb w hw k hk⟩
        · exact .inr (hdrop _ w hw k hk)
      · rw [names_append, hb.names]
        rfl
      · split at hino
        · exact ⟨d, rfl, (Option.mem_some_iff.mp hino).symm⟩
        · cases hino
      · intro d' hd'
        obtain rfl := Option.mem_some_iff.mp hd'
        exact hgrows'.has hhas

/-! The batch of a rename, node by node and name by name. -/

variable {oldDir moved : Inode} {crossing : Bool} {b : Batch}
  (hb : renameBatch v oldParent oldName newParent newName src oldDir moved rep crossing ts = b)

include hb

lemma covers_renameBatch (hrep : Replaces newParent dst rep) (hsrc : κ.Has src.childIno)
    (hold : κ.Has oldParent) (hnew : κ.Has newParent) (hdst : ∀ d ∈ dst, κ.Has d.childIno) :
    κ.Covers b := by
  rw [← hb, renameBatch]
  split <;> simp [dropEntry, covers_cons, key, hsrc.node, hold.node, hold.name,
    hold.idx, hnew.node, hnew.name, hnew.idx, hrep.covers hdst hnew]

lemma moved_mem_nodes : src.childIno ∈ (ofBatch b).nodes := by
  rw [← hb, renameBatch, nodes_append, nodes_append, nodes_append]
  exact List.mem_append_left _ (List.mem_append_left _
    (List.mem_append_right _ List.mem_cons_self))

lemma nodes_renameBatch (hrep : Replaces newParent dst rep) {x : Ino}
    (hx : x ∈ (ofBatch b).nodes) : (∃ d ∈ dst, x = d.childIno) ∨ x = src.childIno ∨
      (oldParent ≠ newParent ∧ x = oldParent) ∨ x = newParent := by
  rw [← hb, renameBatch, nodes_append, nodes_append, nodes_append, nodes_append] at hx
  simp only [List.mem_append] at hx
  rcases hx with (((hx | hx) | hx) | hx) | hx
  · exact .inl (hrep.nodes hx)
  · exact absurd hx List.not_mem_nil
  · exact .inr (.inl (List.mem_singleton.mp hx))
  · split at hx
    · exact absurd hx List.not_mem_nil
    · rename_i hne
      exact .inr (.inr (.inl ⟨hne, List.mem_singleton.mp hx⟩))
  · exact .inr (.inr (.inr (List.mem_singleton.mp hx)))

lemma names_renameBatch (hrep : Replaces newParent dst rep) :
    (ofBatch b).names = [(newParent, v.names.sealName newParent newName)] := by
  rw [← hb, renameBatch, names_append, names_append, names_append, names_append, hrep.names]
  split <;> rfl

lemma lastNode_renameBatch (x : Ino) : lastNode x b =
    if newParent = x then some (some (newDirAfter rep.newDir crossing ts))
    else if oldParent = x then some (some (oldDirAfter oldDir crossing ts))
    else if src.childIno = x then some (some (movedNode moved crossing newParent ts))
    else lastNode x rep.writes := by
  rw [← hb, renameBatch]
  by_cases hnew : newParent = x
  · simp [lastNode, toNode, hnew]
  by_cases hold : oldParent = x
  · have hne : oldParent ≠ newParent := fun he => hnew (he ▸ hold)
    simp [lastNode, toNode, hold, hnew, hold ▸ hne]
  rw [if_neg hnew, if_neg hold]
  by_cases hsrc : src.childIno = x <;> by_cases he : oldParent = newParent <;>
    simp [dropEntry, lastNode, toNode, hnew, hold, hsrc, he]

/-- The old name goes. -/
lemma lastName_renameBatch (hapart : ¬(oldParent = newParent ∧ oldName = newName)) :
    lastName oldParent (v.names.sealName oldParent oldName) b = some none := by
  have hne : ¬(newParent = oldParent ∧
      v.names.sealName newParent newName = v.names.sealName oldParent oldName) := by
    rintro ⟨rfl, he⟩
    exact hapart ⟨rfl, (v.names.seal_inj he).symm⟩
  rw [← hb, renameBatch]
  split <;> simp [dropEntry, lastName, toName, hne]

/-- The end of a rename, once all nodes are up to date. -/
lemma wp_renamedNames (hrep : Replaces newParent dst rep) (hold : κ.Has oldParent)
    (hapart : ¬(oldParent = newParent ∧ oldName = newName)) {names : List (Ino × Bytes)}
    {k : FsM Unit} (hn : names = (ofBatch b).names) (hk : Ends v k (κ.write b)) :
    wp (through v).track.ghost (fun _ => Done) (fun _ => Done) (do
      insertNegative oldParent oldName
      removeNegative newParent newName
      reserveQuiet rep.bytes rep.inodes
      k) (κ.write b, ⟨[], names⟩) := by
  have hgone := lastName_renameBatch hb hapart
  refine wp_seq (wp_insertNegative (fun _ => known_write_name hgone hold.held) ?_)
  refine wp_seq (wp_removeNegative (wp_seq (wp_reserveQuiet ?_)))
  have hput : names.filter (· ≠ (newParent, v.names.sealName newParent newName)) = [] := by
    simp [hn, names_renameBatch hb hrep]
  rw [hput]
  exact hk

/-- The old directory is another one, or it is the destination and comes last. -/
lemma wp_insertOldDir (hold : κ.Has oldParent) {k : FsM Unit}
    (hk : ∀ δ', δ'.names = δ.names →
      (∀ x ∈ δ'.nodes, x ∈ δ.nodes ∧ (oldParent ≠ newParent → x ≠ oldParent)) →
      wp (through v).track.ghost (fun _ => Done) (fun _ => Done) k (κ.write b, δ')) :
    wp (through v).track.ghost (fun _ => Done) (fun _ => Done)
      (if oldParent ≠ newParent then do
        attrsInsert oldParent (oldDirAfter oldDir crossing ts)
        k
      else k) (κ.write b, δ) := by
  refine (wp_ite ..).mpr ⟨fun hne => ?_, fun he => ?_⟩
  · have hlast := lastNode_renameBatch hb oldParent
    rw [if_neg (Ne.symm hne), if_pos rfl] at hlast
    have hknown := known_write_node hlast hold.held
    rw [wp_bind]
    refine wp_attrsInsert (fun _ => .inl hknown) fun δ' hn h => hk δ' hn fun x hx => ?_
    exact ⟨(h x hx).1, fun _ => (h x hx).2 (.inl hknown)⟩
  · exact hk δ rfl fun x hx => ⟨hx, fun hne => absurd hne he⟩

omit hb

/-- Every node that a rename writes is brought up to date, in the order of the writes. -/
lemma ends_renameCommit {fuel : Nat}
    (hrep : Replaces newParent dst rep) (hsrc : κ.Has src.childIno) (hold : κ.Has oldParent)
    (hnew : κ.Has newParent) (hdst : ∀ d ∈ dst, κ.Has d.childIno)
    (hapart : ¬(oldParent = newParent ∧ oldName = newName)) :
    Ends v (renameCommit fuel v oldParent oldName newParent newName src dst oldDir moved rep
      crossing ts) κ := by
  unfold renameCommit
  rw [Ends, wp_bind]
  generalize hb : renameBatch v oldParent oldName newParent newName src oldDir moved rep crossing ts
    = b
  have hlast := lastNode_renameBatch hb
  have hknew := known_write_node ((hlast newParent).trans (if_pos rfl)) hnew.held
  have hreap : ∀ ino, rep.reap = some ino → Ends v (reapOrphanData fuel ino) (κ.write b) := by
    intro ino hino
    obtain ⟨d, hd, rfl⟩ := hrep.reap ino hino
    exact ends_reap (hdst d hd).held
  refine wp_commit (covers_renameBatch hb hrep hsrc hold hnew hdst) (fun _ => rfl) ?_
  refine wp_seq (wp_attrsInsert (fun _ => .inr (moved_mem_nodes hb)) fun δ₁ hn₁ h₁ => ?_)
  refine wp_insertOldDir hb hold fun δ₂ hn₂ h₂ => ?_
  refine wp_seq (wp_attrsInsert (fun _ => .inl hknew) fun δ₃ hn₃ h₃ => ?_)
  -- only the target that was replaced is left
  have hleft : ∀ x ∈ δ₃.nodes, ∃ d ∈ dst, x = d.childIno := by
    intro x hx
    obtain ⟨hx, hxn⟩ := h₃ x hx
    obtain ⟨hx, hxo⟩ := h₂ x hx
    obtain ⟨hx, hxs⟩ := h₁ x hx
    have hxn := hxn (.inl hknew)
    rcases nodes_renameBatch hb hrep hx with hd | rfl | ⟨hne, he⟩ | he
    · exact hd
    · have hmoved := hlast src.childIno
      rw [if_neg (Ne.symm hxn), if_neg, if_pos rfl] at hmoved
      · exact absurd rfl (hxs (.inl (known_write_node hmoved hsrc.held)))
      · intro he
        exact hxo (fun hsame => hxn (he.symm.trans hsame)) he.symm
    · exact absurd he (hxo hne)
    · exact absurd he hxn
  have hn : δ₃.names = (ofBatch b).names := hn₃.trans (hn₂.trans hn₁)
  cases dst with
  | none =>
    obtain ⟨nodes, names⟩ := δ₃
    obtain rfl : nodes = [] := List.eq_nil_iff_forall_not_mem.mpr fun x hx => by
      obtain ⟨d, hd, -⟩ := hleft x hx
      cases hd
    refine wp_renamedNames hb hrep hold hapart hn ?_
    split
    · exact hreap _ ‹_›
    · rfl
  | some d =>
    refine wp_seq (wp_attrsRemove ?_)
    rw [settled fun x hx => ?_]
    · refine wp_renamedNames hb hrep hold hapart hn ?_
      split
      · exact hreap _ ‹_›
      · rfl
    · obtain ⟨d', hd', he⟩ := hleft x hx
      obtain rfl := Option.mem_some_iff.mp hd'
      exact he

end Rename

/-! ## All operations -/

lemma stripe_held (ino : Ino) {inos : List Ino} (hl : ∀ l ∈ writeMany inos, l ∈ κ.held)
    (h : ino ∈ inos) : Lock.stripe (stripeOf ino) ∈ κ.held := hl _ (stripe_mem_writeMany h)

lemma has_of_knows {inos : List Ino} (hl : ∀ l ∈ writeMany inos, l ∈ κ.held)
    (h : (through v).track.Knows (κ, .clear) (.inode ino) (some i))
    (hm : ino ∈ inos := by simp) : κ.Has ino :=
  ⟨i, known_of_knows h (stripe_held ino hl hm) rfl⟩

/-- Two nodes of different kinds are two nodes. -/
lemma ne_of_knows {ino' : Ino} {i' : Inode} (hi : κ.Has ino)
    (h : (through v).track.Knows (κ, .clear) (.inode ino) (some i))
    (h' : (through v).track.Knows (κ, .clear) (.inode ino') (some i'))
    (hne : i.kind.isDir ≠ i'.kind.isDir) : ino ≠ ino' := by
  rintro rfl
  have he := (known_of_knows h hi.held rfl).symm.trans (known_of_knows h' hi.held rfl)
  exact hne (congrArg (fun x : Inode => x.kind.isDir) (Option.some.inj (Option.some.inj he)))

/-- **Every operation writes through**: it ends with nothing left to do, whatever it reads
and whichever storage call fails. -/
theorem serves (v : Volume) : (through v).track.Serves v (.blank, .clear) Done Done where
  quiet := quiet fun _ => List.not_mem_nil
  quietRename := quiet (bare_acq_rename fun _ => List.not_mem_nil)
  ended := rfl
  failed := rfl
  fill ino i r _ := by
    refine ⟨⟨trivial, fun h => absurd h List.not_mem_nil⟩, Prod.ext rfl ?_⟩
    show after v (.attrsInsert ino i) .blank clear r = clear
    simp [after, blank, clear]
  miss parent name _ _ := ⟨⟨trivial, fun h => absurd h List.not_mem_nil⟩, rfl⟩
  opens _ _ _ _ := ⟨⟨trivial, trivial⟩, rfl⟩
  closes _ _ _ := ⟨⟨trivial, trivial⟩, rfl⟩
  make parent dir name mk target := by
    refine under fun κ hl hk => ?_
    exact ends_makeNode (has_of_knows hl hk.node)
  link ino newParent newName i₀ i dir ts := by
    refine under fun κ hl hk => ?_
    have hi := has_of_knows hl hk.source
    refine ends_link hi (has_of_knows hl hk.node) ?_
    exact ne_of_knows hi hk.source hk.node (by rw [hk.notDir, hk.isDir]; decide)
  unlink fuel parent name dir child d ts := by
    refine under fun κ hl hk => ?_
    obtain ⟨hk, hfile⟩ := hk
    have hp := has_of_knows hl hk.node
    -- a directory is not its own child
    have hne := ne_of_knows hp hk.node hk.childNode (by rw [hk.isDir, hfile]; decide)
    rw [Ends, wp_bind]
    refine wp_dropLink fun r κ' hr hgrows => ?_
    exact ends_unlinkCommit hr (hgrows.has hp) (hgrows.has (has_of_knows hl hk.childNode)) hne
  rmdir parent name dir child d xattrs ts := by
    refine under fun κ hl hk => ?_
    exact ends_rmdir (has_of_knows hl hk.node) (has_of_knows hl hk.childNode)
  rename fuel creds p n q m src dst oldDir newDir moved ts := by
    refine under (fun κ hl hk => ?_) (fun _ γ h => (relAll_rest [.rename] γ).2.trans h)
      (fun _ γ h => (relAll_rest [.rename] γ).2.trans h)
    have hgd : ∀ d ∈ dst, Lock.stripe (stripeOf d.childIno) ∈ κ.held := by
      intro d hd
      obtain rfl := Option.mem_def.mp hd
      exact stripe_held d.childIno hl (by simp)
    refine ends_replaceTarget hgd fun rep κ' hrep hdst hgrows => ?_
    exact ends_renameCommit hrep (hgrows.has (has_of_knows hl hk.movedNode))
      (hgrows.has (has_of_knows hl hk.oldNode)) (hgrows.has (has_of_knows hl hk.newNode)) hdst
      hk.apart
  setattr ino i ts := by
    refine under fun κ hl hk => ?_
    obtain ⟨-, -, i₀, hi, -⟩ := hk
    exact ends_setattrCommit (has_of_knows hl hi) (by simp)
  resize ino i newSize plan ts := by
    refine under fun κ hl hk => ?_
    obtain ⟨-, -, i₀, hi, -⟩ := hk
    rw [Ends, wp_bind]
    refine wp_reserve (fun _ _ => rfl) ?_
    exact ends_setattrCommit (has_of_knows hl hi) (truncateBatch_keys plan)
  write creds ino i plan := by
    refine under fun κ hl hk => ?_
    exact ends_write (has_of_knows hl hk.1) i
  xattr ino w i hw := by
    refine under fun κ hl hk => ?_
    obtain ⟨i₀, -, hi, -⟩ := hk
    exact ends_xattr (has_of_knows hl hi) hw i
  atime ino i := by
    refine under fun κ hl hk => ?_
    obtain ⟨i₀, -, hi, -⟩ := hk
    exact ends_atime (has_of_knows hl hi) i
  finish fuel ino := by
    refine under fun κ hl _ => ?_
    exact ends_finishOrphan (stripe_held ino hl (by simp))

end Pending

end SlateFs
