import SlateFs.Core.Track

/-!
# The shape of the operations on names

An operation looks around, locks, looks again, and then does the few things that
matter: it commits, and brings caches and counters up to date. Here each operation on
names is reduced to that last part, for any track, with what it has read under its
locks. A failed look ends the operation where it began, so all these rules ask for one
error condition, `hE`.
-/

namespace SlateFs

namespace Track

open FsM

open FsM (wp wp_seq wp_if)

variable {Γ : Type} {τ : Track Γ} {γ : Γ} {E : Abort → Γ → Prop} {α : Type} {v : Volume}
  {creds : Credentials} {fuel : Nat}

/-- A call that leaves the track where it is, whatever the answer. -/
def Passes (τ : Track Γ) (γ : Γ) (c : Call) : Prop :=
  ∀ r, τ.can c γ r → τ.ok c γ r ∧ τ.next c γ r = γ

lemma wp_passes {c : Call} (hc : τ.Passes γ c) {Q : c.Ret → Γ → Prop}
    (hQ : ∀ r, τ.can c γ r → Q r γ) : wp τ.ghost Q E (call c) γ := by
  rw [wp_call]
  intro r hr
  obtain ⟨hok, hnext⟩ := hc r hr
  rw [hnext]
  exact ⟨hok, hQ r hr⟩

/-! ## Sweeping -/

/-- The records of a node apart from the node itself. -/
def IsBody (ino : Ino) : Key → Prop
  | .chunk i _ | .xattr i _ | .symlink i | .orphan i => i = ino
  | _ => False

/-- A batch that only deletes what belongs to one node, and not the node. -/
def Sweeps (ino : Ino) (b : Batch) : Prop := ∀ w ∈ b, ∃ k, IsBody ino k ∧ w = .delete k

lemma sweeps_map {β : Type} (ino : Ino) (f : β → Key) (hf : ∀ x, IsBody ino (f x))
    (xs : List β) : Sweeps ino (xs.map fun x => .delete (f x)) := by
  intro w hw
  obtain ⟨x, -, rfl⟩ := List.mem_map.mp hw
  exact ⟨f x, hf x, rfl⟩

/-- A condition that neither looking nor sweeping up after a node spoils. -/
structure Sweepable (τ : Track Γ) (ino : Ino) (P : Γ → Prop) : Prop where
  look : ∀ {γ γ'}, P γ → τ.Saw γ γ' → P γ'
  sweep : ∀ {γ b}, P γ → Sweeps ino b → ∀ r, τ.can (.commit b) γ r →
    τ.ok (.commit b) γ r ∧ P (τ.next (.commit b) γ r)

section Sweep

variable {ino : Ino} {P : Γ → Prop} (hs : τ.Sweepable ino P) (hE : ∀ γ, P γ → ∀ e, E e γ)
  {Q : Unit → Γ → Prop}
include hs hE

lemma wp_sweep {b : Batch} (hb : Sweeps ino b) (h : P γ) (hQ : ∀ γ, P γ → Q () γ) :
    wp τ.ghost Q E (commit b) γ := by
  refine wp_then fun r hr => ?_
  obtain ⟨hok, h'⟩ := hs.sweep h hb r hr
  exact ⟨hok, wp_mapped (hE _ h') fun _ _ => hQ _ h'⟩

lemma wp_reapChunks (hQ : ∀ γ, P γ → Q () γ) (fuel : Nat) (h : P γ) :
    wp τ.ghost Q E (reapChunks ino fuel) γ := by
  induction fuel generalizing γ with
  | zero => exact wp_stuck.mpr trivial
  | succ fuel ih =>
    rw [reapChunks, wp_bind]
    refine see_scanChunks (fun e _ h' => hE _ (hs.look h h') e) ino 0 fun kvs γ₁ h₁ => ?_
    have hP := hs.look h h₁
    refine wp_if (fun _ => hQ _ hP) fun _ => ?_
    refine wp_seq (wp_sweep hs hE ?_ hP fun γ₂ h₂ => ?_)
    · exact sweeps_map ino (fun kv : Nat × Bytes => .chunk ino kv.1) (fun _ => rfl) _
    · exact (wp_ite ..).mpr ⟨fun _ => hQ _ h₂, fun _ => ih h₂⟩

lemma wp_reapOrphanData (hQ : ∀ γ, P γ → Q () γ) (h : P γ) :
    wp τ.ghost Q E (reapOrphanData fuel ino) γ := by
  refine wp_seq (wp_reapChunks hs hE (fun γ₁ h₁ => ?_) fuel h)
  refine wp_seq (see_scanXattrs (fun e _ h' => hE _ (hs.look h₁ h') e) ino fun xattrs γ₂ h₂ _ => ?_)
  refine wp_sweep hs hE ?_ (hs.look h₁ h₂) hQ
  intro w hw
  rcases List.mem_append.mp hw with hw | hw
  · exact sweeps_map ino (fun kv : Bytes × Bytes => .xattr ino kv.1) (fun _ => rfl) _ w hw
  rcases List.mem_cons.mp hw with rfl | hw
  · exact ⟨.symlink ino, rfl, rfl⟩
  · exact ⟨.orphan ino, rfl, List.mem_singleton.mp hw⟩

lemma wp_spillDeletes (hQ : ∀ γ, P γ → Q () γ) (groups : List (List Nat)) (h : P γ) :
    wp τ.ghost Q E (spillDeletes ino groups) γ := by
  induction groups generalizing γ with
  | nil => exact hQ _ h
  | cons group rest ih =>
    rw [spillDeletes, wp_bind]
    refine wp_sweep hs hE ?_ h fun γ₁ h₁ => ih h₁
    exact sweeps_map ino (.chunk ino) (fun _ => rfl) group

end Sweep

/-! ## Bodies under locks -/

/-- A body run under locks once `K` has been found there, and what holds when the locks
are dropped again. -/
def Under (τ : Track Γ) (ls : List Lock) (γ : Γ) (K : Γ → Prop) (Q : α → Γ → Prop)
    (E : Abort → Γ → Prop) (p : FsM α) : Prop :=
  ∀ γ', τ.Saw (τ.acqAll ls γ) γ' → K γ' →
    wp τ.ghost (fun a γ'' => Q a (τ.relAll ls γ'')) (fun e γ'' => E e (τ.relAll ls γ'')) p γ'

/-- What is known when a name is about to be put into a directory. -/
structure Vacant (τ : Track Γ) (v : Volume) (parent : Ino) (name : Bytes) (dir : Inode)
    (γ : Γ) : Prop where
  isDir : dir.kind.isDir = true
  node : τ.Knows γ (.inode parent) (some dir)
  entry : τ.Knows γ (.dirent parent (v.names.sealName parent name)) none

/-- What is known when a name is about to be taken out of a directory. -/
structure Named (τ : Track Γ) (v : Volume) (parent : Ino) (name : Bytes) (dir : Inode)
    (d : Dirent) (child : Inode) (γ : Γ) : Prop where
  isDir : dir.kind.isDir = true
  node : τ.Knows γ (.inode parent) (some dir)
  entry : ∃ d', τ.Knows γ (.dirent parent (v.names.sealName parent name)) (some d') ∧
    d'.childIno = d.childIno ∧ d'.direntId = d.direntId
  childNode : τ.Knows γ (.inode d.childIno) (some child)

lemma Named.mono {parent : Ino} {name : Bytes} {dir child : Inode} {d : Dirent} {γ' : Γ}
    (h : τ.Named v parent name dir d child γ) (hs : τ.Saw γ γ') :
    τ.Named v parent name dir d child γ' := by
  obtain ⟨d', hd, hsame⟩ := h.entry
  exact ⟨h.isDir, h.node.mono hs, ⟨d', hd.mono hs, hsame⟩, h.childNode.mono hs⟩

/-! ## Creating -/

section Failing

variable (hE : τ.AtRest E γ)
include hE

section Create

variable {parent : Ino} {name : Bytes} {Q : FileAttr → Γ → Prop}

/-- Lock a directory, read it, and look a name up in it. -/
lemma wp_inDir {k : Inode → Option Dirent → FsM α} {Q : α → Γ → Prop}
    (hk : ∀ E' : Abort → Γ → Prop, (E' = fun e γ' => E e (τ.relAll (writeMany [parent]) γ')) →
      ∀ dir o γ', τ.Saw (τ.acqAll (writeMany [parent]) γ) γ' → τ.Fails E' γ' →
      dir.kind.isDir = true → τ.Knows γ' (.inode parent) (some dir) →
      τ.Knows γ' (.dirent parent (v.names.sealName parent name)) o →
      wp τ.ghost (fun a γ'' => Q a (τ.relAll (writeMany [parent]) γ'')) E' (k dir o) γ') :
    wp τ.ghost Q E (withGuards (writeMany [parent]) (do
      let dir ← loadDir parent
      ofExcept (access creds dir (ACCESS_W ||| ACCESS_X))
      let o ← direntOf v parent name
      k dir o)) γ := by
  refine wp_locked hE fun E' hE' hfail => ?_
  refine wp_seq (see_loadDir hfail parent fun dir γ₁ h₁ hkind hdir => ?_)
  refine wp_seq (wp_ofExcept (hfail.mono h₁).here fun _ _ => ?_)
  refine wp_seq (see_direntOf (hfail.mono h₁) v parent name fun o γ₂ h₂ ho => ?_)
  exact hk E' hE' dir o γ₂ (h₁.trans h₂) (hfail.mono (h₁.trans h₂)) hkind (hdir.mono h₂) ho

/-- What is asked of the part that makes the node. -/
def Makes (τ : Track Γ) (γ : Γ) (v : Volume) (parent : Ino) (name : Bytes)
    (Q : FileAttr → Γ → Prop) (E : Abort → Γ → Prop) : Prop :=
  ∀ dir mk target, τ.Under (writeMany [parent]) γ (τ.Vacant v parent name dir) Q E
    (makeNode v parent dir name mk target)

variable {mode : UInt32}

lemma wp_create {exclusive : Bool} (hold : ∀ a, Q a γ) (hmake : τ.Makes γ v parent name Q E) :
    wp τ.ghost Q E (create v creds parent name mode exclusive) γ := by
  refine wp_seq (wp_ofExcept hE.fails fun _ _ =>
    wp_inDir hE fun E' hE' dir o γ₁ h₁ hfail hkind hdir ho => ?_)
  cases o with
  | some existing =>
    refine wp_if (fun _ => hfail.here _) fun _ => ?_
    refine wp_seq (see_loadInode hfail _ fun i γ₂ h₂ _ => ?_)
    refine wp_if (fun _ => (hfail.mono h₂).here _) fun _ => ?_
    refine wp_seq (wp_ofExcept (hfail.mono h₂).here fun _ _ => ?_)
    rw [wp_pure, hE.back _ _ (h₁.trans h₂)]
    exact hold _
  | none =>
    subst hE'
    exact hmake dir _ _ γ₁ h₁ ⟨hkind, hdir, ho⟩

lemma wp_mkdir (hmake : τ.Makes γ v parent name Q E) :
    wp τ.ghost Q E (mkdir v creds parent name mode) γ := by
  refine wp_seq (wp_ofExcept hE.fails fun _ _ =>
    wp_inDir hE fun E' hE' dir o γ₁ h₁ hfail hkind hdir ho => ?_)
  cases o with
  | some _ => exact hfail.here _
  | none =>
    subst hE'
    exact hmake dir _ _ γ₁ h₁ ⟨hkind, hdir, ho⟩

lemma wp_mknod {kind : FileKind} {rdev : Nat} (hmake : τ.Makes γ v parent name Q E) :
    wp τ.ghost Q E (mknod v creds parent name mode kind rdev) γ := by
  refine wp_seq (wp_ofExcept hE.fails fun _ _ => ?_)
  refine wp_seq (wp_ofExcept hE.fails fun _ _ =>
    wp_inDir hE fun E' hE' dir o γ₁ h₁ hfail hkind hdir ho => ?_)
  cases o with
  | some _ => exact hfail.here _
  | none =>
    subst hE'
    exact hmake dir _ _ γ₁ h₁ ⟨hkind, hdir, ho⟩

lemma wp_symlink {target : Bytes} (hmake : τ.Makes γ v parent name Q E) :
    wp τ.ghost Q E (symlink v creds parent name target) γ := by
  refine wp_seq (wp_ofExcept hE.fails fun _ _ => ?_)
  rw [wp_ite]
  refine ⟨fun _ => hE.fails _, fun _ =>
    wp_inDir hE fun E' hE' dir o γ₁ h₁ hfail hkind hdir ho => ?_⟩
  cases o with
  | some _ => exact hfail.here _
  | none =>
    subst hE'
    exact hmake dir _ _ γ₁ h₁ ⟨hkind, hdir, ho⟩

end Create

/-! ## Linking -/

/-- What is known when a link is about to be made. -/
structure Linkable (τ : Track Γ) (v : Volume) (ino newParent : Ino) (newName : Bytes)
    (i₀ i dir : Inode) (ts : Timespec) (γ : Γ) : Prop extends
    Vacant τ v newParent newName dir γ where
  notDir : i₀.kind.isDir = false
  source : τ.Knows γ (.inode ino) (some i₀)
  linked : ∃ nlink, nlinkSucc i₀.nlink = .ok nlink ∧ i = { i₀ with nlink := nlink, ctime := ts }

lemma wp_link {ino newParent : Ino} {newName : Bytes} {Q : FileAttr → Γ → Prop}
    (hrest : ∀ (i₀ i dir : Inode) (ts : Timespec),
      τ.Under (writeMany [ino, newParent]) γ (τ.Linkable v ino newParent newName i₀ i dir ts)
        Q E (do
          commit (linkBatch v ino i newParent dir newName ts)
          attrsInsert ino i
          attrsInsert newParent (dirWithEntry dir ts)
          removeNegative newParent newName
          pure (makeAttr ino i))) :
    wp τ.ghost Q E (link v creds ino newParent newName) γ := by
  refine wp_seq (wp_ofExcept hE.fails fun _ _ => wp_locked hE fun E' hE' hfail => ?_)
  refine wp_seq (see_loadInode hfail ino fun i γ₁ h₁ hi => ?_)
  refine wp_if (fun _ => (hfail.mono h₁).here _) fun hfile => ?_
  refine wp_seq (see_loadDir (hfail.mono h₁) newParent fun dir γ₂ h₂ hkind hdir => ?_)
  have h₁₂ := h₁.trans h₂
  refine wp_seq (wp_ofExcept (hfail.mono h₁₂).here fun _ _ => ?_)
  refine wp_seq (see_direntOf (hfail.mono h₁₂) v newParent newName fun o γ₃ h₃ ho => ?_)
  have h₁₃ := h₁₂.trans h₃
  cases o with
  | some _ => exact (hfail.mono h₁₃).here _
  | none =>
    refine wp_seq (see_now fun ts γ₄ h₄ => ?_)
    have h₁₄ := h₁₃.trans h₄
    refine wp_seq (wp_ofExcept (hfail.mono h₁₄).here fun nlink hn => ?_)
    subst hE'
    refine hrest i _ dir ts γ₄ h₁₄ ⟨⟨hkind, (hdir.mono h₃).mono h₄, ho.mono h₄⟩,
      Bool.eq_false_of_not_eq_true hfile, ((hi.mono h₂).mono h₃).mono h₄, nlink, hn, rfl⟩

/-! ## Unlinking and removing directories -/

section Remove

variable {parent : Ino} {name : Bytes} {Q : Unit → Γ → Prop}

/-- The retry loop: a round that asks for another one has changed nothing. -/
lemma wp_removeLoop {locked : Nat → Dirent → FsM Bool}
    (hlocked : ∀ fuel d, ∀ E' : Abort → Γ → Prop,
      (E' = fun e γ' => E e (τ.relAll (writeMany [parent, d.childIno]) γ')) →
      τ.Fails E' (τ.acqAll (writeMany [parent, d.childIno]) γ) →
      wp τ.ghost
        (fun again γ' => (again = true → τ.Saw (τ.acqAll (writeMany [parent, d.childIno]) γ) γ') ∧
          (again = false → Q () (τ.relAll (writeMany [parent, d.childIno]) γ')))
        E' (locked fuel d) (τ.acqAll (writeMany [parent, d.childIno]) γ)) (fuel : Nat) :
    wp τ.ghost Q E (removeLoop v parent name locked fuel) γ := by
  induction fuel with
  | zero => exact wp_stuck.mpr trivial
  | succ fuel ih =>
    rw [removeLoop, wp_bind]
    refine wp_direntOf hE v parent name fun o => ?_
    cases o with
    | none => exact hE.fails _
    | some d =>
      refine wp_seq (wp_locked hE fun E' hE' hfail => ?_)
      refine wp_conseq (hlocked fuel d E' hE' hfail) ?_ (fun _ _ h => h)
      intro again γ' h
      refine wp_if (fun ha => ?_) fun ha => ?_
      · rw [hE.back _ _ (h.1 ha)]
        exact ih
      · exact h.2 (Bool.eq_false_of_not_eq_true ha)

omit hE in
/-- The locked part of unlink and rmdir up to where the two part ways. -/
lemma wp_recheck (hfail : τ.Fails E γ) {d : Dirent} {k : Inode → Inode → FsM Bool}
    {R : Bool → Γ → Prop} (hagain : ∀ γ', τ.Saw γ γ' → R true γ')
    (hk : ∀ dir child γ', τ.Saw γ γ' → τ.Named v parent name dir d child γ' →
      wp τ.ghost R E (k dir child) γ') :
    wp τ.ghost R E (do
      match ← direntOf v parent name with
      | none => fail .notFound
      | some d2 =>
        if d2.childIno ≠ d.childIno ∨ d2.direntId ≠ d.direntId then pure true
        else
          let dir ← loadDir parent
          ofExcept (access creds dir (ACCESS_W ||| ACCESS_X))
          let child ← mapErr .io (loadInode d.childIno)
          k dir child) γ := by
  refine wp_seq (see_direntOf hfail v parent name fun o γ₁ h₁ ho => ?_)
  cases o with
  | none => exact (hfail.mono h₁).here _
  | some d2 =>
    refine wp_if (fun _ => hagain γ₁ h₁) fun hsame => ?_
    rw [not_or, not_ne_iff, not_ne_iff] at hsame
    refine wp_seq (see_loadDir (hfail.mono h₁) parent fun dir γ₂ h₂ hkind hdir => ?_)
    have h₁₂ := h₁.trans h₂
    refine wp_seq (wp_ofExcept (hfail.mono h₁₂).here fun _ _ => ?_)
    refine wp_seq (see_loadMapped (hfail.mono h₁₂) .io _ fun child γ₃ h₃ hchild => ?_)
    exact hk dir child γ₃ (h₁₂.trans h₃)
      ⟨hkind, hdir.mono h₃, ⟨d2, (ho.mono h₂).mono h₃, hsame⟩, hchild⟩

lemma wp_unlink (hrest : ∀ fuel (dir child : Inode) (d : Dirent) (ts : Timespec),
      τ.Under (writeMany [parent, d.childIno]) γ
        (fun γ' => τ.Named v parent name dir d child γ' ∧ child.kind.isDir = false)
        (fun _ => Q ()) E (do
          let b ← dropLink d.childIno child ts
          unlinkCommit fuel v parent (dir.touchMtime ts) name d b)) (fuel : Nat) :
    wp τ.ghost Q E (unlink fuel v creds parent name) γ := by
  unfold unlink
  rw [wp_bind]
  refine wp_ofExcept hE.fails fun _ _ => wp_removeLoop hE (fun fuel d E' hE' hfail => ?_) fuel
  refine wp_recheck hfail (fun γ' h => ⟨fun _ => h, nofun⟩) fun dir child γ₁ h₁ hnamed => ?_
  refine wp_if (fun _ => (hfail.mono h₁).here _) fun hfile => ?_
  refine wp_seq (wp_ofExcept (hfail.mono h₁).here fun _ _ => ?_)
  refine wp_seq (see_now fun ts γ₂ h₂ => ?_)
  subst hE'
  have hrest' := hrest fuel dir child d ts γ₂ (h₁.trans h₂)
    ⟨hnamed.mono h₂, Bool.eq_false_of_not_eq_true hfile⟩
  rw [wp_bind] at hrest' ⊢
  refine wp_conseq hrest' ?_ (fun _ _ h => h)
  intro b γ' h
  exact wp_seq (wp_conseq h (fun _ _ h => ⟨nofun, fun _ => h⟩) (fun _ _ h => h))

/-- What is known when a directory is about to be removed. -/
structure Removable (τ : Track Γ) (v : Volume) (parent : Ino) (name : Bytes) (dir : Inode)
    (d : Dirent) (child : Inode) (xattrs : List (Bytes × Bytes)) (γ : Γ) : Prop extends
    Named τ v parent name dir d child γ where
  childDir : child.kind.isDir = true
  empty : τ.Heard γ (.scanDirents d.childIno) (Except.ok [])
  attrs : τ.Heard γ (.scanXattrs d.childIno) (Except.ok xattrs)

lemma wp_rmdir (hrest : ∀ (dir child : Inode) (d : Dirent) (xattrs : List (Bytes × Bytes))
      (ts : Timespec), τ.Under (writeMany [parent, d.childIno]) γ
        (τ.Removable v parent name dir d child xattrs) (fun _ => Q ()) E (do
          commit (rmdirBatch v parent dir name d xattrs ts)
          attrsInsert parent { dir.touchMtime ts with nlink := dir.nlink - 1 }
          attrsRemove d.childIno
          insertNegative parent name
          reserveQuiet 0 (-1))) (fuel : Nat) :
    wp τ.ghost Q E (rmdir fuel v creds parent name) γ := by
  unfold rmdir
  rw [wp_bind]
  refine wp_ofExcept hE.fails fun _ _ => wp_removeLoop hE (fun fuel d E' hE' hfail => ?_) fuel
  refine wp_recheck hfail (fun γ' h => ⟨fun _ => h, by simp⟩) fun dir child γ₁ h₁ hnamed => ?_
  refine wp_if (fun _ => (hfail.mono h₁).here _) fun hkind => ?_
  refine wp_seq (wp_ofExcept (hfail.mono h₁).here fun _ _ => ?_)
  refine wp_seq (see_scanDirents (hfail.mono h₁) _ fun entries γ₂ h₂ hentries => ?_)
  have h₁₂ := h₁.trans h₂
  refine wp_if (fun _ => (hfail.mono h₁₂).here _) fun hnone => ?_
  refine wp_seq (see_now fun ts γ₃ h₃ => ?_)
  refine wp_seq (see_scanXattrs (hfail.mono (h₁₂.trans h₃)) _ fun xattrs γ₄ h₄ hxattrs => ?_)
  obtain rfl := not_ne_iff.mp hnone
  subst hE'
  have hrest' := hrest dir child d xattrs ts γ₄ ((h₁₂.trans h₃).trans h₄)
    ⟨((hnamed.mono h₂).mono h₃).mono h₄, not_not.mp hkind, (hentries.mono h₃).mono h₄, hxattrs⟩
  simp only [wp_bind] at hrest' ⊢
  refine wp_conseq hrest' (fun _ _ h => ?_) (fun _ _ h => h)
  refine wp_conseq h (fun _ _ h => ?_) (fun _ _ h => h)
  refine wp_conseq h (fun _ _ h => ?_) (fun _ _ h => h)
  refine wp_conseq h (fun _ _ h => ?_) (fun _ _ h => h)
  exact wp_conseq h (fun _ _ h => ⟨by simp, fun _ => h⟩) (fun _ _ h => h)

end Remove

/-! ## Renaming -/

/-- The stripes of one round of rename. -/
def renameLocks (oldParent newParent : Ino) (src : Dirent) (dst : Option Dirent) : List Lock :=
  writeMany ([oldParent, newParent, src.childIno]
    ++ (match dst with | some d => [d.childIno] | none => []))

/-- A walk to the root was read that does not meet a node. -/
inductive Climbed (τ : Track Γ) (γ : Γ) (moved : Ino) : Ino → Prop where
  | root (hne : ROOT_INO ≠ moved) : Climbed τ γ moved ROOT_INO
  | step {cursor : Ino} {i : Inode} (hne : cursor ≠ moved)
      (hi : τ.Knows γ (.inode cursor) (some i)) (h : Climbed τ γ moved i.parentDir) :
      Climbed τ γ moved cursor

omit hE in
lemma Climbed.mono {moved cursor : Ino} (h : τ.Climbed γ moved cursor) (hs : τ.Saw γ γ') :
    τ.Climbed γ' moved cursor := by
  induction h with
  | root hne => exact .root hne
  | step hne hi _ ih => exact .step hne (hi.mono hs) ih

omit hE in
lemma wp_ancestorWalk (hfail : τ.Fails E γ) (moved : Ino) {Q : Unit → Γ → Prop} (fuel : Nat)
    (cursor : Ino) (hQ : ∀ γ', τ.Saw γ γ' → τ.Climbed γ' moved cursor → Q () γ') :
    wp τ.ghost Q E (ancestorWalk moved fuel cursor) γ := by
  induction fuel generalizing cursor γ with
  | zero => exact wp_stuck.mpr trivial
  | succ fuel ih =>
    rw [ancestorWalk, wp_ite]
    refine ⟨fun _ => hfail.here _, fun hne => ?_⟩
    refine wp_if (fun hroot => hQ γ .refl ?_) fun _ => ?_
    · subst hroot
      exact .root hne
    refine wp_seq (see_loadMapped hfail .io _ fun i γ' h hi => ?_)
    exact ih (hfail.mono h) i.parentDir fun γ'' h' hc =>
      hQ γ'' (h.trans h') (.step hne (hi.mono h') hc)

/-- What is known when a rename is about to change something. -/
structure Movable (τ : Track Γ) (v : Volume) (oldParent : Ino) (oldName : Bytes) (newParent : Ino)
    (newName : Bytes) (src : Dirent) (dst : Option Dirent) (oldDir newDir moved : Inode)
    (γ : Γ) : Prop where
  source : ∃ src', τ.Knows γ (.dirent oldParent (v.names.sealName oldParent oldName)) src' ∧
    entryId src' = entryId (some src)
  target : ∃ dst', τ.Knows γ (.dirent newParent (v.names.sealName newParent newName)) dst' ∧
    entryId dst' = entryId dst
  other : dst.map Dirent.childIno ≠ some src.childIno
  apart : ¬(oldParent = newParent ∧ oldName = newName)
  oldIsDir : oldDir.kind.isDir = true
  newIsDir : newDir.kind.isDir = true
  oldNode : τ.Knows γ (.inode oldParent) (some oldDir)
  newNode : τ.Knows γ (.inode newParent) (some newDir)
  same : oldParent = newParent → newDir = oldDir
  movedNode : τ.Knows γ (.inode src.childIno) (some moved)
  walked : (moved.kind.isDir && oldParent ≠ newParent) = true →
    τ.Climbed γ src.childIno newParent

section Rename

variable {oldParent newParent : Ino} {oldName newName : Bytes} {Q : Unit → Γ → Prop}

/-- The part of rename that changes something. -/
def renameRest (fuel : Nat) (v : Volume) (creds : Credentials) (oldParent : Ino) (oldName : Bytes)
    (newParent : Ino) (newName : Bytes) (src : Dirent) (dst : Option Dirent)
    (oldDir newDir moved : Inode) (ts : Timespec) : FsM Unit := do
  let rep ← replaceTarget v creds newParent newName newDir moved ts dst
  renameCommit fuel v oldParent oldName newParent newName src dst oldDir moved rep
    (moved.kind.isDir && oldParent ≠ newParent) ts

omit hE in
lemma wp_renameLocked (hfail : τ.Fails E γ) {src : Dirent} {dst : Option Dirent}
    {R : Bool → Γ → Prop} (hagain : ∀ b γ', τ.Saw γ γ' → R b γ')
    (hrest : ∀ fuel (oldDir newDir moved : Inode) (ts : Timespec) γ', τ.Saw γ γ' →
      τ.Movable v oldParent oldName newParent newName src dst oldDir newDir moved γ' →
      wp τ.ghost (fun _ => R false) E (renameRest fuel v creds oldParent oldName newParent newName
        src dst oldDir newDir moved ts) γ') (fuel : Nat) :
    wp τ.ghost R E (renameLocked fuel v creds oldParent oldName newParent newName src dst) γ := by
  refine wp_seq (see_direntOf hfail v oldParent oldName fun src2 γ₁ h₁ hsrc => ?_)
  refine wp_seq (see_direntOf (hfail.mono h₁) v newParent newName fun dst2 γ₂ h₂ hdst => ?_)
  have h₁₂ := h₁.trans h₂
  refine wp_if (fun _ => hagain _ γ₂ h₁₂) fun hids => ?_
  rw [not_or, not_ne_iff, not_ne_iff] at hids
  refine wp_if (fun _ => hagain _ γ₂ h₁₂) fun hother => ?_
  refine wp_if (fun _ => hagain _ γ₂ h₁₂) fun hapart => ?_
  refine wp_seq (see_loadDir (hfail.mono h₁₂) oldParent fun oldDir γ₃ h₃ hold hoknow => ?_)
  have h₁₃ := h₁₂.trans h₃
  refine wp_seq (wp_ofExcept (hfail.mono h₁₃).here fun _ _ => ?_)
  -- what follows once everything is known
  have hlast : ∀ newDir moved γ', τ.Saw γ₃ γ' → newDir.kind.isDir = true →
      τ.Knows γ' (.inode newParent) (some newDir) → (oldParent = newParent → newDir = oldDir) →
      τ.Knows γ' (.inode src.childIno) (some moved) →
      ((moved.kind.isDir && oldParent ≠ newParent) = true → τ.Climbed γ' src.childIno newParent) →
      wp τ.ghost R E (do
        let ts ← now
        let rep ← replaceTarget v creds newParent newName newDir moved ts dst
        renameCommit fuel v oldParent oldName newParent newName src dst oldDir moved rep
          (moved.kind.isDir && oldParent ≠ newParent) ts
        pure false) γ' := by
    intro newDir moved γ' h' hnew hnknow hsame hmoved hwalk
    refine wp_seq (see_now fun ts γ'' h'' => ?_)
    have h := h'.trans h''
    have hmore := hrest fuel oldDir newDir moved ts γ'' (h₁₃.trans h)
      ⟨⟨src2, ((hsrc.mono h₂).mono h₃).mono h, hids.1⟩, ⟨dst2, (hdst.mono h₃).mono h, hids.2⟩,
        hother, hapart, hold, hnew, hoknow.mono h, hnknow.mono h'', hsame, hmoved.mono h'',
        fun hc => (hwalk hc).mono h''⟩
    unfold renameRest at hmore
    rw [wp_bind] at hmore
    refine wp_seq (wp_conseq hmore ?_ (fun _ _ h => h))
    intro rep γ' h
    exact wp_seq (wp_conseq h (fun _ _ h => h) (fun _ _ h => h))
  -- what follows once the destination directory is known
  have hnew : ∀ newDir γ₄, τ.Saw γ₃ γ₄ → newDir.kind.isDir = true →
      τ.Knows γ₄ (.inode newParent) (some newDir) → (oldParent = newParent → newDir = oldDir) →
      wp τ.ghost R E (do
        let moved ← mapErr .io (loadInode src.childIno)
        ofExcept (checkSticky creds oldDir moved)
        let crossing := moved.kind.isDir && oldParent ≠ newParent
        if crossing then ofExcept (access creds moved ACCESS_W) else pure ()
        if crossing then ancestorWalk src.childIno fuel newParent else pure ()
        let ts ← now
        let rep ← replaceTarget v creds newParent newName newDir moved ts dst
        renameCommit fuel v oldParent oldName newParent newName src dst oldDir moved rep crossing ts
        pure false) γ₄ := by
    intro newDir γ₄ h₄ hkind hnknow hsame
    refine wp_seq (see_loadMapped (hfail.mono (h₁₃.trans h₄)) .io _ fun moved γ₅ h₅ hmoved => ?_)
    have h₄₅ := h₄.trans h₅
    have hfail₅ := hfail.mono (h₁₃.trans h₄₅)
    refine wp_seq (wp_ofExcept hfail₅.here fun _ _ => ?_)
    simp only [wp_ite, wp_bind, wp_pure]
    have hmore : ∀ γ₆, τ.Saw γ₅ γ₆ → _ → _ := fun γ₆ h₆ =>
      hlast newDir moved γ₆ (h₄₅.trans h₆) hkind ((hnknow.mono h₅).mono h₆) hsame (hmoved.mono h₆)
    simp only [wp_bind, wp_pure] at hmore
    exact ⟨fun hc => wp_ofExcept hfail₅.here fun _ _ =>
        ⟨fun _ => wp_ancestorWalk hfail₅ _ _ _ fun γ₆ h₆ hw => hmore γ₆ h₆ fun _ => hw,
          fun hn => absurd hc hn⟩,
      fun hn => ⟨fun hc => absurd hc hn, fun _ => hmore γ₅ .refl fun hc => absurd hc hn⟩⟩
  refine (wp_ite ..).mpr ⟨fun he => ?_, fun hne => ?_⟩
  · subst he
    exact hnew oldDir γ₃ .refl hold hoknow fun _ => rfl
  refine wp_seq (see_loadDir (hfail.mono h₁₃) newParent fun d γ₄ h₄ hkind hd => ?_)
  exact wp_seq (wp_ofExcept (hfail.mono (h₁₃.trans h₄)).here fun _ _ =>
    hnew d γ₄ h₄ hkind hd fun he => absurd he hne)

lemma wp_renameLoop (hdone : Q () γ)
    (hrest : ∀ src dst fuel (oldDir newDir moved : Inode) (ts : Timespec),
      τ.Under (renameLocks oldParent newParent src dst) γ
        (τ.Movable v oldParent oldName newParent newName src dst oldDir newDir moved)
        (fun _ => Q ()) E (renameRest fuel v creds oldParent oldName newParent newName src dst
          oldDir newDir moved ts)) (fuel : Nat) :
    wp τ.ghost Q E (renameLoop v creds oldParent oldName newParent newName fuel) γ := by
  induction fuel with
  | zero => exact wp_stuck.mpr trivial
  | succ fuel ih =>
    rw [renameLoop, wp_bind]
    refine wp_direntOf hE v oldParent oldName fun o => ?_
    cases o with
    | none => exact hE.fails _
    | some src =>
      refine wp_seq (wp_direntOf hE v newParent newName fun dst => ?_)
      rw [wp_bind]
      show wp _ _ _ (withGuards (renameLocks oldParent newParent src dst) _) _
      refine wp_locked hE fun E' hE' hfail => ?_
      -- a round that returned true changed nothing
      refine wp_conseq (wp_renameLocked (R := fun again γ' =>
        (again = true → τ.Saw (τ.acqAll (renameLocks oldParent newParent src dst) γ) γ') ∧
        (again = false → Q () (τ.relAll (renameLocks oldParent newParent src dst) γ')))
        hfail ?_ ?_ fuel) ?_ (fun _ _ h => h)
      · exact fun b γ' h => ⟨fun _ => h, fun _ => by rwa [hE.back _ _ h]⟩
      · subst hE'
        intro fuel oldDir newDir moved ts γ' h hmov
        refine wp_conseq (hrest src dst fuel oldDir newDir moved ts γ' h hmov) ?_
          (fun _ _ h => h)
        exact fun _ _ h => ⟨nofun, fun _ => h⟩
      · intro again γ' h
        refine wp_if (fun ha => ?_) fun ha => h.2 (Bool.eq_false_of_not_eq_true ha)
        rw [hE.back _ _ (h.1 ha)]
        exact ih

/-- Rename holds its own lock beside the stripes. -/
lemma wp_rename (hq : τ.Quiet (τ.acqAll [.rename] γ)) (hdone : Q () γ)
    (hrest : ∀ src dst fuel (oldDir newDir moved : Inode) (ts : Timespec),
      τ.Under (renameLocks oldParent newParent src dst) (τ.acqAll [.rename] γ)
        (τ.Movable v oldParent oldName newParent newName src dst oldDir newDir moved)
        (fun _ γ' => Q () (τ.relAll [.rename] γ')) (fun e γ' => E e (τ.relAll [.rename] γ'))
        (renameRest fuel v creds oldParent oldName newParent newName src dst oldDir newDir
          moved ts)) (fuel : Nat) :
    wp τ.ghost Q E (rename fuel v creds oldParent oldName newParent newName) γ := by
  refine wp_seq (wp_ofExcept hE.fails fun _ _ => ?_)
  refine wp_seq (wp_ofExcept hE.fails fun _ _ => wp_locked hE fun E' hE' hfail => ?_)
  subst hE'
  refine wp_renameLoop ⟨hq, hfail.here⟩ ?_ hrest fuel
  rwa [hE.back _ _ .refl]

end Rename

end Failing

end Track

end SlateFs
