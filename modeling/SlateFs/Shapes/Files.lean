import SlateFs.Shapes.Names

/-!
# The shape of the operations on files

The operations on attributes, contents and handles, reduced to the part that changes
something, and the ones that change nothing at all.
-/

namespace SlateFs

namespace Track

open FsM (wp wp_seq wp_if)

variable {Γ : Type} {τ : Track Γ} {γ : Γ} {E : Abort → Γ → Prop} {v : Volume}
  {creds : Credentials} {fuel : Nat} {ino : Ino}

/-! ## Plans -/

section Plans

variable (hE : τ.Fails E γ)
include hE

lemma see_planTruncate (cs oldSize newSize : Nat) {Q : TruncatePlan → Γ → Prop}
    (hQ : ∀ plan γ', τ.Saw γ γ' → Q plan γ') :
    wp τ.ghost Q E (planTruncate cs ino oldSize newSize) γ := by
  refine wp_if (fun _ => hQ _ γ .refl) fun _ => ?_
  refine wp_seq (wp_chunkOf hE.here _ _ fun first => ?_)
  exact wp_seq (see_scanChunks hE _ _ fun kvs γ' h => hQ _ γ' h)

lemma see_planWriteChunks (cs oldSize newSize offset : Nat) (data : Bytes)
    (idxs : List Nat) {Q : List (Nat × Bytes) × Int64 → Γ → Prop}
    (hQ : ∀ r γ', τ.Saw γ γ' → Q r γ') :
    wp τ.ghost Q E (planWriteChunks cs ino oldSize newSize offset data idxs) γ := by
  induction idxs generalizing Q γ with
  | nil => exact hQ _ γ .refl
  | cons idx rest ih =>
    have hrest : ∀ old γ', τ.Saw γ γ' → wp τ.ghost Q E (do
        let buf := writtenChunk cs offset data idx old
        let delta := Int64.ofNat (billedChunkBytes newSize (idx * cs) buf.length)
          - Int64.ofNat (oldBilled oldSize (idx * cs) old)
        let plan ← planWriteChunks cs ino oldSize newSize offset data rest
        pure ((idx, buf) :: plan.1, delta + plan.2)) γ' := by
      intro old γ' h
      exact wp_seq (ih (hE.mono h) fun _ γ'' h' => hQ _ γ'' (h.trans h'))
    refine (FsM.wp_ite ..).mpr ⟨fun _ => hrest none γ .refl, fun _ => ?_⟩
    exact wp_seq (see_dbGet hE _ fun old γ' h _ => hrest old γ' h)

lemma see_planWrite (cs oldSize offset : Nat) (data : Bytes) {Q : WritePlan → Γ → Prop}
    (hQ : ∀ plan γ', τ.Saw γ γ' → Q plan γ') :
    wp τ.ghost Q E (planWrite cs ino oldSize offset data) γ := by
  refine wp_seq (wp_chunkOf hE.here _ _ fun first => ?_)
  refine wp_seq (wp_chunkOf hE.here _ _ fun last => ?_)
  exact wp_seq (see_planWriteChunks hE _ _ _ _ _ _ fun r γ' h => hQ _ γ' h)

end Plans

section Failing

variable (hE : τ.AtRest E γ)
include hE

/-! ## Attributes and contents -/

/-- What the size part of setattr leaves when it changed the size. -/
def resized (ino : Ino) (i : Inode) (plan : TruncatePlan) : Resized :=
  ⟨i, truncateBatch ino plan, plan.billedDelta, plan.deletes.drop INLINE_DELETES⟩

omit hE in
lemma wp_resize (hfail : τ.Fails E γ) {i : Inode} {ts : Timespec} {Q : Resized → Γ → Prop}
    (hplain : Q ⟨i, [], 0, []⟩ γ)
    (hsize : ∀ (newSize : Nat) (plan : TruncatePlan) γ', τ.Saw γ γ' →
      wp τ.ghost (fun _ => Q (resized ino { i with
          size := newSize
          billedBytes := billedAfter i.billedBytes plan.billedDelta
          mtime := ts } plan)) E (reserve plan.billedDelta 0) γ') (size : Option Nat) :
    wp τ.ghost Q E (resize v creds ino i ts size) γ := by
  cases size with
  | none => exact hplain
  | some newSize =>
    simp only [resize]
    split
    · refine wp_seq (wp_ofExcept hfail.here fun _ _ => ?_)
      refine wp_if (fun _ => hplain) fun _ => ?_
      refine wp_seq (see_planTruncate hfail _ _ _ fun plan γ' h => ?_)
      exact wp_seq (hsize newSize plan γ' h)
    · exact hfail.here _
    · exact hfail.here _

/-- What is known when attributes are about to be written. -/
def Attributed (τ : Track Γ) (ino : Ino) (i : Inode) (ts : Timespec) (γ : Γ) : Prop :=
  ∃ creds attrs i₀, τ.Knows γ (.inode ino) (some i₀) ∧ applyAttrs creds i₀ ts attrs = .ok i

lemma wp_setattr {attrs : SetAttrs} {Q : FileAttr → Γ → Prop}
    (hplain : ∀ (i : Inode) (ts : Timespec), τ.Under (writeMany [ino]) γ
      (τ.Attributed ino i ts) Q E (setattrCommit ino ⟨i, [], 0, []⟩ ts))
    (hsize : ∀ (i : Inode) (newSize : Nat) (plan : TruncatePlan) (ts : Timespec),
      τ.Under (writeMany [ino]) γ (τ.Attributed ino i ts) Q E (do
        reserve plan.billedDelta 0
        setattrCommit ino (resized ino { i with
          size := newSize
          billedBytes := billedAfter i.billedBytes plan.billedDelta
          mtime := ts } plan) ts)) :
    wp τ.ghost Q E (setattr v creds ino attrs) γ := by
  refine wp_locked hE fun E' hE' hfail => ?_
  refine wp_seq (see_loadInode hfail ino fun i₀ γ₁ h₁ hi₀ => ?_)
  refine wp_seq (see_now fun ts γ₂ h₂ => ?_)
  have h₁₂ := h₁.trans h₂
  refine wp_seq (wp_ofExcept (hfail.mono h₁₂).here fun i hi => ?_)
  have hknown : τ.Attributed ino i ts γ₂ := ⟨creds, attrs, i₀, hi₀.mono h₂, hi⟩
  refine wp_seq (wp_resize (hfail.mono h₁₂) (hE' ▸ hplain i ts γ₂ h₁₂ hknown) ?_ attrs.size)
  intro newSize plan γ₃ h₃
  have := hsize i newSize plan ts γ₃ (h₁₂.trans h₃) ⟨creds, attrs, i₀, (hi₀.mono h₂).mono h₃, hi⟩
  rw [FsM.wp_bind, ← hE'] at this
  exact this

lemma wp_write {offset : Nat} {data : Bytes} {Q : Nat → Γ → Prop} (hnone : Q 0 γ)
    (hrest : ∀ (i : Inode) (plan : WritePlan), τ.Under (writeMany [ino]) γ
      (fun γ' => τ.Knows γ' (.inode ino) (some i) ∧ i.kind = .file) Q E (do
          reserve plan.billedDelta 0
          let ts ← now
          let i' := inodeAfterWrite creds i plan ts
          match ← tryCommit (writeBatch ino i' plan) with
          | .error _ =>
            releaseQuota plan.billedDelta 0
            FsM.fail .io
          | .ok _ =>
            attrsInsert ino i'
            pure data.length)) :
    wp τ.ghost Q E (write v creds ino offset data) γ := by
  refine wp_if (fun _ => hnone) fun _ => ?_
  refine wp_if (fun _ => hE.fails _) fun _ => ?_
  refine wp_if (fun _ => hE.fails _) fun _ => wp_locked hE fun E' hE' hfail => ?_
  refine wp_seq (see_loadInode hfail ino fun i γ₁ h₁ hi => ?_)
  have hfail₁ := hfail.mono h₁
  rw [FsM.wp_ite]
  refine ⟨fun _ => (FsM.wp_ite ..).mpr ⟨fun _ => hfail₁.here _, fun _ => hfail₁.here _⟩,
    fun hfile => ?_⟩
  refine wp_seq (wp_ofExcept hfail₁.here fun _ _ => ?_)
  refine wp_seq (see_planWrite hfail₁ _ _ _ _ fun plan γ₂ h₂ => ?_)
  subst hE'
  exact hrest i plan γ₂ (h₁.trans h₂) ⟨hi.mono h₂, not_ne_iff.mp hfile⟩

/-- What is known when only a time of a node is about to change. -/
def Retimed (τ : Track Γ) (ino : Ino) (i : Inode) (γ : Γ) : Prop :=
  ∃ i₀ ts, τ.Knows γ (.inode ino) (some i₀) ∧
    (i = { i₀ with ctime := ts } ∨ i = { i₀ with atime := ts })

/-- Both ways to change an extended attribute end in one rewrite of the node. -/
lemma wp_setxattr {name value : Bytes} {Q : Unit → Γ → Prop}
    (hrest : ∀ (i : Inode), τ.Under (writeMany [ino]) γ (τ.Retimed ino i) Q E (do
      commit [.put (.xattr ino name) value, .put (.inode ino) i]
      attrsInsert ino i)) :
    wp τ.ghost Q E (setxattr creds ino name value) γ := by
  refine wp_if (fun _ => hE.fails _) fun _ => ?_
  refine wp_seq (wp_checkNotOver hE (wp_locked hE fun E' hE' hfail => ?_))
  refine wp_seq (see_loadInode hfail ino fun i γ₁ h₁ hi => ?_)
  refine wp_seq (wp_ofExcept (hfail.mono h₁).here fun _ _ => ?_)
  refine wp_seq (see_now fun ts γ₂ h₂ => ?_)
  subst hE'
  exact hrest _ γ₂ (h₁.trans h₂) ⟨i, ts, hi.mono h₂, .inl rfl⟩

lemma wp_removexattr {name : Bytes} {Q : Unit → Γ → Prop}
    (hrest : ∀ (i : Inode), τ.Under (writeMany [ino]) γ (τ.Retimed ino i) Q E (do
      commit [.delete (.xattr ino name), .put (.inode ino) i]
      attrsInsert ino i)) :
    wp τ.ghost Q E (removexattr creds ino name) γ := by
  refine wp_if (fun _ => hE.fails _) fun _ => wp_locked hE fun E' hE' hfail => ?_
  refine wp_seq (see_loadInode hfail ino fun i γ₁ h₁ hi => ?_)
  refine wp_seq (wp_ofExcept (hfail.mono h₁).here fun _ _ => ?_)
  refine wp_seq (see_dbGet (hfail.mono h₁) _ fun o γ₂ h₂ _ => ?_)
  cases o with
  | none => exact (hfail.mono (h₁.trans h₂)).here _
  | some _ =>
    refine wp_seq (see_now fun ts γ₃ h₃ => ?_)
    subst hE'
    exact hrest _ γ₃ ((h₁.trans h₂).trans h₃) ⟨i, ts, (hi.mono h₂).mono h₃, .inl rfl⟩

/-! ## Reading -/

section Readers

section

variable (hfill : ∀ ino i, τ.Passes γ (.attrsInsert ino i))
include hfill

/-- Reading a node through the cache; a miss fills it. -/
lemma wp_loadInodeCached (ino : Ino) {Q : Inode → Γ → Prop} (hQ : ∀ i, Q i γ) :
    wp τ.ghost Q E (loadInodeCached ino) γ := by
  refine wp_seq (wp_attrsGet hE.toQuiet ino fun o => ?_)
  cases o with
  | some i => exact hQ i
  | none =>
    refine wp_seq (wp_loadInode hE ino fun i _ => ?_)
    exact wp_seq (wp_passes (hfill ino i) fun _ _ => hQ i)

lemma wp_loadDirCached (ino : Ino) {Q : Inode → Γ → Prop} (hQ : ∀ i, Q i γ) :
    wp τ.ghost Q E (loadDirCached ino) γ := by
  refine wp_seq (wp_loadInodeCached hE hfill ino fun i => ?_)
  exact wp_if (fun _ => hQ i) fun _ => hE.fails _

lemma wp_lookup {parent : Ino} {name : Bytes} {Q : FileAttr → Γ → Prop}
    (hneg : τ.Passes γ (.insertNegative parent name)) (hQ : ∀ a, Q a γ) :
    wp τ.ghost Q E (lookup v creds parent name) γ := by
  refine wp_seq (wp_loadDirCached hE hfill parent fun dir => ?_)
  refine wp_seq (wp_ofExcept hE.fails fun _ _ => ?_)
  refine wp_if (fun _ => hQ _) fun _ => ?_
  refine wp_if (fun _ => ?_) fun _ => ?_
  · exact wp_seq (wp_loadInodeCached hE hfill _ fun _ => hQ _)
  refine wp_seq (wp_ofExcept hE.fails fun _ _ => ?_)
  refine wp_seq (wp_isNegative hE.toQuiet parent name fun b => ?_)
  refine wp_if (fun _ => hE.fails _) fun _ => ?_
  refine wp_seq (wp_direntOf hE v parent name fun o => ?_)
  cases o with
  | some d =>
    refine wp_seq (wp_mapErr hE .notFound
      (wp_loadInodeCached (E := fun _ γ' => γ' = γ) ⟨hE.toQuiet, fun _ => rfl⟩ hfill _ fun _ => ?_))
    exact hQ _
  | none =>
    exact wp_seq (wp_passes hneg fun _ _ => hE.fails _)

variable {Q : Bytes → Γ → Prop} {ino : Ino} {exclusive : Bool}

lemma wp_getattr {Q : FileAttr → Γ → Prop} (hQ : ∀ a, Q a γ) :
    wp τ.ghost Q E (getattr ino) γ := by
  exact wp_seq (wp_loadInodeCached hE hfill ino fun _ => hQ _)

lemma wp_readdir {parent : Ino} {cookie maxEntries : Nat} {Q : List DirEntry × Bool → Γ → Prop}
    (hQ : ∀ a, Q a γ) : wp τ.ghost Q E (readdir v creds parent cookie maxEntries) γ := by
  refine wp_seq (wp_loadDirCached hE hfill parent fun dir => ?_)
  refine wp_seq (wp_ofExcept hE.fails fun _ _ => ?_)
  refine wp_seq (wp_scanDirentIdxs hE _ _ fun kvs => ?_)
  exact wp_seq (wp_ofExcept hE.fails fun _ _ => hQ _)

end

lemma wp_readRange (cs : Nat) (ino : Ino) (size offset len : Nat) (hQ : ∀ b, Q b γ) :
    wp τ.ghost Q E (readRange cs ino size offset len) γ := by
  refine wp_if (fun _ => hQ _) fun _ => ?_
  refine wp_seq (wp_chunkOf hE.fails _ _ fun first => ?_)
  refine wp_seq (wp_chunkOf hE.fails _ _ fun last => ?_)
  refine wp_if (fun _ => ?_) fun _ => ?_
  · exact wp_seq (wp_dbGet hE _ fun _ _ => hQ _)
  · exact wp_seq (wp_snapshot hE fun _ => hQ _)

/-- A read; what it may change is the access time. -/
lemma wp_read {offset len : Nat} {policy : AtimeMode}
    (hfill : ∀ ino i, τ.Passes γ (.attrsInsert ino i)) (hQ : ∀ b, Q b γ)
    (hatime : ∀ b (i : Inode), τ.Under (writeMany [ino]) γ (τ.Retimed ino i) (fun _ => Q b) E (do
      match ← tryCommit [.put (.inode ino) i] with
      | .ok _ => attrsInsert ino i
      | .error _ => pure ())) :
    wp τ.ghost Q E (readWithAtimePolicy v creds ino offset len policy) γ := by
  refine wp_seq (wp_loadInodeCached hE hfill ino fun i => ?_)
  split
  · refine wp_seq (wp_ofExcept hE.fails fun _ _ => ?_)
    refine wp_seq (wp_readRange hE _ _ _ _ _ fun bytes => ?_)
    rw [FsM.wp_bind]
    have hlast : wp τ.ghost Q E (do maybeUpdateAtime ino i policy; pure bytes) γ := by
      unfold maybeUpdateAtime
      rw [FsM.wp_bind, FsM.wp_bind]
      refine wp_now hE.toQuiet fun ts => ?_
      refine wp_if (fun _ => ?_) fun _ => hQ _
      refine wp_locked hE fun E' hE' hfail => ?_
      subst hE'
      refine wp_seq (see rfl fun r γ₁ h₁ hr => ?_)
      have hdone : Q bytes (τ.relAll (writeMany [ino]) γ₁) := by
        rw [hE.back _ _ h₁]
        exact hQ bytes
      cases r with
      | error e => exact hdone
      | ok o =>
        cases o with
        | none => exact hdone
        | some current =>
          refine (FsM.wp_ite ..).mpr ⟨fun _ => ?_, fun _ => hdone⟩
          exact hatime bytes _ γ₁ h₁ ⟨current, ts, hr, .inr rfl⟩
    refine wp_if (fun _ => hlast) fun _ => ?_
    exact wp_seq (wp_chunkOf hE.fails _ _ fun _ => hlast)
  · exact hE.fails _
  · exact hE.fails _

lemma wp_permissions {parent : Option (Ino × Bytes)} {Q : EntryPermissions → Γ → Prop}
    (hQ : ∀ a, Q a γ) :
    wp τ.ghost Q E (permissions creds ino parent) γ := by
  refine wp_seq (wp_loadInode hE ino fun i _ => ?_)
  cases parent with
  | none => exact hQ _
  | some at_ =>
    obtain ⟨dirIno, name⟩ := at_
    refine wp_seq (wp_ofExcept hE.fails fun _ _ => ?_)
    exact wp_seq (wp_loadInode hE _ fun _ _ => hQ _)

lemma wp_readlink (hQ : ∀ a, Q a γ) : wp τ.ghost Q E (readlink ino) γ := by
  refine wp_seq (wp_loadInode hE ino fun i _ => ?_)
  refine wp_if (fun _ => hE.fails _) fun _ => ?_
  refine wp_seq (wp_dbGet hE _ fun o _ => ?_)
  cases o with
  | some target => exact hQ _
  | none => exact hE.fails _

lemma wp_getxattr {name : Bytes} (hQ : ∀ a, Q a γ) :
    wp τ.ghost Q E (getxattr creds ino name) γ := by
  refine wp_if (fun _ => hE.fails _) fun _ => ?_
  refine wp_seq (wp_loadInode hE ino fun i _ => ?_)
  refine wp_seq (wp_ofExcept hE.fails fun _ _ => ?_)
  refine wp_seq (wp_dbGet hE _ fun o _ => ?_)
  cases o with
  | some value => exact hQ _
  | none => exact hE.fails _

lemma wp_listxattr {Q : List Bytes → Γ → Prop} (hQ : ∀ a, Q a γ) :
    wp τ.ghost Q E (listxattr creds ino) γ := by
  refine wp_seq (wp_loadInode hE ino fun i _ => ?_)
  refine wp_seq (wp_ofExcept hE.fails fun _ _ => ?_)
  exact wp_seq (wp_scanXattrs hE _ fun _ => hQ _)

lemma wp_lockRange {handle start stop : Nat} {Q : Unit → Γ → Prop} (hQ : Q () γ) :
    wp τ.ghost Q E (lockRange handle start stop exclusive) γ := by
  refine wp_if (fun _ => hE.fails _) fun _ => ?_
  refine wp_seq (wp_handlesGet hE.toQuiet handle fun o => ?_)
  cases o with
  | none => exact hE.fails _
  | some at_ =>
    refine wp_reads hE.toQuiet rfl fun r _ => ?_
    cases r with
    | ok _ => exact hQ
    | error _ => exact hE.fails _

lemma wp_unlockRange {handle start stop : Nat} {Q : Unit → Γ → Prop} (hQ : Q () γ) :
    wp τ.ghost Q E (unlockRange handle start stop) γ := by
  refine wp_if (fun _ => hE.fails _) fun _ => ?_
  refine wp_seq (wp_handlesGet hE.toQuiet handle fun o => ?_)
  cases o with
  | none => exact hE.fails _
  | some at_ => exact wp_plain hE.toQuiet rfl fun _ _ => hQ

lemma wp_testLock {handle start stop : Nat} {Q : Option (Nat × Nat × Bool) → Γ → Prop}
    (hQ : ∀ a, Q a γ) :
    wp τ.ghost Q E (testLock handle start stop exclusive) γ := by
  refine wp_if (fun _ => hE.fails _) fun _ => ?_
  refine wp_seq (wp_handlesGet hE.toQuiet handle fun o => ?_)
  cases o with
  | none => exact hE.fails _
  | some at_ => exact wp_reads hE.toQuiet rfl fun r _ => hQ _

end Readers

/-! ## Handles -/

lemma wp_openFile {ino : Ino} {mode : OpenMode} {Q : Nat → Γ → Prop}
    (hopen : wp τ.ghost Q E (handlesOpen ino mode) γ) :
    wp τ.ghost Q E (openFile creds ino mode) γ := by
  refine wp_seq (wp_loadInode hE ino fun i _ => ?_)
  exact wp_seq (wp_ofExcept hE.fails fun _ _ => hopen)

lemma wp_closeFile {handle : Nat} {Q : Unit → Γ → Prop}
    (hclose : τ.Passes γ (.handlesClose handle)) (hQ : Q () γ)
    (hlast : ∀ ino, τ.Under (writeMany [ino]) γ (fun _ => True) (fun _ => Q ()) E
      (finishOrphan fuel ino)) :
    wp τ.ghost Q E (closeFile fuel handle) γ := by
  refine wp_seq (wp_passes hclose fun o _ => ?_)
  cases o with
  | none => exact hE.fails _
  | some at_ =>
    obtain ⟨ino, mode, last⟩ := at_
    refine wp_seq (wp_unlockOwner hE.toQuiet _ ?_)
    refine wp_if (fun _ => ?_) fun _ => hQ
    refine wp_seq (wp_dbGet hE _ fun o _ => ?_)
    cases o with
    | none => exact hQ
    | some _ =>
      refine wp_locked hE fun E' hE' hfail => ?_
      subst hE'
      exact hlast ino _ .refl trivial

end Failing

end Track

end SlateFs
