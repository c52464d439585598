import SlateFs.Shapes.Files

/-!
# All operations

What a track asks of the filesystem, one field for each way to change something, and
that every operation is then as asked.
-/

namespace SlateFs

namespace Track

open FsM (wp)

variable {Γ : Type} {τ : Track Γ} {γ : Γ} {v : Volume}

/--
What a track asks of the filesystem: from `γ`, where nothing is under way, the part of
each operation that changes something ends in `Q`, or in `E` when it fails.
-/
structure Serves (τ : Track Γ) (v : Volume) (γ : Γ) (Q E : Γ → Prop) : Prop where
  quiet : τ.Quiet γ
  /-- Nor is anything remembered under the rename guard alone. -/
  quietRename : τ.Quiet (τ.acqAll [.rename] γ)
  ended : Q γ
  failed : E γ
  /-- Readers fill the caches. -/
  fill : ∀ ino i, τ.Passes γ (.attrsInsert ino i)
  miss : ∀ parent name, τ.Passes γ (.insertNegative parent name)
  opens : ∀ ino mode, τ.Passes γ (.handlesOpen ino mode)
  closes : ∀ handle, τ.Passes γ (.handlesClose handle)
  make : ∀ parent dir name mk target, τ.Under (writeMany [parent]) γ
    (τ.Vacant v parent name dir) (fun _ => Q) (fun _ => E) (makeNode v parent dir name mk target)
  link : ∀ ino newParent newName i₀ i dir ts, τ.Under (writeMany [ino, newParent]) γ
    (τ.Linkable v ino newParent newName i₀ i dir ts) (fun _ => Q) (fun _ => E) (do
      commit (linkBatch v ino i newParent dir newName ts)
      attrsInsert ino i
      attrsInsert newParent (dirWithEntry dir ts)
      removeNegative newParent newName)
  unlink : ∀ fuel parent name dir child d ts, τ.Under (writeMany [parent, d.childIno]) γ
    (fun γ' => τ.Named v parent name dir d child γ' ∧ child.kind.isDir = false)
    (fun _ => Q) (fun _ => E) (do
      let b ← dropLink d.childIno child ts
      unlinkCommit fuel v parent (dir.touchMtime ts) name d b)
  rmdir : ∀ parent name dir child d xattrs ts, τ.Under (writeMany [parent, d.childIno]) γ
    (τ.Removable v parent name dir d child xattrs) (fun _ => Q) (fun _ => E) (do
      commit (rmdirBatch v parent dir name d xattrs ts)
      attrsInsert parent { dir.touchMtime ts with nlink := dir.nlink - 1 }
      attrsRemove d.childIno
      insertNegative parent name
      reserveQuiet 0 (-1))
  /-- Rename holds its own lock beside the stripes. -/
  rename : ∀ fuel creds oldParent oldName newParent newName src dst oldDir newDir moved ts,
    τ.Under (renameLocks oldParent newParent src dst) (τ.acqAll [.rename] γ)
      (τ.Movable v oldParent oldName newParent newName src dst oldDir newDir moved)
      (fun _ γ' => Q (τ.relAll [.rename] γ')) (fun _ γ' => E (τ.relAll [.rename] γ'))
      (renameRest fuel v creds oldParent oldName newParent newName src dst oldDir newDir moved ts)
  setattr : ∀ ino i ts, τ.Under (writeMany [ino]) γ (τ.Attributed ino i ts)
    (fun _ => Q) (fun _ => E) (setattrCommit ino ⟨i, [], 0, []⟩ ts)
  resize : ∀ ino (i : Inode) newSize plan ts, τ.Under (writeMany [ino]) γ (τ.Attributed ino i ts)
    (fun _ => Q) (fun _ => E) (do
      reserve plan.billedDelta 0
      setattrCommit ino (resized ino { i with
        size := newSize
        billedBytes := billedAfter i.billedBytes plan.billedDelta
        mtime := ts } plan) ts)
  write : ∀ creds ino (i : Inode) plan, τ.Under (writeMany [ino]) γ
    (fun γ' => τ.Knows γ' (.inode ino) (some i) ∧ i.kind = .file) (fun _ => Q) (fun _ => E) (do
      reserve plan.billedDelta 0
      let ts ← now
      match ← tryCommit (writeBatch ino (inodeAfterWrite creds i plan ts) plan) with
      | .error _ =>
        releaseQuota plan.billedDelta 0
        FsM.fail .io
      | .ok _ => attrsInsert ino (inodeAfterWrite creds i plan ts))
  /-- A change to one extended attribute and to its node. -/
  xattr : ∀ ino w i, (∃ name, (∃ value, w = .put (.xattr ino name) value) ∨
      w = .delete (.xattr ino name)) → τ.Under (writeMany [ino]) γ (τ.Retimed ino i)
    (fun _ => Q) (fun _ => E) (do
      commit [w, .put (.inode ino) i]
      attrsInsert ino i)
  atime : ∀ ino i, τ.Under (writeMany [ino]) γ (τ.Retimed ino i) (fun _ => Q) (fun _ => E) (do
    match ← tryCommit [.put (.inode ino) i] with
    | .ok _ => attrsInsert ino i
    | .error _ => pure ())
  finish : ∀ fuel ino, τ.Under (writeMany [ino]) γ (fun _ => True) (fun _ => Q) (fun _ => E)
    (finishOrphan fuel ino)

namespace Serves

variable {Q E : Γ → Prop} (h : τ.Serves v γ Q E)
include h

/-- **Whatever the operation, its end is as asked.** -/
theorem op (fuel : Nat) (creds : Credentials) (op : Op) :
    wp τ.ghost (fun _ => Q) (fun _ => E) (op.prog v fuel creds) γ := by
  have hE : τ.AtRest (fun _ => E) γ := ⟨h.quiet, fun _ => h.failed⟩
  have hmake : ∀ parent name, τ.Makes γ v parent name (fun _ => Q) (fun _ => E) :=
    fun parent name dir mk target => h.make parent dir name mk target
  cases op <;> rw [Op.prog, FsM.wp_map]
  case lookup => exact wp_lookup hE h.fill (h.miss _ _) fun _ => h.ended
  case getattr => exact wp_getattr hE h.fill fun _ => h.ended
  case permissions => exact wp_permissions hE fun _ => h.ended
  case setattr =>
    exact wp_setattr hE (fun i ts => h.setattr _ i ts) fun i size plan ts =>
      h.resize _ i size plan ts
  case read => exact wp_read hE h.fill (fun _ => h.ended) fun _ i => h.atime _ i
  case create => exact wp_create hE (fun _ => h.ended) (hmake _ _)
  case mkdir => exact wp_mkdir hE (hmake _ _)
  case mknod => exact wp_mknod hE (hmake _ _)
  case symlink => exact wp_symlink hE (hmake _ _)
  case readlink => exact wp_readlink hE fun _ => h.ended
  case readdir => exact wp_readdir hE h.fill fun _ => h.ended
  case getxattr => exact wp_getxattr hE fun _ => h.ended
  case listxattr => exact wp_listxattr hE fun _ => h.ended
  case setxattr ino name value =>
    exact wp_setxattr hE fun i => h.xattr ino _ i ⟨name, .inl ⟨value, rfl⟩⟩
  case removexattr ino name => exact wp_removexattr hE fun i => h.xattr ino _ i ⟨name, .inr rfl⟩
  case statfs => exact wp_reads h.quiet rfl fun _ _ => h.ended
  case fsync => exact wp_flush hE h.ended
  case openFile => exact wp_openFile hE (wp_passes (h.opens _ _) fun _ _ => h.ended)
  case closeFile => exact wp_closeFile hE (h.closes _) h.ended fun ino => h.finish _ ino
  case lockRange => exact wp_lockRange hE h.ended
  case unlockRange => exact wp_unlockRange hE h.ended
  case testLock => exact wp_testLock hE fun _ => h.ended
  case link ino newParent newName =>
    refine wp_link hE fun i₀ i dir ts γ' hs hk => ?_
    have := h.link ino newParent newName i₀ i dir ts γ' hs hk
    simp only [FsM.wp_bind] at this ⊢
    exact this
  case unlink parent name =>
    exact wp_unlink hE (fun fuel dir child d ts => h.unlink fuel parent name dir child d ts) fuel
  case rmdir parent name =>
    exact wp_rmdir hE (fun dir child d xattrs ts => h.rmdir parent name dir child d xattrs ts) fuel
  case rename p n q m =>
    exact wp_rename hE h.quietRename h.ended
      (fun src dst fuel oldDir newDir moved ts =>
        h.rename fuel creds p n q m src dst oldDir newDir moved ts) fuel
  case write ino offset data =>
    refine wp_write hE h.ended fun i plan γ' hs hk => ?_
    have := h.write creds ino i plan γ' hs hk
    simp only [FsM.wp_bind] at this ⊢
    refine FsM.wp_conseq this ?_ (fun _ _ h => h)
    intro _ γ₁ h₁
    refine FsM.wp_conseq h₁ ?_ (fun _ _ h => h)
    intro ts γ₂ h₂
    refine FsM.wp_conseq h₂ ?_ (fun _ _ h => h)
    intro r γ₃ h₃
    cases r with
    | error e => exact h₃
    | ok _ => rw [FsM.wp_bind]; exact FsM.wp_conseq h₃ (fun _ _ h => h) (fun _ _ h => h)

end Serves

end Track

end SlateFs
