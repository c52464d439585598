import SlateFs.Core.Logic

/-!
# What each batch writes

One equation per kind of batch: the database it leaves, as a record. Nothing
here depends on what the operation checked before.
-/

namespace SlateFs

open OrdMap Db

variable (db : Db)

/-! ## Names -/

variable (v : Volume) (p ino : Ino) (i : Inode) (name : Bytes) (id : Nat) (dir : Inode)

lemma apply_insertNodeBatch (parent : Inode) (name : Bytes) (c : Ino) (child : Inode)
    (target : Option Bytes) (ts : Timespec) :
    db.apply (insertNodeBatch v p parent name c child target ts) =
      { db with
        inodes := (db.inodes.insert c child).insert p (parentWithChild parent child ts)
        dirents := db.dirents.insert (toLex (p, v.names.sealName p name))
          ⟨name, c, child.kind, parent.nextDirentId⟩
        direntIdxs := db.direntIdxs.insert (toLex (p, parent.nextDirentId))
          ⟨v.names.sealName p name, c, child.kind⟩
        symlinks := match target with
          | some t => db.symlinks.insert c t
          | none => db.symlinks
        quotaInodes := db.quotaInodes + 1 } := by
  cases target <;> rfl

lemma apply_linkBatch (p : Ino) (dir : Inode) (name : Bytes) (ts : Timespec) :
    db.apply (linkBatch v ino i p dir name ts) =
      { db with
        inodes := (db.inodes.insert ino i).insert p (dirWithEntry dir ts)
        dirents := db.dirents.insert (toLex (p, v.names.sealName p name))
          ⟨name, ino, i.kind, dir.nextDirentId⟩
        direntIdxs := db.direntIdxs.insert (toLex (p, dir.nextDirentId))
          ⟨v.names.sealName p name, ino, i.kind⟩ } := rfl

lemma apply_dropEntry :
    db.apply (dropEntry v p name id) =
      { db with
        dirents := db.dirents.erase (toLex (p, v.names.sealName p name))
        direntIdxs := db.direntIdxs.erase (toLex (p, id)) } := rfl

lemma apply_buryOpen (ts : Timespec) :
    db.apply (buryOpen ino i ts) =
      { db with
        inodes := db.inodes.insert ino { i with nlink := 0, ctime := ts }
        orphans := db.orphans.insert ino ⟨i.size, i.kind⟩ } := rfl

lemma apply_buryGone :
    db.apply (buryGone ino i) =
      { db with
        inodes := db.inodes.erase ino
        orphans := db.orphans.insert ino ⟨i.size, i.kind⟩
        quotaBytes := db.quotaBytes + -i.billedBytes.toInt64
        quotaInodes := db.quotaInodes + -1 } := rfl

lemma apply_finishBatch :
    db.apply (finishBatch ino i) =
      { db with
        inodes := db.inodes.erase ino
        quotaBytes := db.quotaBytes + -i.billedBytes.toInt64
        quotaInodes := db.quotaInodes + -1 } := rfl

/-! A name goes: with its node rewritten, buried while open, buried for good, or a directory. -/

lemma apply_unlinkKeep (c : Ino) (child : Inode) :
    db.apply (dropEntry v p name id ++ [.put (.inode p) dir, .put (.inode c) child]) =
      { db with
        inodes := (db.inodes.insert p dir).insert c child
        dirents := db.dirents.erase (toLex (p, v.names.sealName p name))
        direntIdxs := db.direntIdxs.erase (toLex (p, id)) } := rfl

lemma apply_unlinkOpen (c : Ino) (child : Inode) (ts : Timespec) :
    db.apply (dropEntry v p name id ++ [.put (.inode p) dir] ++ buryOpen c child ts) =
      { db with
        inodes := (db.inodes.insert p dir).insert c { child with nlink := 0, ctime := ts }
        dirents := db.dirents.erase (toLex (p, v.names.sealName p name))
        direntIdxs := db.direntIdxs.erase (toLex (p, id))
        orphans := db.orphans.insert c ⟨child.size, child.kind⟩ } := rfl

lemma apply_unlinkGone (c : Ino) (child : Inode) :
    db.apply (dropEntry v p name id ++ [.put (.inode p) dir] ++ buryGone c child) =
      { db with
        inodes := (db.inodes.insert p dir).erase c
        dirents := db.dirents.erase (toLex (p, v.names.sealName p name))
        direntIdxs := db.direntIdxs.erase (toLex (p, id))
        orphans := db.orphans.insert c ⟨child.size, child.kind⟩
        quotaBytes := db.quotaBytes + -child.billedBytes.toInt64
        quotaInodes := db.quotaInodes + -1 } := by
  rfl

lemma apply_dropDir (c : Ino) :
    db.apply (dropEntry v p name id
      ++ [.delete (.inode c), .put (.inode p) dir, .mergeInodes (-1)]) =
      { db with
        inodes := (db.inodes.erase c).insert p dir
        dirents := db.dirents.erase (toLex (p, v.names.sealName p name))
        direntIdxs := db.direntIdxs.erase (toLex (p, id))
        quotaInodes := db.quotaInodes + -1 } := by
  rw [apply_append, apply_dropEntry]
  simp only [apply_cons, apply_nil, applyWrite, put, delete]

/-- The node records after a move. -/
def inodesAfterMove (m : OrdMap Ino Inode) (oldParent newParent : Ino) (src : Dirent)
    (oldDir newDir moved : Inode) (crossing : Bool) (ts : Timespec) : OrdMap Ino Inode :=
  let m := m.insert src.childIno (movedNode moved crossing newParent ts)
  let m := if oldParent = newParent then m
    else m.insert oldParent (oldDirAfter oldDir crossing ts)
  m.insert newParent (newDirAfter newDir crossing ts)

lemma get?_inodesAfterMove (m : OrdMap Ino Inode) (p q : Ino) (src : Dirent)
    (oldDir newDir moved : Inode) (crossing : Bool) (ts : Timespec) (x : Ino) :
    (inodesAfterMove m p q src oldDir newDir moved crossing ts).get? x =
      if x = q then some (newDirAfter newDir crossing ts)
      else if x = p then some (oldDirAfter oldDir crossing ts)
      else if x = src.childIno then some (movedNode moved crossing q ts)
      else m.get? x := by
  unfold inodesAfterMove
  simp only [get?_insert]
  by_cases hq : x = q
  · simp only [hq, if_true]
  by_cases hpq : p = q
  · simp only [hpq, hq, if_true, if_false, get?_insert]
  · simp only [hpq, hq, if_false, get?_insert]

lemma apply_renameBatch (oldParent : Ino) (oldName : Bytes) (newParent : Ino) (newName : Bytes)
    (src : Dirent) (oldDir moved : Inode) (rep : Replaced) (crossing : Bool) (ts : Timespec) :
    db.apply (renameBatch v oldParent oldName newParent newName src oldDir moved rep crossing ts) =
      { db.apply rep.writes with
        inodes := inodesAfterMove (db.apply rep.writes).inodes oldParent newParent src oldDir
          rep.newDir moved crossing ts
        dirents := ((db.apply rep.writes).dirents.erase
            (toLex (oldParent, v.names.sealName oldParent oldName))).insert
          (toLex (newParent, v.names.sealName newParent newName))
          ⟨newName, src.childIno, moved.kind, rep.newDir.nextDirentId⟩
        direntIdxs := ((db.apply rep.writes).direntIdxs.erase
            (toLex (oldParent, src.direntId))).insert
          (toLex (newParent, rep.newDir.nextDirentId))
          ⟨v.names.sealName newParent newName, src.childIno, moved.kind⟩ } := by
  unfold renameBatch inodesAfterMove
  simp only [apply_append]
  split <;> rfl

/-! ## Chunks and attributes -/

/-- The batch that deletes some of a node's chunks. -/
def deleteChunks (ino : Ino) (idxs : List Nat) : Batch :=
  idxs.map (fun idx => .delete (.chunk ino idx))

/-- The batch that deletes some of a node's attributes. -/
def deleteXattrs (ino : Ino) (names : List Bytes) : Batch :=
  names.map (fun n => .delete (.xattr ino n))

lemma apply_deleteChunks (idxs : List Nat) :
    db.apply (deleteChunks ino idxs) =
      { db with chunks := db.chunks.eraseAll (idxs.map (fun i => toLex (ino, i))) } := by
  induction idxs generalizing db with
  | nil => rfl
  | cons idx rest ih => exact ih (db.delete (.chunk ino idx))

lemma apply_deleteXattrs (names : List Bytes) :
    db.apply (deleteXattrs ino names) =
      { db with xattrs := db.xattrs.eraseAll (names.map (fun n => toLex (ino, n))) } := by
  induction names generalizing db with
  | nil => rfl
  | cons n rest ih => exact ih (db.delete (.xattr ino n))

lemma apply_putChunks (puts : List (Nat × Bytes)) :
    db.apply (puts.map (fun p => .put (.chunk ino p.1) p.2)) =
      { db with chunks := db.chunks.insertAll (puts.map (fun p => (toLex (ino, p.1), p.2))) } := by
  induction puts generalizing db with
  | nil => rfl
  | cons p rest ih => exact ih (db.put (.chunk ino p.1) p.2)

/-- Merging a delta is skipped when it is zero, which changes nothing. -/
lemma apply_mergeBytes (delta : Int64) :
    db.apply (if delta ≠ 0 then [.mergeBytes delta] else []) =
      { db with quotaBytes := db.quotaBytes + delta } := by
  by_cases h : delta = 0
  · simp [h]
  · rw [if_pos h]; rfl

lemma apply_writeBatch (plan : WritePlan) :
    db.apply (writeBatch ino i plan) =
      { db with
        inodes := db.inodes.insert ino i
        chunks := db.chunks.insertAll (plan.puts.map (fun p => (toLex (ino, p.1), p.2)))
        quotaBytes := db.quotaBytes + plan.billedDelta } := by
  unfold writeBatch
  rw [apply_append, apply_append, apply_putChunks, apply_mergeBytes]
  rfl

/-- The chunk a truncate trims, as a binding. -/
def tailBinding (ino : Ino) : Option (Nat × Bytes) → List ((Ino ×ₗ Nat) × Bytes)
  | some (idx, bytes) => [(toLex (ino, idx), bytes)]
  | none => []

lemma apply_truncateBatch (plan : TruncatePlan) (i : Inode) :
    db.apply (truncateBatch ino plan ++ [.put (.inode ino) i]) =
      { db with
        inodes := db.inodes.insert ino i
        chunks := (db.chunks.insertAll (tailBinding ino plan.tailPut)).eraseAll
          ((plan.deletes.take INLINE_DELETES).map (fun idx => toLex (ino, idx)))
        quotaBytes := db.quotaBytes + plan.billedDelta } := by
  have htail : db.apply (tailWrite ino plan.tailPut) =
      { db with chunks := db.chunks.insertAll (tailBinding ino plan.tailPut) } := by
    cases plan.tailPut <;> rfl
  have hdel : ∀ db : Db,
      db.apply ((plan.deletes.take INLINE_DELETES).map (fun idx => .delete (.chunk ino idx))) =
      { db with
        chunks := db.chunks.eraseAll
          ((plan.deletes.take INLINE_DELETES).map (fun idx => toLex (ino, idx))) } :=
    fun db => apply_deleteChunks db ino _
  unfold truncateBatch
  rw [apply_append, apply_append, apply_append, htail, hdel, apply_mergeBytes]
  rfl

lemma apply_rmdirBatch (name : Bytes) (d : Dirent) (xattrs : List (Bytes × Bytes))
    (ts : Timespec) :
    db.apply (rmdirBatch v p dir name d xattrs ts) =
      (db.apply (deleteXattrs d.childIno (xattrs.map Prod.fst))).apply
        (dropEntry v p name d.direntId ++ [.delete (.inode d.childIno),
          .put (.inode p) { dir.touchMtime ts with nlink := dir.nlink - 1 },
          .mergeInodes (-1)]) := by
  have hx : xattrs.map (fun kv => Write.delete (.xattr d.childIno kv.1)) =
      deleteXattrs d.childIno (xattrs.map Prod.fst) := by simp [deleteXattrs]
  unfold rmdirBatch
  rw [hx]
  simp only [apply_append, apply_deleteXattrs, apply_dropEntry, apply_cons, apply_nil,
    applyWrite, put, delete]

/-! ## Scans of one node's records -/

/-- Scanning for one first component and dropping it loses nothing. -/
lemma map_scan_owner {β γ : Type} [LinearOrder β] (m : OrdMap (Ino ×ₗ β) γ) (ino : Ino)
    (q : β → Bool) :
    ((m.scan (fun k => (ofLex k).1 = ino ∧ q (ofLex k).2)).map
        (fun e => ((ofLex e.1).2, e.2))).map (fun kv => toLex (ino, kv.1)) =
      (m.scan (fun k => (ofLex k).1 = ino ∧ q (ofLex k).2)).map Prod.fst := by
  rw [List.map_map]
  refine List.map_congr_left ?_
  rintro ⟨k, x⟩ hx
  have hk := (mem_scan.mp hx).2
  simp only [Bool.decide_and, Bool.and_eq_true, decide_eq_true_eq] at hk
  exact congrArg toLex (Prod.ext hk.1.symm rfl)

lemma mem_chunksFrom {db : Db} {ino first idx : Nat} {c : Bytes} :
    (idx, c) ∈ db.chunksFrom ino first ↔
      db.chunks.get? (toLex (ino, idx)) = some c ∧ first ≤ idx := by
  unfold chunksFrom
  rw [List.mem_map]
  constructor
  · rintro ⟨⟨k, x⟩, he, hkx⟩
    obtain ⟨hget, hp⟩ := mem_scan.mp he
    simp only [Prod.mk.injEq] at hkx
    obtain ⟨h1, h2⟩ : (ofLex k).1 = ino ∧ first ≤ (ofLex k).2 := by simpa using hp
    have hk : k = toLex (ino, idx) := congrArg toLex (Prod.ext h1 hkx.1)
    rw [← hk, ← hkx.2, ← hkx.1]
    exact ⟨hget, h2⟩
  · rintro ⟨hget, hle⟩
    exact ⟨(toLex (ino, idx), c), mem_scan.mpr ⟨hget, by simpa using hle⟩, rfl⟩

lemma nodup_chunksFrom (db : Db) (ino : Ino) (first : Nat) :
    ((db.chunksFrom ino first).map Prod.fst).Nodup := by
  have hscan := map_scan_owner db.chunks ino (fun i => decide (first ≤ i))
  have hnodup : ((db.chunks.scan (fun k => (ofLex k).1 = ino ∧ first ≤ (ofLex k).2)).map
      Prod.fst).Nodup := db.chunks.nodup_keys.sublist (List.filter_sublist.map _)
  refine List.Nodup.of_map (fun i => toLex (ino, i)) ?_
  rw [List.map_map]
  simp only [decide_eq_true_eq] at hscan
  rw [← hscan] at hnodup
  exact hnodup

end SlateFs
