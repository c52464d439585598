import SlateFs.Seq.Reap

/-!
# What a transaction does to one node

Seen from a single inode number, a transaction leaves the record alone, rewrites
it, gives a file another size, or makes the record come or go. Invariants about
one field of the records follow from this list.
-/

namespace SlateFs

variable {v : Volume} {G : Guard} {db db' : Db} {x : Ino}

/-- The record under number `x` after a transaction. -/
inductive NodeChange (v : Volume) (G : Guard) (db db' : Db) (x : Ino) : Option Inode → Prop where
  | same : NodeChange v G db db' x (db.inodes.get? x)
  | rewritten {i i' : Inode} (hi : db.inodes.get? x = some i) (hkind : i'.kind = i.kind)
      (hsize : i'.size = i.size) : NodeChange v G db db' x (some i')
  /-- Bytes were written to the file. -/
  | written {i i' : Inode} {offset : Nat} {data : Bytes} (hi : db.inodes.get? x = some i)
      (hfile : i.kind = .file) (hkind : i'.kind = i.kind)
      (hmax : offset + data.length ≤ v.chunkSize * (2 ^ 32 - 1))
      (hsize : i'.size = max i.size (offset + data.length)) : NodeChange v G db db' x (some i')
  /-- The file was given a size. -/
  | resized {i i' : Inode} (hi : db.inodes.get? x = some i) (hfile : i.kind = .file)
      (hkind : i'.kind = i.kind)
      (hG : G.truncate db x i i'.size) : NodeChange v G db db' x (some i')
  | born {p : Ino} {child : Inode} (hnew : Unused db x) (hfresh : G.fresh x)
      (hchild : NewNode p child) : NodeChange v G db db' x (some child)
  /-- The node went and left a marker, or it was a directory. -/
  | gone {i : Inode} (hi : db.inodes.get? x = some i)
      (hleft : (db'.orphans.get? x).isSome ∨ i.kind = .dir ∧
        ((∀ n, db.xattrs.get? (toLex (x, n)) = none) ∨ G.strand db x)) :
      NodeChange v G db db' x none

variable {y : Ino} {i i' : Inode} {m : OrdMap Ino Inode}

lemma NodeChange.rewrite (hx : x = y) (hi : db.inodes.get? y = some i) (hkind : i'.kind = i.kind)
    (hsize : i'.size = i.size) : NodeChange v G db db' x (some i') :=
  .rewritten (hx ▸ hi) hkind hsize

lemma NodeChange.alike (hx : x = y) (hi : db.inodes.get? y = some i) (h : i'.Alike i) :
    NodeChange v G db db' x (some i') :=
  .rewrite hx hi h.kind h.size

/-- A node rewritten by an insertion; elsewhere nothing changes. -/
lemma NodeChange.insert (h : x = y → NodeChange v G db db' x (some i'))
    (hm : x ≠ y → NodeChange v G db db' x (m.get? x)) :
    NodeChange v G db db' x ((m.insert y i').get? x) := by
  rw [OrdMap.get?_insert]
  split
  · exact h ‹_›
  · exact hm ‹_›

lemma NodeChange.erase (hi : db.inodes.get? y = some i)
    (hleft : (db'.orphans.get? y).isSome ∨ i.kind = .dir ∧
      ((∀ n, db.xattrs.get? (toLex (y, n)) = none) ∨ G.strand db y))
    (hm : x ≠ y → NodeChange v G db db' x (m.get? x)) :
    NodeChange v G db db' x ((m.erase y).get? x) := by
  rw [OrdMap.get?_erase]
  split
  · rename_i hxy
    subst hxy
    exact .gone hi hleft
  · exact hm ‹_›

/-- **Every transaction, from one node's point of view.** -/
theorem Txn.node (ht : Txn v G db db') (x : Ino) : NodeChange v G db db' x (db'.inodes.get? x) := by
  cases ht with
  | lease n => exact .same
  | touch hi h => exact .insert (fun hx => .alike hx hi h) (fun _ => .same)
  | setXattr name value hi => exact .same
  | dropXattr ino name => exact .same
  | @insertNode p parent name c child target ts hparent hdir hfree hnew hfresh hchild _ _ _ =>
    rw [apply_insertNodeBatch]
    refine .insert (fun hx => ?_) (fun _ => .insert (fun hx => ?_) (fun _ => .same))
    · unfold parentWithChild
      split <;> exact .rewrite hx hparent rfl rfl
    · exact .born (hx ▸ hnew) (hx ▸ hfresh) hchild
  | link ts hi hkind hdir hisDir hfree hroom hi' hG _ =>
    refine .insert (fun hx => ?_) (fun _ => .insert (fun hx => ?_) (fun _ => .same))
    · exact .rewrite hx hdir rfl rfl
    · exact .rewrite hx hi hi'.kind hi'.size
  | unlinkKeep hn hkind hdir' hlast hchild' =>
    refine .insert (fun hx => ?_) (fun _ => .insert (fun hx => ?_) (fun _ => .same))
    · exact .rewrite hx hn.hchild hchild'.kind hchild'.size
    · exact .alike hx hn.hdir hdir'
  | unlinkOpen ts hn hkind hdir' hlast =>
    refine .insert (fun hx => ?_) (fun _ => .insert (fun hx => ?_) (fun _ => .same))
    · exact .rewrite hx hn.hchild rfl rfl
    · exact .alike hx hn.hdir hdir'
  | unlinkGone hn hkind hdir' hlast =>
    rw [apply_unlinkGone]
    refine .erase hn.hchild (.inl ?_) (fun _ => .insert (fun hx => ?_) (fun _ => .same))
    · rw [OrdMap.get?_insert_self]; rfl
    · exact .alike hx hn.hdir hdir'
  | rmdir hn hkind hempty hdir' hxattr =>
    refine .insert (fun hx => ?_)
      (fun _ => .erase hn.hchild (.inr ⟨hkind, hxattr⟩) (fun _ => .same))
    exact .rewrite hx hn.hdir hdir'.kind hdir'.size
  | @move p q oldName newName src oldDir newDir moved crossing ts hsrc hnew hnewDir hfree hcross
      hwalk hsub _ =>
      -- the new directory is written last
      rw [apply_renameBatch, Db.apply_nil, get?_inodesAfterMove]
      split
      · exact .rewrite ‹x = q› hnew rfl rfl
      split
      · exact .rewrite ‹x = p› hsrc.hdir rfl rfl
      split
      · exact .rewrite ‹x = src.childIno› hsrc.hchild rfl rfl
      · exact .same
  | @write ino i i' offset data hi hkind hdata hmax hi' hG =>
    rw [apply_writeBatch]
    refine .insert (fun hx => ?_) (fun _ => .same)
    exact .written (hx ▸ hi) hkind hi'.kind hmax hi'.size
  | @truncate ino i i' newSize hi hkind hne hcs hi' hG =>
    rw [apply_truncateBatch]
    refine .insert (fun hx => ?_) (fun _ => .same)
    exact .resized (hx ▸ hi) hkind hi'.kind (by rw [hi'.size, hx]; exact hG)
  | spill hi hidx => exact .same
  | finish hi hmark =>
    exact .erase hi (.inl hmark) (fun _ => .same)
  | reap hgone hr =>
    rw [hr.inodes]
    exact .same

/-- Numbers in use keep their kind while the record is there. -/
lemma NodeChange.kind (h : NodeChange v G db db' x (some i')) (hi : db.inodes.get? x = some i) :
    i'.kind = i.kind := by
  generalize ho : some i' = o at h
  cases h with
  | same => rw [hi] at ho; rw [Option.some.inj ho]
  | rewritten hj hkind _ | written hj _ hkind _ _ | resized hj _ hkind _ =>
    rw [hi] at hj
    rw [Option.some.inj ho, hkind, Option.some.inj hj]
  | born hnew _ _ => rw [hnew.inode] at hi; cases hi
  | gone _ _ => cases ho

end SlateFs
