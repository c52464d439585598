import SlateFs.Seq.Txn

/-!
# The reaper

`reap_orphan_data` deletes a dead inode's chunks in batches of 1024, then its
attributes, link target and marker in one last batch. Whatever it does is a
sequence of deletions of that inode's records (`Reaps`), and when it is through
none of them is left (`Db.purge`).
-/

namespace SlateFs

open OrdMap FsM

/-- Every record of a dead inode is gone. -/
def Db.purge (db : Db) (ino : Ino) : Db :=
  { db with
    chunks := db.chunks.filter (fun k => (ofLex k).1 ≠ ino)
    xattrs := db.xattrs.filter (fun k => (ofLex k).1 ≠ ino)
    symlinks := db.symlinks.erase ino
    orphans := db.orphans.erase ino }

/-! ## What deletions leave alone -/

variable {ino : Ino} {db db' : Db} {Q : Unit → Db → Prop}

lemma Reap1.inodes (h : Reap1 ino db db') : db'.inodes = db.inodes := by
  cases h <;> rfl

lemma Reap1.dirents (h : Reap1 ino db db') : db'.dirents = db.dirents := by
  cases h <;> rfl

lemma Reaps.inodes (h : Reaps ino db db') : db'.inodes = db.inodes := by
  induction h with
  | refl => rfl
  | tail _ h ih => rw [h.inodes, ih]

/-- Deleting the records of a node that is gone is a sequence of transactions. -/
lemma Reaps.txns {v : Volume} {G : Guard} (h : Reaps ino db db')
    (hgone : db.inodes.get? ino = none) : Txns v G db db' := by
  induction h with
  | refl => exact .refl
  | @tail b c hab hbc ih => exact ih.tail (.reap (by rw [Reaps.inodes hab]; exact hgone) hbc)

/-! ## Batches of deletions -/

/-- A batch of like writes is a chain of steps if each write is one. -/
lemma chain_apply {α : Type} {R : Db → Db → Prop} {f : α → Write}
    (h : ∀ db a, R db (db.apply [f a])) :
    ∀ (as : List α) (db : Db), Relation.ReflTransGen R db (db.apply (as.map f))
  | [], _ => .refl
  | a :: as, db => .head (h db a) (chain_apply h as _)

/-! ## Deleting all of one node's records -/

lemma filter_eq_of_chunksFrom (h : db.chunksFrom ino 0 = []) :
    db.chunks.filter (fun k => (ofLex k).1 ≠ ino) = db.chunks := by
  refine filter_eq_self ?_
  intro k c hk
  have h' := scan_eq_nil.mp (List.map_eq_nil_iff.mp h) k
  by_contra hne
  rw [h' (by simpa using hne)] at hk
  cases hk

/-- Dropping every key a scan of one node found leaves the node none. -/
lemma eraseAll_owner {β γ : Type} [LinearOrder β] {m : OrdMap (Ino ×ₗ β) γ} {kvs : List (β × γ)}
    (h : kvs.map (fun kv => toLex (ino, kv.1)) =
      (m.scan (fun k => (ofLex k).1 = ino)).map Prod.fst) :
    m.eraseAll ((kvs.map Prod.fst).map fun b => toLex (ino, b)) =
      m.filter (fun k => (ofLex k).1 ≠ ino) := by
  rw [List.map_map, show ((fun b => toLex (ino, b)) ∘ Prod.fst) = fun kv : β × γ =>
    toLex (ino, kv.1) from rfl, h, eraseAll_scan]
  congr 1
  funext k
  simp

lemma deleteChunks_all (db : Db) (ino : Ino) :
    db.apply (deleteChunks ino ((db.chunksFrom ino 0).map Prod.fst)) =
      { db with chunks := db.chunks.filter (fun k => (ofLex k).1 ≠ ino) } := by
  have hscan := map_scan_owner db.chunks ino (fun _ => true)
  rw [apply_deleteChunks, eraseAll_owner (by simpa [Db.chunksFrom] using hscan)]

lemma deleteXattrs_all (db : Db) (ino : Ino) :
    db.apply (deleteXattrs ino ((db.xattrsOf ino).map Prod.fst)) =
      { db with xattrs := db.xattrs.filter (fun k => (ofLex k).1 ≠ ino) } := by
  have hscan := map_scan_owner db.xattrs ino (fun _ => true)
  rw [apply_deleteXattrs, eraseAll_owner (by simpa [Db.xattrsOf] using hscan)]

/-! ## The reaper -/

variable {M : Oracle} {T : Db → Db → Prop} {E : Abort → Db → Prop} {db : Db} {ino : Ino}

lemma deleteChunks_eq (ino : Ino) (kvs : List (Nat × Bytes)) :
    kvs.map (fun kv => Write.delete (.chunk ino kv.1)) = deleteChunks ino (kvs.map Prod.fst) := by
  simp [deleteChunks]

lemma reapBatch_eq (db : Db) (ino : Ino) : reapBatch ino (db.xattrsOf ino) =
    deleteXattrs ino ((db.xattrsOf ino).map Prod.fst)
      ++ [.delete (.symlink ino), .delete (.orphan ino)] := by
  simp [reapBatch, deleteXattrs]

lemma get?_filter_owner {β γ : Type} [LinearOrder β] (m : OrdMap (Ino ×ₗ β) γ) (ino : Ino)
    (b : β) : (m.filter (fun k => (ofLex k).1 ≠ ino)).get? (toLex (ino, b)) = none := by
  rw [get?_filter]
  simp

lemma reaps_reapBatch (hc : ∀ i, db.chunks.get? (toLex (ino, i)) = none) :
    Reaps ino db (db.apply (reapBatch ino (db.xattrsOf ino))) := by
  rw [reapBatch_eq, Db.apply_append]
  refine ((chain_apply (fun _ => .xattr) _ db).tail .symlink).tail (.marker ?_)
  rw [deleteXattrs_all]
  exact ⟨hc, fun x => get?_filter_owner .., get?_erase_self ..⟩

lemma wp_reapChunks (fuel : Nat)
    (hT : ∀ db₁ db₂, Reaps ino db db₁ → Reaps ino db₁ db₂ → T db₁ db₂)
    (hQ : Reaps ino db { db with chunks := db.chunks.filter (fun k => (ofLex k).1 ≠ ino) } →
      Q () { db with chunks := db.chunks.filter (fun k => (ofLex k).1 ≠ ino) }) :
    wp (M.steps T) Q E (reapChunks ino fuel) db := by
  induction fuel generalizing db with
  | zero => trivial
  | succ fuel ih =>
    simp only [reapChunks, wp_bind, wp_scanChunks, wp_ite, wp_pure, wp_commit, deleteChunks_eq]
    refine ⟨?_, ?_⟩
    · intro h0
      have hnil : db.chunksFrom ino 0 = [] := by
        cases hk : db.chunksFrom ino 0 with
        | nil => rfl
        | cons a as => rw [hk] at h0; simp [REAP_BATCH] at h0
      rw [filter_eq_of_chunksFrom hnil] at hQ
      exact hQ .refl
    · intro _
      have hstep : Reaps ino db (db.apply (deleteChunks ino
        (((db.chunksFrom ino 0).take REAP_BATCH).map Prod.fst))) :=
      chain_apply (fun _ => .chunk) _ db
      refine ⟨Or.inr (hT _ _ .refl hstep), ?_, ?_⟩
      · intro hlt
        -- a short batch was the whole scan
        have htake : (db.chunksFrom ino 0).take REAP_BATCH = db.chunksFrom ino 0 := by
          rw [List.length_take] at hlt
          exact List.take_of_length_le (by omega)
        rw [htake, deleteChunks_all] at hstep ⊢
        exact hQ hstep
      · intro _
        refine ih (fun db₁ db₂ h₁ h₂ => hT db₁ db₂ (hstep.trans h₁) h₂) ?_
        rw [apply_deleteChunks, filter_eraseAll]
        · intro hr
          refine hQ ?_
          rw [apply_deleteChunks] at hstep
          exact hstep.trans hr
        · intro k hk
          obtain ⟨i, _, rfl⟩ := List.mem_map.mp hk
          simp

/-- **The reaper.** Along the way only records of the dead inode go; at the end all are gone. -/
theorem wp_reapOrphanData (fuel : Nat)
    (hT : ∀ db₁ db₂, Reaps ino db db₁ → Reaps ino db₁ db₂ → T db₁ db₂) (hQ : Q () (db.purge ino)) :
    wp (M.steps T) Q E (reapOrphanData fuel ino) db := by
  simp only [reapOrphanData, wp_bind, wp_scanXattrs, wp_commit]
  refine wp_reapChunks fuel hT ?_
  intro hr
  refine ⟨Or.inr (hT _ _ hr (reaps_reapBatch (fun i => get?_filter_owner ..))), ?_⟩
  rw [reapBatch_eq, Db.apply_append, deleteXattrs_all]
  exact hQ

end SlateFs
