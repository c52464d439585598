import SlateFs.Seq.Ops

/-!
# Operations on one node

Attributes, contents, extended attributes and handles, as sequences of
transactions.
-/

namespace SlateFs

open FsM

variable {M : Oracle} {v : Volume} {G : Guard} {db : Db}

/-! ## setattr -/

variable {creds : Credentials} {o : Bool} {i i' : Inode} {ts : Timespec} {t : Option TimeSet}
  {ino : Ino} {T : Db → Db → Prop} {Q : Unit → Db → Prop} {E : Abort → Db → Prop}

lemma setMode_alike {m : Option UInt32} (h : setMode creds o i m = .ok i') : i'.Alike i := by
  unfold setMode at h
  split at h
  · cases h; exact .refl _
  split at h
  · cases h
  · cases h; exact ⟨rfl, rfl, rfl, rfl, rfl, rfl⟩

lemma setUid_alike {u : Option UInt32} (h : setUid creds o i u = .ok i') : i'.Alike i := by
  unfold setUid at h
  split at h
  · cases h; exact .refl _
  split at h
  · cases h; exact ⟨rfl, rfl, rfl, rfl, rfl, rfl⟩
  · cases h

lemma setGid_alike {g : Option UInt32} (h : setGid creds o i g = .ok i') : i'.Alike i := by
  unfold setGid at h
  split at h
  · cases h; exact .refl _
  split at h
  · cases h
  · cases h; exact ⟨rfl, rfl, rfl, rfl, rfl, rfl⟩

lemma setAtime_alike (h : setAtime creds o i ts t = .ok i') : i'.Alike i := by
  unfold setAtime at h
  split at h
  · cases h; exact .refl _
  cases hx : timeSlot creds o i ts ‹_› with
  | error e => rw [hx] at h; cases h
  | ok t => rw [hx] at h; cases h; exact ⟨rfl, rfl, rfl, rfl, rfl, rfl⟩

lemma setMtime_alike (h : setMtime creds o i ts t = .ok i') : i'.Alike i := by
  unfold setMtime at h
  split at h
  · cases h; exact .refl _
  cases hx : timeSlot creds o i ts ‹_› with
  | error e => rw [hx] at h; cases h
  | ok t => rw [hx] at h; cases h; exact ⟨rfl, rfl, rfl, rfl, rfl, rfl⟩

lemma bind_ok {ε α β : Type} {x : Except ε α} {f : α → Except ε β} {b : β}
    (h : (x >>= f) = .ok b) : ∃ a, x = .ok a ∧ f a = .ok b := by
  cases x with
  | error e => cases h
  | ok a => exact ⟨a, rfl, h⟩

/-- The permission gates of setattr never touch size, links or kind. -/
lemma applyAttrs_alike {a : SetAttrs} (h : applyAttrs creds i ts a = .ok i') : i'.Alike i := by
  obtain ⟨i₁, h₁, h⟩ := bind_ok h
  obtain ⟨i₂, h₂, h⟩ := bind_ok h
  obtain ⟨i₃, h₃, h⟩ := bind_ok h
  obtain ⟨i₄, h₄, h⟩ := bind_ok h
  exact (setMtime_alike h).trans ((setAtime_alike h₄).trans ((setGid_alike h₃).trans
    ((setUid_alike h₂).trans (setMode_alike h₁))))

/-- A truncate deletes only chunks that start at or beyond the new size. -/
lemma truncatePlanOf_deletes {cs : Nat} {db : Db} {oldSize newSize idx : Nat}
    (h : idx ∈ (truncatePlanOf cs db ino oldSize newSize).deletes) : newSize ≤ idx * cs := by
  have hfold : ∀ (kvs : List (Nat × Bytes)) (plan : TruncatePlan),
      (∀ i ∈ plan.deletes, newSize ≤ i * cs) →
      ∀ i ∈ (kvs.foldl (truncateChunk cs oldSize newSize) plan).deletes, newSize ≤ i * cs := by
    intro kvs
    induction kvs with
    | nil => exact fun plan h => h
    | cons kv rest ih =>
      intro plan hp
      refine ih _ ?_
      intro i hi
      simp only [truncateChunk] at hi
      split at hi
      · rename_i hge
        rcases List.mem_append.mp hi with hi | hi
        · exact hp i hi
        · rw [List.mem_singleton.mp hi]; exact hge
      · split at hi <;> exact hp i hi
  unfold truncatePlanOf at h
  split at h
  · cases h
  · exact hfold _ ⟨none, [], 0⟩ (fun i hi => by cases hi) idx h

lemma flatten_groupsOf {β : Type} (n : Nat) : ∀ (k : Nat) (xs : List β), xs.length ≤ k → 0 < n →
    (groupsOf n k xs).flatten = xs
  | 0, xs, h, _ => by rw [List.length_eq_zero_iff.mp (Nat.le_zero.mp h)]; rfl
  | _ + 1, [], _, _ => rfl
  | k + 1, x :: xs, h, hn => by
    rw [groupsOf, List.flatten_cons, flatten_groupsOf n k _ ?_ hn, List.take_append_drop]
    · rw [List.length_drop, List.length_cons]
      rw [List.length_cons] at h
      omega
    · intro h; cases h

/-- Deleting chunks beyond the end of a file is a sequence of transactions. -/
lemma txns_spill (idxs : List Nat) (hi : db.inodes.get? ino = some i)
    (h : ∀ idx ∈ idxs, i.size ≤ idx * v.chunkSize) :
    Txns v G db (db.apply (deleteChunks ino idxs)) := by
  induction idxs generalizing db with
  | nil => exact .refl
  | cons idx rest ih =>
    refine .head (.spill hi (h idx List.mem_cons_self)) (ih hi ?_)
    exact fun j hj => h j (List.mem_cons_of_mem _ hj)

section Setattr

variable {T : Db → Db → Prop} {E : Abort → Db → Prop} {ino : Ino}

lemma wp_spillDeletes (groups : List (List Nat)) {Q : Unit → Db → Prop}
    (hT : ∀ g ∈ groups, ∀ db', db'.inodes = db.inodes → T db' (db'.apply (deleteChunks ino g)))
    (hQ : Q () (db.apply (deleteChunks ino groups.flatten))) :
    wp (M.steps T) Q E (spillDeletes ino groups) db := by
  induction groups generalizing db with
  | nil => exact hQ
  | cons g rest ih =>
    simp only [spillDeletes, wp_bind, wp_commit]
    rw [show g.map (fun idx => Write.delete (.chunk ino idx)) = deleteChunks ino g from rfl]
    have hinodes : (db.apply (deleteChunks ino g)).inodes = db.inodes := by
      rw [apply_deleteChunks]
    refine ⟨.inr (hT g List.mem_cons_self db rfl), ih ?_ ?_⟩
    · intro g' hg' db' hdb'
      exact hT g' (List.mem_cons_of_mem _ hg') db' (hdb'.trans hinodes)
    · rw [← Db.apply_append, deleteChunks, deleteChunks, ← List.map_append]
      exact hQ

/-- The size part of setattr leaves the node alone or plans a change of size. -/
lemma wp_resize {Q : Resized → Db → Prop} {creds : Credentials} {i : Inode} {ts : Timespec}
    {size : Option Nat} (hE : ∀ e, E e db)
    (hsame : size.getD i.size = i.size → Q ⟨i, [], 0, []⟩ db)
    (hnew : ∀ newSize plan, size = some newSize → i.kind = .file → newSize ≠ i.size →
      (newSize < i.size → v.chunkSize ≠ 0) →
      plan = truncatePlanOf v.chunkSize db ino i.size newSize →
      Q ⟨{ i with
          size := newSize
          billedBytes := billedAfter i.billedBytes plan.billedDelta
          mtime := ts }, truncateBatch ino plan, plan.billedDelta, plan.deletes.drop INLINE_DELETES⟩
        db) :
    wp (M.steps T) Q E (resize v creds ino i ts size) db := by
  cases size with
  | none => exact hsame rfl
  | some newSize =>
    unfold resize
    dsimp only
    split
    · rename_i hkind
      simp only [wp_bind, wp_ofExcept, wp_ite, wp_pure]
      refine ⟨fun _ _ => ⟨fun he => hsame he, fun hne => ?_⟩, fun _ _ => hE _⟩
      refine wp_planTruncate (fun _ => hE _) ?_
      intro hcs
      rw [wp_reserve]
      exact ⟨fun _ => hnew newSize _ rfl hkind hne hcs rfl, fun e _ => hE _⟩
    · exact hE _
    · exact hE _

lemma wp_setattrCommit {rs : Resized} {ts : Timespec} {Q : FileAttr → Db → Prop}
    (hT : T db (db.apply (rs.writes ++ [.put (.inode ino) { rs.inode with ctime := ts }])))
    (hspill : rs.spill ≠ [] → ∀ js, (∀ idx ∈ js, idx ∈ rs.spill) → ∀ db',
      db'.inodes.get? ino = some { rs.inode with ctime := ts } →
      T db' (db'.apply (deleteChunks ino js)))
    (hQ : ∀ a, Q a ((db.apply (rs.writes
      ++ [.put (.inode ino) { rs.inode with ctime := ts }])).apply (deleteChunks ino rs.spill))) :
    wp (M.steps T) Q E (setattrCommit ino rs ts) db := by
  simp only [setattrCommit, wp_bind, wp_tryCommit, wp_attrsInsert, wp_pure]
  have hflat := flatten_groupsOf 1024 rs.spill.length rs.spill (le_refl _) (by omega)
  refine ⟨.inr hT, wp_spillDeletes _ ?_ ?_⟩
  · intro g hg db' hdb'
    refine hspill ?_ g ?_ db' ?_
    · intro hnil
      rw [hnil] at hg
      cases hg
    · intro idx hidx
      rw [← hflat]
      exact List.mem_flatten.mpr ⟨g, hg, hidx⟩
    · rw [hdb', Db.apply_append]
      exact OrdMap.get?_insert_self ..
  · rw [hflat]
    exact hQ _

/-- What setattr does: some change to the node, and perhaps a change of size. -/
lemma wp_setattr (creds : Credentials) {attrs : SetAttrs} {Q : FileAttr → Db → Prop}
    (hE : ∀ e, E e db)
    (htouch : ∀ i i', db.inodes.get? ino = some i → i'.Alike i →
      T db (db.apply [.put (.inode ino) i']) ∧ ∀ a, Q a (db.apply [.put (.inode ino) i']))
    (hsize : ∀ i i' newSize, db.inodes.get? ino = some i → attrs.size = some newSize →
      i.kind = .file → newSize ≠ i.size → (newSize < i.size → v.chunkSize ≠ 0) →
      i'.Alike { i with
        size := newSize
        billedBytes := billedAfter i.billedBytes
          (truncatePlanOf v.chunkSize db ino i.size newSize).billedDelta } →
      T db (db.apply (truncateBatch ino (truncatePlanOf v.chunkSize db ino i.size newSize)
        ++ [.put (.inode ino) i']))
      ∧ (∀ js, (∀ idx ∈ js, idx ∈ (truncatePlanOf v.chunkSize db ino i.size newSize).deletes) →
        ∀ db', db'.inodes.get? ino = some i' → T db' (db'.apply (deleteChunks ino js)))
      ∧ ∀ a, Q a ((db.apply (truncateBatch ino (truncatePlanOf v.chunkSize db ino i.size newSize)
        ++ [.put (.inode ino) i'])).apply (deleteChunks ino
          ((truncatePlanOf v.chunkSize db ino i.size newSize).deletes.drop INLINE_DELETES)))) :
    wp (M.steps T) Q E (setattr v creds ino attrs) db := by
  simp only [setattr, wp_bind, wp_withGuards, wp_loadInode, wp_now, wp_ofExcept]
  refine ⟨fun i hi ts => ⟨?_, fun _ _ => hE _⟩, fun _ => hE _⟩
  intro i₀ hi₀
  have hal := applyAttrs_alike hi₀
  refine wp_resize hE ?_ ?_
  · intro _
    have hct : Inode.Alike { i₀ with ctime := ts } i :=
      ⟨hal.kind, hal.nlink, hal.size, hal.nextDirentId, hal.billedBytes, hal.parentDir⟩
    obtain ⟨hT, hQ⟩ := htouch i _ hi hct
    exact wp_setattrCommit hT (fun h => absurd rfl h) hQ
  · rintro newSize plan hs hkind hne hcs rfl
    rw [hal.size] at hne hcs ⊢
    obtain ⟨hT, hsp, hQ⟩ := hsize i
      { i₀ with
        size := newSize
        billedBytes := billedAfter i₀.billedBytes
          (truncatePlanOf v.chunkSize db ino i.size newSize).billedDelta
        mtime := ts
        ctime := ts } newSize hi hs (hal.kind ▸ hkind) hne hcs
      ⟨hal.kind, hal.nlink, rfl, hal.nextDirentId, by rw [← hal.billedBytes], hal.parentDir⟩
    exact wp_setattrCommit hT (fun _ js hjs => hsp js (fun idx hidx =>
      List.mem_of_mem_drop (hjs idx hidx))) hQ

end Setattr

lemma setattr_keeps (creds : Credentials) {ino : Ino} {attrs : SetAttrs}
    (hG : ∀ i size, db.inodes.get? ino = some i → attrs.size = some size →
      G.truncate db ino i size) :
    Keeps v G M (setattr v creds ino attrs) db := by
  refine wp_setattr creds (fun _ => trivial) ?_ ?_
  · intro i i' hi hal
    exact ⟨.single (.touch hi hal), fun _ => trivial⟩
  intro i i' newSize hi hs hkind hne hcs hal
  refine ⟨.single (.truncate hi hkind hne hcs hal (hG i newSize hi hs)), ?_, fun _ => trivial⟩
  intro js hjs db' hdb'
  refine txns_spill js hdb' ?_
  intro idx hidx
  rw [hal.size]
  exact truncatePlanOf_deletes (hjs idx hidx)

/-! ## write -/

lemma write_keeps (creds : Credentials) {offset : Nat} {data : Bytes}
    (hG : ∀ i, db.inodes.get? ino = some i → G.write db ino i offset data) :
    Keeps v G M (write v creds ino offset data) db := by
  simp only [write, wp_bind, wp_ite, wp_pure, wp_fail, wp_withGuards, wp_loadInode, wp_ofExcept]
  refine ⟨fun _ => trivial, fun hdata => ⟨fun _ => trivial, fun _ => ⟨fun _ => trivial,
    fun hmax => ⟨?_, fun _ => trivial⟩⟩⟩⟩
  intro i hi
  refine ⟨fun _ => ⟨fun _ => trivial, fun _ => trivial⟩, fun hkind => ⟨fun _ _ => ?_,
    fun _ _ => trivial⟩⟩
  refine wp_planWrite (fun _ => trivial) (fun _ => ?_)
  simp only [wp_reserve, wp_now, wp_tryCommit, wp_bind, wp_attrsInsert, wp_pure]
  refine ⟨fun _ ts => ⟨.inr (.single ?_), trivial⟩, fun _ _ => trivial⟩
  refine .write hi (by simpa using hkind) hdata (by omega) ?_ (hG i hi)
  unfold inodeAfterWrite
  dsimp only
  split <;> exact ⟨rfl, rfl, rfl, rfl, rfl, rfl⟩

/-! ## Extended attributes -/

lemma alike_of_retimed (h : (M.track T).Retimed ino i db) :
    ∃ i₀, db.inodes.get? ino = some i₀ ∧ i.Alike i₀ := by
  obtain ⟨i₀, ts, hi, rfl | rfl⟩ := h
  · exact ⟨i₀, Track.get_of_knows hi, rfl, rfl, rfl, rfl, rfl, rfl⟩
  · exact ⟨i₀, Track.get_of_knows hi, rfl, rfl, rfl, rfl, rfl, rfl⟩

/-- A change to an attribute, and to the time of its node. -/
lemma retimed_keeps {w : Write} (hw : ∀ i, db.inodes.get? ino = some i →
      Txn v G db (db.apply [w]) ∧ (db.apply [w]).inodes = db.inodes)
    (h : (M.track T).Retimed ino i db) :
    Keeps v G M (do commit [w, .put (.inode ino) i]; attrsInsert ino i) db := by
  obtain ⟨i₀, hi, halike⟩ := alike_of_retimed h
  obtain ⟨ht, hsame⟩ := hw i₀ hi
  simp only [wp_bind, wp_commit, wp_attrsInsert]
  exact ⟨.inr (.head ht (.single (.touch (hsame ▸ hi) halike))), trivial⟩

/-! ## read -/

/-- The time of a read may be recorded, which touches the node. -/
lemma wp_maybeUpdateAtime {z : Prop} {policy : AtimeMode} (hsame : Q () db)
    (htouch : ∀ i i', db.inodes.get? ino = some i → i'.Alike i →
      T db (db.put (.inode ino) i') ∧ Q () (db.put (.inode ino) i')) :
    wp (M.watch T z) Q E (maybeUpdateAtime ino i policy) db := by
  simp only [maybeUpdateAtime, wp_bind, wp_now, wp_ite, wp_withGuards, wp_tryGet, wp_pure]
  refine fun ts => ⟨fun _ => ?_, fun _ => hsame⟩
  split
  · rename_i current hcur
    simp only [wp_ite, wp_bind, wp_tryCommit, wp_attrsInsert, wp_pure]
    refine ⟨fun _ => ?_, fun _ => hsame⟩
    obtain ⟨hT, hQ⟩ := htouch current { current with atime := ts } (Except.ok.inj hcur)
      ⟨rfl, rfl, rfl, rfl, rfl, rfl⟩
    exact ⟨.inr hT, hQ⟩
  · exact hsame

/-! ## Handles -/

lemma finishOrphan_keeps (fuel : Nat) (hmark : (db.orphans.get? ino).isSome) :
    Keeps v G M (finishOrphan fuel ino) db := by
  simp only [finishOrphan, wp_bind, wp_dbGet]
  split
  · rename_i i hi
    simp only [wp_bind, wp_commit, wp_reserve, wp_attrsRemove]
    refine ⟨.inr (.single (.finish hi hmark)), fun _ => ?_, fun _ _ => trivial⟩
    exact wp_reap_keeps fuel (OrdMap.get?_erase_self ..) trivial
  · rename_i hi
    simp only [wp_bind, wp_attrsRemove]
    exact wp_reap_keeps fuel hi trivial

lemma closeFile_keeps (fuel handle : Nat) : Keeps v G M (closeFile fuel handle) db := by
  simp only [closeFile, wp_bind, wp_handlesClose]
  intro r
  cases r with
  | none => trivial
  | some r =>
    simp only [wp_bind, wp_unlockOwner, wp_ite, wp_dbGet, wp_pure]
    refine ⟨fun _ => ?_, fun _ => trivial⟩
    split
    · rename_i o ho
      rw [wp_withGuards]
      refine finishOrphan_keeps fuel ?_
      rw [show db.orphans.get? r.1 = some o from ho]; rfl
    · trivial

end SlateFs
