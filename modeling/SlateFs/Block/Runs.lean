import Mathlib.Algebra.Order.BigOperators.Group.Finset
import Mathlib.Logic.Relation
import SlateFs.Block.Trim

/-!
# Runs of a block volume

Calls made one at a time on a block volume, with crashes: a crash keeps what was
committed and the volume is opened again. In every such run the device behaves as a
flat array of bytes that starts all zero, and its books are kept after every batch.
-/

namespace SlateFs

open FsM BlockVolume Oracle

variable {g : BlockVolume} {limits : QuotaLimits} {s s' : St} {env : Env} {db db' : Db}
  {off len : Nat} {data : Bytes}

/-! ## Running on the database alone -/

lemma exceedsLimit_none (usage : Int64) (now : Nat) : exceedsLimit usage {} now = false := rfl

lemma reserve_limited {q : QuotaTracker} (h : q.limits = limits) (b i : Int64) (now : Nat) :
    (limited limits).reserve b i (q.reserve b i now).1 := by
  unfold QuotaTracker.reserve
  dsimp only
  split
  · rename_i hb
    refine .inr ⟨rfl, .inl ⟨hb.1, fun he => ?_⟩⟩
    rw [h, he, exceedsLimit_none] at hb
    exact absurd hb.2 Bool.false_ne_true
  · split
    · rename_i hi
      refine .inr ⟨rfl, .inr ⟨hi.1, fun he => ?_⟩⟩
      rw [h, he, exceedsLimit_none] at hi
      exact absurd hi.2 Bool.false_ne_true
    · exact .inl rfl

/-- Only more bytes are refused, and only where they are limited. -/
lemma limited_refused {d : Int64} {e : FsError} (h : (limited limits).reserve d 0 (.error e)) :
    0 < d ∧ limits.bytes ≠ {} ∧ e = .quotaExceeded := by
  rcases h with he | ⟨he, ⟨hpos, hlim⟩ | ⟨hpos, _⟩⟩
  · cases he
  · exact ⟨hpos, hlim, Except.error.inj he⟩
  · exact absurd hpos (by decide)

lemma acts_limited {env : Env} (c : Call) {s : St} (h : s.mem.quota.limits = limits) :
    c.acts (.limited limits) s.db (c.answer env s).1 (c.answer env s).2.db := by
  refine Call.acts_answer c s ?_
  cases c
  case reserve b i => exact fun _ => reserve_limited h b i _
  all_goals exact fun _ => trivial

section Alone

variable {α : Type} {T : Db → Db → Prop} {z : Prop} {Q : α → Db → Prop} {E : Abort → Db → Prop}
  {p : FsM α}

/-- The database follows the calls on a volume with these limits. -/
lemma limited_simulates (db : Db) :
    Prog.Simulates (Call.answer env) ((limited limits).watch T z) (fun (s : St) db' => s.db = db' ∧
      s.mem.quota.limits = limits ∧ Relation.ReflTransGen T db db') where
  call c s _ hr := ⟨_, hr.1 ▸ acts_limited c hr.2.1, fun hok =>
    ⟨rfl, (answer_limits c s).trans hr.2.1,
      hok.elim (fun he => he ▸ hr.2.2) (fun hT => hr.2.2.tail hT)⟩⟩
  acquire _ _ _ h := h
  release _ _ _ h := h

lemma limited_visits (hw : wp ((limited limits).watch T z) Q E p s.db)
    (hl : s.mem.quota.limits = limits) (hv : Prog.Visits (Call.answer env) p.run s s') :
    s'.mem.quota.limits = limits ∧ Relation.ReflTransGen T s.db s'.db := by
  obtain ⟨_, rfl, hend⟩ := Prog.wp_visits (limited_simulates s.db) ⟨rfl, hl, .refl⟩ hw hv
  exact hend

lemma limited_run (hw : wp ((limited limits).watch T z) Q E p s.db)
    (hl : s.mem.quota.limits = limits) {r : Except Abort α}
    (hr : p.run.run (Call.answer env) s = some (r, s')) : Post Q E r s'.db := by
  obtain ⟨_, ⟨rfl, -⟩, hpost⟩ := Prog.wp_run (limited_simulates s.db) ⟨rfl, hl, .refl⟩ hw hr
  exact hpost

lemma limited_returns (env : Env) (hw : wp ((limited limits).watch T False) Q E p s.db)
    (hl : s.mem.quota.limits = limits) :
    ∃ r s', p.run.run (Call.answer env) s = some (r, s') ∧ Post Q E r s'.db := by
  obtain ⟨r, s', _, hr, ⟨rfl, -⟩, hpost⟩ :=
    (Prog.wp_ends (limited_simulates s.db) ⟨rfl, hl, .refl⟩ hw).resolve_left fun h => h.2
  exact ⟨r, s', hr, hpost⟩

end Alone

/-! ## The flat array -/

/-- The bytes of the device. -/
def BlockVolume.device (g : BlockVolume) (db : Db) : Bytes :=
  contents g.chunkSize db BLOCK_INO g.sizeBytes

/-- What a call does to a flat array of `size` bytes. -/
def BlockOp.flat (size : Nat) : BlockOp → Bytes → Except FsError Reply × Bytes
  | .read o l, a =>
    if o + l ≤ size then (.ok (.bytes ((a.drop o).take l)), a) else (.error .invalid, a)
  | .write o d _, a =>
    if o + d.length ≤ size then (.ok .done, splice a o d) else (.error .invalid, a)
  | .flush, a => (.ok .done, a)
  | .trim o l, a =>
    if o + l ≤ size then (.ok .done, splice a o (List.replicate l 0)) else (.error .invalid, a)
  | .writeZeroes o l _, a =>
    if o + l ≤ size then (.ok .done, splice a o (List.replicate l 0)) else (.error .invalid, a)

/-- A quota may stand in the way: of a write, or of zeroing more than a signed counter
can count. -/
def BlockOp.Refusable (db : Db) : BlockOp → Prop
  | .write _ _ _ => True
  | .writeZeroes _ _ _ => 2 ^ 63 < storedBytes db
  | _ => False

/-- An error of an operation that does not panic. -/
def answerOf : Except FsError Reply → Except Abort Reply
  | .ok r => .ok r
  | .error e => .error (.err e)

/-- A call answers and changes the device as it would a flat array, or is refused for
quota and changes nothing. -/
def BlockOp.Agrees (g : BlockVolume) (limits : QuotaLimits) (op : BlockOp) (db : Db)
    (r : Except Abort Reply) (db' : Db) : Prop :=
  (r = answerOf (op.flat g.sizeBytes (g.device db)).1
    ∧ g.device db' = (op.flat g.sizeBytes (g.device db)).2)
  ∨ (limits.bytes ≠ {} ∧ op.Refusable db ∧ r = .error (.err .quotaExceeded)
    ∧ g.device db' = g.device db)

lemma BlockVolume.device_length (g : BlockVolume) (db : Db) :
    (g.device db).length = g.sizeBytes := contents_length ..

/-- A device that differs from another one in an extent. -/
lemma BlockVolume.device_splice (hfit : off + data.length ≤ g.sizeBytes)
    (hb : ∀ p, p < g.sizeBytes → byteAt g.chunkSize db' BLOCK_INO p =
      if off ≤ p ∧ p < off + data.length then data.getD (p - off) 0
      else byteAt g.chunkSize db BLOCK_INO p) :
    g.device db' = splice (g.device db) off data := by
  have hlen : (splice (g.device db) off data).length = (g.device db).length :=
    splice_length (by rw [device_length]; exact hfit)
  refine bytes_ext (by rw [hlen, device_length, device_length]) ?_
  intro p hp
  rw [device_length] at hp
  rw [splice_getD _ (by rw [device_length]; omega)]
  unfold device
  rw [contents_getD hp, contents_getD hp, hb p hp]

lemma BlockVolume.device_zeroes (hfit : off + len ≤ g.sizeBytes)
    (hb : ∀ p, byteAt g.chunkSize db' BLOCK_INO p =
      if off ≤ p ∧ p < off + len then 0 else byteAt g.chunkSize db BLOCK_INO p) :
    g.device db' = splice (g.device db) off (List.replicate len 0) := by
  refine device_splice (by rw [List.length_replicate]; exact hfit) ?_
  intro p _
  rw [hb, List.length_replicate, getD_zeroes]

lemma BlockVolume.device_none (g : BlockVolume) (db : Db) (hfit : off ≤ g.sizeBytes) :
    g.device db = splice (g.device db) off [] :=
  device_splice hfit (fun p _ => by rw [if_neg (by simp)])

/-- Zeroing the chunks of an extent clears the extent. -/
lemma zeroed_extent (h : g.Stored db)
    (hz : g.Zeroed db off (off + len) (chunkRange (off / g.chunkSize)
      ((off + len - 1) / g.chunkSize)) db') (p : Nat) :
    byteAt g.chunkSize db' BLOCK_INO p =
      if off ≤ p ∧ p < off + len then 0 else byteAt g.chunkSize db BLOCK_INO p := by
  rw [hz.byteAt h]
  by_cases hp : off ≤ p ∧ p < off + len
  · rw [if_pos hp, if_pos ⟨mem_chunkRange.mpr ⟨Nat.div_le_div_right hp.1,
      Nat.div_le_div_right (by omega)⟩, hp⟩]
  · rw [if_neg hp, if_neg (fun hr => hp hr.2)]

lemma coveredOf_length (db : Db) (range : Option (Nat × Nat)) :
    (coveredOf db range).length ≤ db.chunks.entries.length := by
  cases range with
  | none => exact Nat.zero_le _
  | some r =>
    refine le_trans (List.takeWhile_sublist _).length_le ?_
    unfold Db.chunksFrom
    rw [List.length_map]
    exact (List.filter_sublist).length_le

/-- What zeroing asks of the quota is refused only when the delta has wrapped. -/
lemma refused_zeroes (h : g.Stored db) {e : FsError}
    (he : (limited limits).reserve (Int64.ofInt (((chunkRange (off / g.chunkSize)
      ((off + len - 1) / g.chunkSize)).map (g.zeroDelta db off (off + len))).sum)) 0 (.error e)) :
    limits.bytes ≠ {} ∧ 2 ^ 63 < storedBytes db ∧ e = .quotaExceeded := by
  obtain ⟨hpos, hlim, rfl⟩ := limited_refused he
  refine ⟨hlim, ?_, rfl⟩
  by_contra hle
  have hn := nodup_chunkRange (off / g.chunkSize) ((off + len - 1) / g.chunkSize)
  -- zeroing cannot take away more than is stored
  have hge := (h.zeroed off (off + len) hn).storedBytes hn
  exact ofInt_nonpos (by omega) (g.sum_zeroDelta_nonpos ..) hpos

variable {fuel : Nat} {op : BlockOp}

/-- **Every call does to the device what it does to a flat array.** -/
theorem BlockOp.spec {z : Prop} (h : g.Stored db) (op : BlockOp)
    (hfuel : z ∨ db.chunks.entries.length < fuel) :
    wp ((limited limits).watch g.BlockTxn z)
      (fun r db' => op.Agrees g limits db (.ok r) db')
      (fun a db' => op.Agrees g limits db (.error a) db') (op.prog g fuel) db := by
  have hinvalid : ∀ {op : BlockOp},
      op.flat g.sizeBytes (g.device db) = (.error .invalid, g.device db) →
      op.Agrees g limits db (.error (.err .invalid)) db :=
        fun h => .inl (by rw [h]; exact ⟨rfl, rfl⟩)
  have hdone : ∀ {op : BlockOp} {db'},
      op.flat g.sizeBytes (g.device db) = (.ok .done, g.device db') →
      op.Agrees g limits db (.ok .done) db' := fun h => .inl (by rw [h]; exact ⟨rfl, rfl⟩)
  cases op with
  | read o l =>
    simp only [BlockOp.prog, wp_map]
    refine (wp_read h).mpr ⟨fun hfit => ?_, fun hbad => ?_⟩
    · exact .inl (by simp only [BlockOp.flat, if_pos hfit]; exact ⟨rfl, trivial⟩)
    · exact hinvalid (if_neg (Nat.not_le_of_lt hbad))
  | write o d fua =>
    simp only [BlockOp.prog, wp_map]
    -- out of range, empty, over the limit, or done
    refine wp_write fua (fun hbad => ?_) (fun hfit he => ?_) (fun d' e he => ?_)
      (fun db' hfit hne hw => ?_)
    · exact hinvalid (if_neg (Nat.not_le_of_lt hbad))
    · subst he
      exact hdone ((if_pos hfit).trans (congrArg _ (g.device_none db hfit).symm))
    · obtain ⟨-, hlim, rfl⟩ := limited_refused he
      exact .inr ⟨hlim, trivial, rfl, rfl⟩
    · refine hdone ?_
      rw [BlockOp.flat, if_pos hfit, device_splice hfit fun p hp => h.wrote_byteAt hne hfit hw hp]
  | flush =>
    simp only [BlockOp.prog, wp_map, wp_flush]
    exact .inl ⟨rfl, rfl⟩
  | trim o l =>
    simp only [BlockOp.prog, wp_map]
    refine wp_mono (wp_trim h (fun _ _ he => (limited_refused he).1) fuel ?_ (fun hbad => ?_)
      (fun hfit he => ?_) (fun db' hfit hne hc => ?_)) (fun _ _ => .zero) (fun _ _ h => h)
      (fun _ _ h => h)
    · exact hfuel.imp_right fun hlt range =>
        lt_of_le_of_lt (coveredOf_length db range) hlt
    · exact hinvalid (if_neg (Nat.not_le_of_lt hbad))
    · subst he
      exact hdone ((if_pos hfit).trans (congrArg _ (g.device_none db hfit).symm))
    · exact hdone (by rw [BlockOp.flat, if_pos hfit, device_zeroes hfit hc.byteAt])
  | writeZeroes o l fua =>
    simp only [BlockOp.prog, wp_map]
    refine wp_mono (wp_writeZeroes h fua (fun hbad => ?_)
      (fun hfit he => ?_) (fun e he => ?_) (fun db' hfit hne hz => ?_)) (fun _ _ => .zero)
      (fun _ _ h => h) (fun _ _ h => h)
    · exact hinvalid (if_neg (Nat.not_le_of_lt hbad))
    · subst he
      exact hdone ((if_pos hfit).trans (congrArg _ (g.device_none db hfit).symm))
    · obtain ⟨hlim, hbig, rfl⟩ := refused_zeroes h he
      exact .inr ⟨hlim, hbig, rfl, rfl⟩
    · exact hdone (by rw [BlockOp.flat, if_pos hfit, device_zeroes hfit (zeroed_extent h hz)])

/-! ## Runs with crashes -/

/-- The states between two calls. A crash may come after any step of a call; the volume
is then opened on what was committed. -/
inductive BlockRests (g : BlockVolume) (limits : QuotaLimits) : St → Prop where
  | opened : BlockRests g limits (openedBlock mkfsBlock limits 0 0)
  | call {s s' : St} {op : BlockOp} {env : Env} {fuel : Nat} {r : Except Abort Reply}
      (h : BlockRests g limits s)
      (hr : (op.prog g fuel).run.run (Call.answer env) s = some (r, s')) : BlockRests g limits s'
  | crash {s s' : St} {op : BlockOp} {env : Env} {fuel : Nat} (h : BlockRests g limits s)
      (hv : Prog.Visits (Call.answer env) (op.prog g fuel).run s s') (ticks : Nat) :
      BlockRests g limits (openedBlock s'.db limits ticks s'.commits)

/-- The states of such a run, those in the middle of a call included. -/
inductive BlockReached (g : BlockVolume) (limits : QuotaLimits) : St → Prop where
  | rest {s : St} (h : BlockRests g limits s) : BlockReached g limits s
  | during {s s' : St} {op : BlockOp} {env : Env} {fuel : Nat} (h : BlockRests g limits s)
      (hv : Prog.Visits (Call.answer env) (op.prog g fuel).run s s') : BlockReached g limits s'

lemma mkfsBlock_booked (g : BlockVolume) : g.Booked mkfsBlock where
  stored :=
    { own := fun _ _ _ h => nomatch h
      nonempty := fun _ _ h => nomatch h
      short := fun _ _ h => nomatch h
      inside := fun _ _ h => nomatch h }
  counter := rfl

lemma BlockVolume.Booked.txns (h : g.Booked db)
    (ht : Relation.ReflTransGen g.BlockTxn db db') : g.Booked db' := by
  induction ht with
  | refl => exact h
  | tail _ ht ih => exact ih.txn ht

lemma booked_visits (h : g.Booked s.db) (hl : s.mem.quota.limits = limits)
    (hv : Prog.Visits (Call.answer env) (op.prog g fuel).run s s') :
    g.Booked s'.db ∧ s'.mem.quota.limits = limits := by
  obtain ⟨hl', ht⟩ := limited_visits (BlockOp.spec h.stored op (.inl trivial)) hl hv
  exact ⟨h.txns ht, hl'⟩

lemma BlockRests.booked (h : BlockRests g limits s) :
    g.Booked s.db ∧ s.mem.quota.limits = limits := by
  induction h with
  | opened => exact ⟨mkfsBlock_booked g, rfl⟩
  | call _ hr ih => exact booked_visits ih.1 ih.2 (.of_run hr)
  | crash _ hv ticks ih => exact ⟨(booked_visits ih.1 ih.2 hv).1, rfl⟩

lemma BlockReached.booked (h : BlockReached g limits s) : g.Booked s.db := by
  cases h with
  | rest h => exact h.booked.1
  | during h hv => exact (booked_visits h.booked.1 h.booked.2 hv).1

/-- **A block volume is a flat array.** It starts all zero; from then on every call
returns, answers as the array does and leaves the device as the call leaves the array.
Only a quota on bytes can refuse a call that fits, and then nothing changes. A
snapshot of any state reads as the state does. -/
theorem device_is_flat_array (g : BlockVolume) (limits : QuotaLimits) :
    g.device mkfsBlock = List.replicate g.sizeBytes 0
    ∧ ∀ s, BlockRests g limits s → ∀ (env : Env) (fuel : Nat), s.db.chunks.entries.length < fuel →
      (∀ op : BlockOp, ∃ r s', (op.prog g fuel).run.run (Call.answer env) s = some (r, s')
        ∧ BlockRests g limits s' ∧ op.Agrees g limits s.db r s'.db)
      ∧ ∀ off len, ∃ r s₁ s₂, (g.read off len).run.run (Call.answer env) s = some (r, s₁)
        ∧ (g.snapshotRead off len).run.run (Call.answer env) s = some (r, s₂) := by
  refine ⟨?_, fun s h env fuel hfuel => ⟨fun op => ?_, fun off len => ?_⟩⟩
  · refine bytes_ext (by rw [BlockVolume.device_length, List.length_replicate]) ?_
    intro p hp
    rw [BlockVolume.device_length] at hp
    unfold BlockVolume.device
    rw [contents_getD hp, getD_zeroes]
    rfl
  · obtain ⟨hb, hl⟩ := h.booked
    obtain ⟨r, s', hr, hpost⟩ := limited_returns env
      (BlockOp.spec hb.stored op (Or.inr hfuel : False ∨ _)) hl
    refine ⟨r, s', hr, h.call hr, ?_⟩
    cases r <;> exact hpost
  · obtain ⟨hb, hl⟩ := h.booked
    -- both end in the slice of the device, or in the same error
    let Q : Bytes → Db → Prop := fun b _ => off + len ≤ g.sizeBytes
      ∧ b = sliceOf g.chunkSize s.db BLOCK_INO g.sizeBytes off len
    let E : Abort → Db → Prop := fun a _ => g.sizeBytes < off + len ∧ a = .err .invalid
    have hread : wp ((Oracle.limited limits).watch (fun _ _ => True) False) Q E (g.read off len)
        s.db := (BlockVolume.wp_read hb.stored).mpr ⟨fun hf => ⟨hf, rfl⟩, fun hf => ⟨hf, rfl⟩⟩
    have hsnap : wp ((Oracle.limited limits).watch (fun _ _ => True) False) Q E
        (g.snapshotRead off len) s.db :=
      (BlockVolume.wp_snapshotRead hb.stored).mpr ⟨fun hf => ⟨hf, rfl⟩, fun hf => ⟨hf, rfl⟩⟩
    obtain ⟨r₁, s₁, hr₁, hp₁⟩ := limited_returns env hread hl
    obtain ⟨r₂, s₂, hr₂, hp₂⟩ := limited_returns env hsnap hl
    refine ⟨r₁, s₁, s₂, hr₁, ?_⟩
    rw [hr₂]
    rcases r₁ with a₁ | b₁ <;> rcases r₂ with a₂ | b₂
    · rw [hp₁.2, hp₂.2]
    · exact absurd hp₂.1 (Nat.not_le_of_lt hp₁.1)
    · exact absurd hp₁.1 (Nat.not_le_of_lt hp₂.1)
    · rw [hp₁.2, hp₂.2]

/-- A write across the chunks of a new volume. -/
theorem tiny_is_flat_array : ∃ r s',
    ((BlockOp.write 4095 [1, 2] false).prog .tiny 1).run.run
        (Call.answer ⟨fun _ => ⟨0, 0⟩, fun _ => 0, fun _ => false⟩) (openedBlock mkfsBlock {} 0 0)
      = some (r, s')
    ∧ BlockRests .tiny {} s'
    ∧ (BlockOp.write 4095 [1, 2] false).Agrees .tiny {} mkfsBlock r s'.db :=
  ((device_is_flat_array .tiny {}).2 _ .opened _ 1 (by decide)).1 _

/-! ## The books -/

/-- A call that only takes bytes away. -/
def BlockOp.zeroes : BlockOp → Bool
  | .trim _ _ => true
  | .writeZeroes _ _ _ => true
  | _ => false

lemma BlockVolume.Booked.exact (h : g.Booked db) (hlt : storedBytes db < 2 ^ 63) :
    db.quotaBytes.toInt = storedBytes db := by
  rw [h.counter, toInt_ofNat_u64 (by omega), if_pos hlt]

lemma zeroTxns_storedBytes (ht : Relation.ReflTransGen g.ZeroTxn db db') :
    storedBytes db' ≤ storedBytes db := by
  induction ht with
  | refl => exact le_refl _
  | tail _ ht ih => exact le_trans ht.storedBytes_le ih

/-- A zeroing call commits zeroing batches and is not refused below the signed range. -/
lemma BlockOp.zeroes_spec (hop : op.zeroes = true) (h : g.Stored db)
    (hlt : storedBytes db < 2 ^ 63) (fuel : Nat) :
    wp ((limited limits).watch g.ZeroTxn True) (fun _ _ => True)
      (fun a _ => a ≠ .err .quotaExceeded) (op.prog g fuel) db := by
  cases op with
  | trim o l =>
    simp only [BlockOp.prog, wp_map]
    exact wp_trim h (fun _ _ he => (limited_refused he).1) fuel (.inl trivial) (fun _ => by simp)
      (fun _ _ => trivial) (fun _ _ _ _ => trivial)
  | writeZeroes o l fua =>
    simp only [BlockOp.prog, wp_map]
    refine wp_writeZeroes h fua (fun _ => by simp) (fun _ _ => trivial)
      (fun e he => ?_) (fun _ _ _ _ => trivial)
    have := (refused_zeroes h he).2.1
    omega
  | read o l => cases hop
  | write o d fua => cases hop
  | flush => cases hop

/-- A trim that fits leaves no chunk that it covers; another one is refused. -/
lemma trim_spec (h : g.Stored db) (hfuel : db.chunks.entries.length < fuel) :
    wp ((limited limits).watch g.ZeroTxn False)
      (fun r db' => off + len ≤ g.sizeBytes ∧ r = .done ∧
        ∀ idx c, db'.chunks.get? (toLex (BLOCK_INO, idx)) = some c →
          ¬(off ≤ idx * g.chunkSize ∧ (g.chunkBounds idx).2 ≤ off + len))
      (fun a db' => g.sizeBytes < off + len ∧ a = .err .invalid ∧ db' = db)
      ((BlockOp.trim off len).prog g fuel) db := by
  simp only [BlockOp.prog, wp_map]
  refine wp_trim h (fun _ _ he => (limited_refused he).1) fuel
    (.inr fun range => lt_of_le_of_lt (coveredOf_length db range) hfuel)
    (fun hbad => ⟨hbad, rfl, rfl⟩) (fun hfit hlen => ⟨hfit, trivial, ?_⟩)
    (fun db' hfit _ hc => ⟨hfit, trivial, hc.gone⟩)
  rintro idx c hc ⟨hlo, hhi⟩
  have := h.nonempty idx c hc
  have := h.inside idx c hc
  have := h.short idx c hc
  simp only [chunkBounds] at hhi
  omega

lemma write_lands (h : BlockRests g {} s) (hfit : off + data.length ≤ g.sizeBytes)
    (hne : data ≠ []) : ∃ s', BlockRests g {} s'
      ∧ Wrote g.chunkSize s.db BLOCK_INO g.sizeBytes off data s'.db := by
  obtain ⟨hb, hl⟩ := h.booked
  have hw : wp ((limited {}).watch g.BlockTxn False)
      (fun _ db' => Wrote g.chunkSize s.db BLOCK_INO g.sizeBytes off data db') (fun _ _ => False)
      ((BlockOp.write off data false).prog g 0) s.db := by
    simp only [BlockOp.prog, wp_map]
    refine wp_write false (fun hbad => absurd hfit (Nat.not_le_of_lt hbad))
      (fun _ he => absurd he hne) (fun _ _ he => (limited_refused he).2.1 rfl) (fun _ _ _ hw => hw)
  obtain ⟨r, s', hr, hpost⟩ :=
    limited_returns ⟨fun _ => ⟨0, 0⟩, fun _ => 0, fun _ => false⟩ hw hl
  refine ⟨s', h.call hr, ?_⟩
  cases r with
  | ok r => exact hpost
  | error a => exact hpost.elim

/-- **The books of a block volume.** After every batch of every run, crashes included,
every chunk is the device's, holds something, fits its place and ends inside the device;
and the counter shows the stored bytes while these can be counted in 63 bits. Until
then trim and zeroing never raise the counter and are never refused for quota. A trim
returns, and if its extent fits it leaves no chunk that it covers. -/
theorem block_books (g : BlockVolume) (limits : QuotaLimits) :
    (∀ s, BlockReached g limits s →
      (∀ x idx c, s.db.chunks.get? (toLex (x, idx)) = some c → x = BLOCK_INO ∧ 0 < c.length
        ∧ c.length ≤ g.chunkSize ∧ idx * g.chunkSize + c.length ≤ g.sizeBytes)
      ∧ (storedBytes s.db < 2 ^ 63 → s.db.quotaBytes.toInt = storedBytes s.db))
    ∧ (∀ s, BlockRests g limits s → storedBytes s.db < 2 ^ 63 →
      ∀ (op : BlockOp) (env : Env) (fuel : Nat), op.zeroes = true →
        (∀ s', Prog.Visits (Call.answer env) (op.prog g fuel).run s s' →
          s'.db.quotaBytes.toInt ≤ s.db.quotaBytes.toInt)
        ∧ ∀ r s', (op.prog g fuel).run.run (Call.answer env) s = some (r, s') →
          r ≠ .error (.err .quotaExceeded))
    ∧ (∀ s, BlockRests g limits s → ∀ (off len : Nat) (env : Env) (fuel : Nat),
      s.db.chunks.entries.length < fuel →
        ∃ r s', ((BlockOp.trim off len).prog g fuel).run.run (Call.answer env) s = some (r, s')
          ∧ (off + len ≤ g.sizeBytes → r = .ok .done ∧
            ∀ idx c, s'.db.chunks.get? (toLex (BLOCK_INO, idx)) = some c →
              ¬(off ≤ idx * g.chunkSize ∧ (g.chunkBounds idx).2 ≤ off + len))
          ∧ (g.sizeBytes < off + len → r = .error (.err .invalid) ∧ s'.db = s.db)) := by
  refine ⟨fun s h => ?_, fun s h hlt op env fuel hop => ⟨fun s' hv => ?_, ?_⟩, ?_⟩
  · have hb := h.booked
    refine ⟨fun x idx c hc => ?_, hb.exact⟩
    obtain rfl := hb.stored.own x idx c hc
    exact ⟨rfl, hb.stored.nonempty idx c hc, hb.stored.short idx c hc, hb.stored.inside idx c hc⟩
  · obtain ⟨hb, hl⟩ := h.booked
    have hle := zeroTxns_storedBytes
      (limited_visits (BlockOp.zeroes_spec hop hb.stored hlt fuel) hl hv).2
    rw [(booked_visits hb hl hv).1.exact (by omega), hb.exact hlt]
    exact_mod_cast hle
  · rintro r s' hr rfl
    obtain ⟨hb, hl⟩ := h.booked
    exact limited_run (BlockOp.zeroes_spec hop hb.stored hlt fuel) hl hr rfl
  · intro s h off len env fuel hfuel
    obtain ⟨hb, hl⟩ := h.booked
    obtain ⟨r, s', hr, hpost⟩ := limited_returns env (trim_spec hb.stored hfuel) hl
    refine ⟨r, s', hr, ?_⟩
    cases r with
    | ok r =>
      obtain ⟨hfit, hdone, hgone⟩ := hpost
      exact ⟨fun _ => ⟨congrArg _ hdone, hgone⟩, fun hbad => absurd hfit (Nat.not_le_of_lt hbad)⟩
    | error a =>
      obtain ⟨hbad, hinvalid, hsame⟩ := hpost
      exact ⟨fun hfit => absurd hfit (Nat.not_le_of_lt hbad), fun _ => ⟨congrArg _ hinvalid, hsame⟩⟩

/-- Bytes are written across two chunks, and a trim of the first chunk clears it. -/
theorem tiny_books : ∃ s fuel s', BlockRests .tiny {} s ∧
    (s.db.chunks.get? (toLex (BLOCK_INO, 0))).isSome ∧
    ((BlockOp.trim 0 4096).prog .tiny fuel).run.run
      (Call.answer ⟨fun _ => ⟨0, 0⟩, fun _ => 0, fun _ => false⟩) s = some (.ok .done, s') ∧
    s'.db.chunks.get? (toLex (BLOCK_INO, 0)) = none := by
  have hfit : 4095 + ([1, 2] : Bytes).length ≤ BlockVolume.tiny.sizeBytes := by decide
  obtain ⟨s, hs, hw⟩ := write_lands (g := .tiny) .opened hfit (List.cons_ne_nil _ _)
  have hmem : 0 ∈ writtenRange BlockVolume.tiny.chunkSize 4095 ([1, 2] : Bytes).length := by decide
  obtain ⟨r, s', hr, hok, -⟩ :=
    (block_books .tiny {}).2.2 s hs 0 4096 ⟨fun _ => ⟨0, 0⟩, fun _ => 0, fun _ => false⟩ _
      (Nat.lt_succ_self _)
  obtain ⟨rfl, hgone⟩ := hok (by decide)
  refine ⟨s, _, s', hs, ?_, hr, Option.eq_none_iff_forall_ne_some.mpr fun c hc => ?_⟩
  · rw [hw, if_pos ⟨rfl, hmem⟩]
    rfl
  · exact hgone 0 c hc ⟨by decide, by decide⟩

/-! A signed counter cannot show more than `2 ^ 63 - 1` stored bytes, and no check
keeps a large device from storing more. -/

/-- The largest device with chunks of two gibibytes. -/
def BlockVolume.huge : BlockVolume := ⟨2 ^ 63, 2 ^ 31, by decide, by decide, by decide⟩

lemma Wrote.full {idx : Nat} (hne : data ≠ []) (hfit : off + data.length ≤ g.sizeBytes)
    (hw : Wrote g.chunkSize db BLOCK_INO g.sizeBytes off data db')
    (hlo : off ≤ idx * g.chunkSize) (hhi : idx * g.chunkSize + g.chunkSize ≤ off + data.length) :
    ∃ c, db'.chunks.get? (toLex (BLOCK_INO, idx)) = some c ∧ g.chunkSize ≤ c.length := by
  have hpos := Nat.pos_of_ne_zero g.chunkSize_ne
  have hin : idx * g.chunkSize < off + data.length ∧ off < idx * g.chunkSize + g.chunkSize :=
    ⟨by omega, by omega⟩
  have hmem := (mem_writtenRange g.chunkSize_ne hne (le_trans hfit g.size_le)).mpr hin
  refine ⟨_, (hw BLOCK_INO idx).trans (if_pos ⟨rfl, hmem⟩), ?_⟩
  rw [newChunk_length hin hne]
  omega

lemma storedBytes_ge {n L : Nat} (h : ∀ idx, idx < n →
    ∃ c, db.chunks.get? (toLex (BLOCK_INO, idx)) = some c ∧ L ≤ c.length) :
    n * L ≤ storedBytes db := by
  let keys : Finset (Ino ×ₗ Nat) := (Finset.range n).image (fun idx => toLex (BLOCK_INO, idx))
  have hinj : Set.InjOn (fun idx => toLex (BLOCK_INO, idx)) (Finset.range n : Set Nat) :=
    fun a _ b _ hab => (Prod.mk.inj (toLex.injective hab)).2
  have hcard : keys.card = n := by
    rw [Finset.card_image_of_injOn hinj, Finset.card_range]
  calc n * L = keys.card * L := by rw [hcard]
    _ = ∑ _k ∈ keys, L := by rw [Finset.sum_const]; rfl
    _ ≤ ∑ k ∈ keys, OrdMap.part (fun _ (c : Bytes) => c.length) k (db.chunks.get? k) := by
        refine Finset.sum_le_sum ?_
        intro k hk
        obtain ⟨idx, hidx, rfl⟩ := Finset.mem_image.mp hk
        obtain ⟨c, hc, hL⟩ := h idx (Finset.mem_range.mp hidx)
        rw [hc]
        exact hL
    _ ≤ ∑ k ∈ db.chunks.keys ∪ keys,
          OrdMap.part (fun _ (c : Bytes) => c.length) k (db.chunks.get? k) :=
        Finset.sum_le_sum_of_subset Finset.subset_union_right
    _ = storedBytes db := (OrdMap.sum_eq_finset _ _ Finset.subset_union_left).symm

/-- **The counter wraps.** Two writes of `2 ^ 62` bytes fill the device, and the counter
is negative. -/
theorem counter_wraps : ∃ s, BlockReached .huge {} s
    ∧ s.db.quotaBytes.toInt ≠ storedBytes s.db := by
  have hlen : (List.replicate (2 ^ 62) (0 : UInt8)).length = 2 ^ 62 := List.length_replicate
  have hne : List.replicate (2 ^ 62) (0 : UInt8) ≠ [] :=
    List.ne_nil_of_length_pos (by rw [hlen]; decide)
  have hcs : BlockVolume.huge.chunkSize = 2 ^ 31 := rfl
  have hsize : BlockVolume.huge.sizeBytes = 2 ^ 63 := rfl
  have hfit₁ : 0 + (List.replicate (2 ^ 62) (0 : UInt8)).length ≤ BlockVolume.huge.sizeBytes := by
    rw [hlen, hsize]; omega
  have hfit₂ : 2 ^ 62 + (List.replicate (2 ^ 62) (0 : UInt8)).length
      ≤ BlockVolume.huge.sizeBytes := by
    rw [hlen, hsize]; omega
  obtain ⟨s₁, h₁, hw₁⟩ := write_lands .opened hfit₁ hne
  obtain ⟨s₂, h₂, hw₂⟩ := write_lands h₁ hfit₂ hne
  refine ⟨s₂, .rest h₂, ?_⟩
  have hfull : ∀ idx, idx < 2 ^ 32 → ∃ c, s₂.db.chunks.get? (toLex (BLOCK_INO, idx)) = some c
      ∧ 2 ^ 31 ≤ c.length := by
    intro idx hidx
    by_cases hhalf : idx < 2 ^ 31
    · -- the first write stored it and the second did not touch it
      obtain ⟨c, hc, hL⟩ := hw₁.full hne hfit₁
        (Nat.zero_le (idx * _)) (by rw [hcs, hlen]; omega)
      refine ⟨c, ?_, hL⟩
      rw [hw₂, if_neg]
      · exact hc
      rintro ⟨_, hmem⟩
      have := ((mem_writtenRange BlockVolume.huge.chunkSize_ne hne
        (le_trans hfit₂ BlockVolume.huge.size_le)).mp hmem).2
      rw [hcs] at this
      omega
    · exact hw₂.full hne hfit₂ (by rw [hcs]; omega) (by rw [hcs, hlen]; omega)
  have hge := storedBytes_ge hfull
  have hlt := s₂.db.quotaBytes.toInt_lt
  omega

end SlateFs
