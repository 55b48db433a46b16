import ShredStream.Accumulator.Calls
import ShredStream.Slot.Tracks

/-!
# Delivering the data shreds of a slot

No code shreds and no stuck-batch timeout. `Follows cfg D k acc out`: once the
shreds in `D` were pushed, the accumulator waits for batch `k` and `out` is the
ledger up to where its decoder stands.

* `Follows.tryFlushBatches`, `Follows.pushData`: the step lemmas.
* `deliver_follows`: any sequence of `push_data` calls keeps to the ledger.
-/

namespace ShredStream

open FirstByKey SlotAccumulator

namespace Slot

section

variable {w : Wincode} (S : Slot w)

/-- A shred that `push_data` stores: the last of the slot is not. -/
def Stored (i : ℕ) : Prop := i < S.shreds ∧ ¬S.IsLast i

instance (i : ℕ) : Decidable (S.Stored i) := inferInstanceAs (Decidable (_ ∧ _))

variable {S} in
theorem Holds.stored {i : ℕ} {ps : PendingShred} (h : S.Holds i ps) :
    S.Stored i := ⟨h.index_lt, h.not_last⟩

/-- Some shred of the batch the accumulator waits for is not there. -/
def Waiting (k : ℕ) (acc : SlotAccumulator) : Prop :=
  k < S.batches → ∃ i, S.start k ≤ i ∧ i < S.start (k + 1) ∧ i ∉ acc.pending

/-- The state after the shreds in `D` were pushed and `out` was returned. -/
structure Follows (cfg : AccumulatorConfig) (D : ℕ → Prop) (k : ℕ) (acc : SlotAccumulator)
    (out : List VersionedTransaction) : Prop extends S.Tracks k acc where
  cfg_eq : acc.cfg = cfg
  fecSets : acc.fecSets = ∅
  pool : ∀ (i : ℕ) (ps : PendingShred), acc.pending[i]? = some ps → ps.source.isRecovered = false
  mem_pending : ∀ i, i ∈ acc.pending ↔ D i ∧ S.Stored i ∧ S.start k ≤ i
  before : ∀ i < S.start k, D i ∧ S.Stored i
  out_eq : out = S.txsBefore k ++ S.streamed k acc.streamingCursor

theorem follows_withConfig (cfg : AccumulatorConfig) :
    S.Follows cfg (fun _ => False) 0 (withConfig cfg) [] where
  toTracks := S.tracks_withConfig cfg
  cfg_eq := rfl
  fecSets := rfl
  pool i ps h := by simp [withConfig] at h
  mem_pending i := by simp [withConfig]
  before i h := by rw [S.start_zero] at h; omega
  out_eq := by
    have h := S.streamed_start 0
    rw [S.start_zero] at h
    change [] = S.txsBefore 0 ++ S.streamed 0 0
    rw [h, txsBefore_zero]
    rfl

theorem waiting_withConfig (cfg : AccumulatorConfig) : S.Waiting 0 (withConfig cfg) := fun hk =>
  ⟨0, by rw [S.start_zero], by have := S.start_lt 0 hk; omega, by simp [withConfig]⟩

end

variable {C : Type} {env : Env C} {S : Slot env.wincode} {cfg : AccumulatorConfig} {D : ℕ → Prop}
  {k : ℕ} {acc : SlotAccumulator} {out : List VersionedTransaction}

namespace Waiting

theorem cursor_lt (h : S.Waiting k acc) (ht : S.Aligned k acc) (hk : k < S.batches) :
    acc.streamingCursor < S.stop k := by
  obtain ⟨i, h1, h2, hi⟩ := h hk
  rw [S.stop_of_lt hk]
  by_contra hge
  obtain ⟨ps, hps, -⟩ := ht.streamed i h1 (by omega)
  exact hi (acc.pending.mem_iff_getElem?.mpr ⟨ps, hps⟩)

end Waiting

/-- The batch the first boundary belongs to is the one waited for, when all of
    its shreds are there. -/
theorem Aligned.boundary_eq (h : S.Aligned k acc) {bcIdx t : ℕ}
    (hfirst : acc.batchCompleteIndices.firstFrom acc.batchStart = some (bcIdx, t))
    (hall : ∀ i, acc.batchStart ≤ i → i ≤ bcIdx → i ∈ acc.pending) :
    k < S.batches ∧ bcIdx + 1 = S.start (k + 1) := by
  obtain ⟨hbc, hge, hmin⟩ := BTreeMap.firstFrom_spec _ hfirst
  have hmem := acc.batchCompleteIndices.mem_iff_getElem?.mpr ⟨t, hbc⟩
  rw [h.batchStart] at hge hall hmin
  refine ((h.boundary bcIdx).mp hmem).2.eq_next S h.k_le hge fun i h1 h2 hends => ?_
  -- a batch end in the range would be a boundary itself
  have := hmin i ((h.boundary i).mpr ⟨hall i h1 h2.le, hends⟩) h1
  omega

/-- With a gap before every boundary, the batch is not complete. -/
theorem Aligned.waiting_of_gap (h : S.Aligned k acc)
    (hgap : ∀ b ∈ acc.batchCompleteIndices, S.start k ≤ b →
      ∃ i, S.start k ≤ i ∧ i ≤ b ∧ i ∉ acc.pending) : S.Waiting k acc := by
  intro hk
  by_contra hno
  push Not at hno
  have hlt := S.start_lt k hk
  have hlast : S.start (k + 1) - 1 ∈ acc.batchCompleteIndices :=
    (h.boundary _).mpr ⟨hno _ (by omega) (by omega), S.endsBatch_start hk⟩
  obtain ⟨i, h1, h2, hi⟩ := hgap _ hlast (by omega)
  exact hi (hno i h1 (by omega))

/-- Without FEC sets, an iteration of the flush leaves the loop with the batch
    incomplete, or finalises up to the first boundary. -/
theorem Aligned.flushBody_cases {s : CallState C} (h : S.Aligned k s.acc)
    (hsets : s.acc.fecSets = ∅) (clock : Clock) {fuel : ℕ} (hfuel : 2 ^ 32 < fuel) :
    (flushBody env clock fuel s = some (.inr s) ∧ S.Waiting k s.acc) ∨
    ∃ bcIdx t counters txs,
      s.acc.batchCompleteIndices.firstFrom s.acc.batchStart = some (bcIdx, t) ∧
      flushBody env clock fuel s = some (.inl ⟨s.acc.finalise txs counters bcIdx, s.cache,
        s.out ++ unseen s.acc.yieldedSigs txs⟩) ∧
      ((s.acc.cfg.stuckBatchTimeout ≤ clock.elapsed bcIdx t ∧
          txs = s.acc.salvaged env s.acc.batchStart (bcIdx + 1)) ∨
        ((∀ i, s.acc.batchStart ≤ i → i ≤ bcIdx → i ∈ s.acc.pending) ∧
          txs = batchTxs env.wincode (s.acc.combined s.acc.batchStart bcIdx))) := by
  rcases SlotAccumulator.flushBody_cases env clock hfuel s (fun i hi => h.boundary_lt hi) with
    ⟨hnone, hbody⟩ | ⟨bcIdx, t, acc', cache', hfirst, hfill, hcases⟩
  · -- no boundary
    refine .inl ⟨hbody, h.waiting_of_gap fun b hb hge => ?_⟩
    have hlt := (BTreeMap.firstFrom_eq_none _).mp hnone b hb
    rw [h.batchStart] at hlt
    omega
  rw [flushFill_of_empty env hsets] at hfill
  cases hfill
  rcases hcases with ⟨⟨i, h1, h2, hi⟩, -, hbody⟩ | ⟨-, hlate, counters, hbody⟩ |
    ⟨hall, counters, hbody⟩
  · -- a shred is missing in front of the first boundary
    obtain ⟨-, -, hmin⟩ := BTreeMap.firstFrom_spec _ hfirst
    refine .inl ⟨hbody, h.waiting_of_gap fun b hb hle => ?_⟩
    rw [h.batchStart] at h1 hmin
    exact ⟨i, h1, h2.trans (hmin b hb hle), hi⟩
  · exact .inr ⟨bcIdx, t, counters, _, hfirst, hbody, .inl ⟨hlate, rfl⟩⟩
  · exact .inr ⟨bcIdx, t, counters, _, hfirst, hbody, .inr ⟨hall, rfl⟩⟩

namespace Follows

/-- A complete batch is finalised: what the flush yields is what streaming left. -/
theorem finalise (hw : env.wincode.Lawful) (h : S.Follows cfg D k acc out) {bcIdx t : ℕ}
    (hfirst : acc.batchCompleteIndices.firstFrom acc.batchStart = some (bcIdx, t))
    (hall : ∀ i, acc.batchStart ≤ i → i ≤ bcIdx → i ∈ acc.pending) (counters : Counters) :
    let txs := batchTxs env.wincode (acc.combined acc.batchStart bcIdx)
    let acc' := acc.finalise txs counters bcIdx
    S.Follows cfg D (k + 1) acc' (out ++ unseen acc.yieldedSigs txs) ∧
      acc'.streamingCursor = S.start (k + 1) := by
  obtain ⟨hk, hbc⟩ := h.boundary_eq hfirst hall
  obtain ⟨hbc', hge, -⟩ := BTreeMap.firstFrom_spec _ hfirst
  have hmem := acc.batchCompleteIndices.mem_iff_getElem?.mpr ⟨t, hbc'⟩
  rw [h.batchStart] at hall ⊢
  have htxs : batchTxs env.wincode (acc.combined (S.start k) bcIdx) = S.txs k := by
    rw [h.combined hall, hbc, txs, if_pos hk]
  simp only [htxs]
  -- recording and counting do not matter to what `complete_batch` keeps
  have haligned : S.Aligned k { acc.record (S.txs k) with counters } :=
    ⟨h.k_le, h.batchStart, h.holds, h.boundary, h.cursor_ge, h.cursor_le, h.streamed⟩
  obtain ⟨j, -, hj, htracks⟩ := haligned.completeBatch hmem
  have hjk : j = k + 1 := S.start_inj htracks.k_le (by omega) (by omega)
  subst hjk
  have hsat : satAdd32 bcIdx 1 = S.start (k + 1) := by
    rw [satAdd32_of_lt (h.boundary_lt hmem), hbc]
  have hcursor : (acc.finalise (S.txs k) counters bcIdx).streamingCursor = S.start (k + 1) := by
    change max acc.streamingCursor (satAdd32 bcIdx 1) = _
    have := h.cursor_le
    rw [S.stop_of_lt hk] at this
    rw [hsat]
    omega
  have hlt := S.start_lt k hk
  refine ⟨⟨htracks, h.cfg_eq, ?_, fun i ps hps => ?_, fun i => ?_, fun i hi => ?_, ?_⟩, hcursor⟩
  · change acc.fecSets.filter _ = ∅
    rw [h.fecSets]
    rfl
  · exact h.pool i ps (SlotAccumulator.completeBatch_pending _ |>.mp hps).1
  · refine (SlotAccumulator.mem_completeBatch_pending _).trans ?_
    change i ∈ acc.pending ∧ _ ↔ _
    rw [h.mem_pending, hsat]
    constructor
    · exact fun hi => ⟨hi.1.1, hi.1.2.1, hi.2⟩
    · exact fun hi => ⟨⟨hi.1, hi.2.1, by omega⟩, hi.2.2⟩
  · by_cases hik : i < S.start k
    · exact h.before i hik
    · obtain ⟨hD, hst, -⟩ := (h.mem_pending i).mp (hall i (by omega) (by omega))
      exact ⟨hD, hst⟩
  · obtain ⟨rest, hrest⟩ := S.streamed_isPrefix hw hk acc.streamingCursor
    have hunseen : unseen acc.yieldedSigs (S.txs k) = rest := by
      have hdist := S.distinct_txs hk
      rw [← hrest] at hdist ⊢
      rw [h.yielded]
      exact hdist.fresh_append_right
    rw [hunseen, h.out_eq, hcursor, streamed_start, txsBefore_succ, List.append_nil,
      List.append_assoc, hrest]

/-- `try_flush_batches` finalises the complete batches in order. -/
theorem tryFlushBatches (hw : env.wincode.Lawful) {base : List VersionedTransaction}
    (h : S.Follows cfg D k acc (base ++ out)) (clock : Clock)
    (htime : ∀ b t, clock.elapsed b t < cfg.stuckBatchTimeout) {fuel : ℕ} (hfuel : 2 ^ 32 < fuel)
    (cache : ReedSolomonCache C) :
    ∃ r, acc.tryFlushBatches env clock fuel cache out = some r ∧
      ∃ j, k ≤ j ∧ S.Follows cfg D j r.acc (base ++ r.out) ∧ S.Waiting j r.acc ∧
        (j = k ∧ r = ⟨acc, cache, out⟩ ∨ k < j ∧ r.acc.streamingCursor = S.start j) := by
  refine FuelLoop.run_total
    (fun s : CallState C => ∃ j, k ≤ j ∧ S.Follows cfg D j s.acc (base ++ s.out) ∧
      (j = k ∧ s = ⟨acc, cache, out⟩ ∨ k < j ∧ s.acc.streamingCursor = S.start j)) _
    (fun s => S.shreds - s.acc.batchStart) ?_ fuel ⟨acc, cache, out⟩
    ⟨k, le_rfl, h, .inl ⟨rfl, rfl⟩⟩ (S.shreds_sub_lt hfuel _)
  rintro s ⟨j, hkj, hs, hj⟩
  rcases hs.flushBody_cases hs.fecSets clock hfuel with
    ⟨hbody, hwait⟩ | ⟨bcIdx, t, counters, txs, hfirst, hbody, ⟨hlate, -⟩ | ⟨hall, rfl⟩⟩
  · exact .inr ⟨s, hbody, j, hkj, hs, hwait, hj⟩
  · rw [hs.cfg_eq] at hlate
    exact absurd (htime bcIdx t) (not_lt.mpr hlate)
  · obtain ⟨hnext, hcursor⟩ := hs.finalise hw hfirst hall counters
    refine .inl ⟨_, hbody, ⟨j + 1, by omega, ?_, .inr ⟨by omega, hcursor⟩⟩, ?_⟩
    · rw [← List.append_assoc]
      exact hnext
    · rw [hnext.batchStart, hs.batchStart]
      exact S.shreds_sub_start_lt (Nat.lt_succ_self j) hnext.k_le

/-- Pushing a shred that is not stored changes nothing that matters here. -/
theorem of_unstored (h : S.Follows cfg D k acc out) {n : ℕ}
    (hn : ¬(S.Stored n ∧ S.start k ≤ n ∧ ¬D n)) : S.Follows cfg (fun i => D i ∨ i = n) k acc out :=
  { h with
    mem_pending := fun i => by
      rw [h.mem_pending]
      constructor
      · exact fun hi => ⟨.inl hi.1, hi.2⟩
      · rintro ⟨hD | rfl, hst, hge⟩
        · exact ⟨hD, hst, hge⟩
        · exact ⟨by_contra fun hD => hn ⟨hst, hge, hD⟩, hst, hge⟩
    before := fun i hi => ⟨.inl (h.before i hi).1, (h.before i hi).2⟩ }

theorem dropHandle (h : S.Follows cfg D k acc out) (b : BufferHandle) :
    S.Follows cfg D k (acc.dropHandle b) out := { h with }

theorem completeSlot (h : S.Follows cfg D k acc out) (index : ℕ) :
    S.Follows cfg D k (acc.completeSlot index) out := { h with }

/-- A shred that is new is stored. -/
theorem insertData (h : S.Follows cfg D k acc out) (clock : Clock) {a : DataArgs}
    (ha : S.Genuine a) (hlast : a.lastInSlot = false) (hge : acc.batchStart ≤ a.index)
    (hnew : a.index ∉ acc.pending) :
    S.Follows cfg (fun i => D i ∨ i = a.index) k (acc.insertData clock a) out :=
  { h.toAligned.insertData clock ha hlast hge hnew with
    decoder := h.decoder
    yielded := h.yielded
    cfg_eq := h.cfg_eq
    fecSets := h.fecSets
    pool := fun i ps hps => by
      rw [SlotAccumulator.insertData, BTreeMap.getElem?_insert_eq] at hps
      split_ifs at hps
      · cases hps
        rfl
      · exact h.pool i ps hps
    mem_pending := fun i => by
      have hst : S.Stored a.index := ⟨ha.index_lt, by rw [← ha.lastInSlot, hlast]; simp⟩
      rw [h.batchStart] at hge
      rw [SlotAccumulator.insertData, Std.ExtTreeMap.mem_insert, h.mem_pending, Nat.compare_eq_eq]
      constructor
      · rintro (rfl | hi)
        · exact ⟨.inr rfl, hst, hge⟩
        · exact ⟨.inl hi.1, hi.2⟩
      · rintro ⟨hD | rfl, hi⟩
        · exact .inr ⟨hD, hi⟩
        · exact .inl rfl
    before := fun i hi => ⟨.inl (h.before i hi).1, (h.before i hi).2⟩
    out_eq := h.out_eq }

/-- Streaming yields the ledger from the cursor on. -/
theorem advanceStreaming (hw : env.wincode.Lawful) (h : S.Follows cfg D k acc out)
    (hcur : acc.streamingCursor < S.stop k ∨ acc.streamingCursor ∉ acc.pending) {fuel : ℕ}
    (hfuel : 2 ^ 32 < fuel) :
    ∃ acc' new, acc.advanceStreaming env fuel [] = some (acc', new) ∧
      S.Follows cfg D k acc' (out ++ new) ∧ acc'.pending = acc.pending ∧
      (acc'.streamingCursor = S.stop k ∨ acc'.streamingCursor ∉ acc'.pending) := by
  obtain ⟨cursor, decoder, new, hrun, htracks, -, hnew, hstop⟩ :=
    h.toTracks.advanceStreaming hw hcur hfuel []
  refine ⟨_, new, hrun, { htracks with
    cfg_eq := h.cfg_eq, fecSets := h.fecSets, pool := h.pool, mem_pending := h.mem_pending
    before := h.before, out_eq := ?_ }, rfl, ?_⟩
  · rw [h.out_eq, List.append_assoc, ← hnew]
    rfl
  · refine hstop.imp And.right fun hrec hmem => ?_
    obtain ⟨ps, hps⟩ := (restream acc cursor decoder _).pending.mem_iff_getElem?.mp hmem
    have h1 := hrec ps hps
    have h2 := h.pool _ ps hps
    rw [h1] at h2
    cases h2

/-- One call of `push_data`: either the shred is not stored and nothing moves,
    or it is, and the cursor stands at the first gap of the batch that is waited
    for, or at its start if the call finalised batches. -/
theorem pushData (hw : env.wincode.Lawful) (h : S.Follows cfg D k acc out)
    (hwait : S.Waiting k acc) {a : DataArgs} (ha : S.Genuine a) (clock : Clock)
    (htime : ∀ b t, clock.elapsed b t < cfg.stuckBatchTimeout) {fuel : ℕ} (hfuel : 2 ^ 32 < fuel)
    (cache : ReedSolomonCache C) :
    ∃ r, acc.pushData env clock fuel cache a = some r ∧
      ∃ j, k ≤ j ∧ S.Follows cfg (fun i => D i ∨ i = a.index) j r.acc (out ++ r.out) ∧
      S.Waiting j r.acc ∧
      ((¬(S.Stored a.index ∧ S.start k ≤ a.index ∧ ¬D a.index) ∧ j = k ∧
          r.acc.streamingCursor = acc.streamingCursor ∧ r.acc.pending = acc.pending) ∨
        ((S.Stored a.index ∧ S.start k ≤ a.index ∧ ¬D a.index) ∧
          (j = k ∧ r.acc.streamingCursor ∉ r.acc.pending ∨
            k < j ∧ r.acc.streamingCursor = S.start j))) := by
  by_cases hlast : a.lastInSlot = true
  · -- the last shred of the slot is not stored
    have hn : ¬(S.Stored a.index ∧ S.start k ≤ a.index ∧ ¬D a.index) :=
      fun hst => hst.1.2 (ha.lastInSlot.mp hlast)
    have h' := h.completeSlot a.index
    rw [← List.append_nil out] at h'
    obtain ⟨r, hrun, j, hkj, hr, hwait', hj⟩ :=
      h'.tryFlushBatches hw clock htime hfuel cache
    rw [SlotAccumulator.pushData, if_pos hlast, hrun]
    rcases hj with ⟨rfl, rfl⟩ | ⟨hlt, -⟩
    · exact ⟨_, rfl, j, le_rfl, (hr.of_unstored hn).dropHandle _, hwait', .inl ⟨hn, rfl, rfl, rfl⟩⟩
    · -- the flush finds nothing new to finalise
      obtain ⟨i, h1, h2, hi⟩ := hwait (show k < S.batches by have := hr.k_le; omega)
      have := S.start_mono (show k + 1 ≤ j by omega) hr.k_le
      obtain ⟨hD, hst⟩ := hr.before i (by omega)
      exact absurd ((h.mem_pending i).mpr ⟨hD, hst, h1⟩) hi
  have hfalse : a.lastInSlot = false := by simpa using hlast
  by_cases hdrop : a.index < acc.batchStart ∨ a.index ∈ acc.pending
  · rw [pushData_of_dropped env hfalse hdrop]
    have hn : ¬(S.Stored a.index ∧ S.start k ≤ a.index ∧ ¬D a.index) := by
      rintro ⟨-, hge, hnew⟩
      rw [h.batchStart] at hdrop
      exact hdrop.elim (by omega) fun hdup => hnew ((h.mem_pending _).mp hdup).1
    refine ⟨_, rfl, k, le_rfl, ?_, hwait, .inl ⟨hn, rfl, rfl, rfl⟩⟩
    rw [List.append_nil]
    exact (h.of_unstored hn).dropHandle _
  rw [not_or, not_lt] at hdrop
  -- the shred is stored, streaming moves on, and the flush follows in any case
  have hge : S.start k ≤ a.index := h.batchStart ▸ hdrop.1
  have hst : S.Stored a.index := ⟨ha.index_lt, fun hl => hlast (ha.lastInSlot.mpr hl)⟩
  have hn : S.Stored a.index ∧ S.start k ≤ a.index ∧ ¬D a.index :=
    ⟨hst, hge, fun hD => hdrop.2 ((h.mem_pending _).mpr ⟨hD, hst, hge⟩)⟩
  have hk : k < S.batches := (S.start_lt_iff h.k_le le_rfl).mp (hge.trans_lt ha.index_lt)
  have hins := h.insertData clock ha hfalse hdrop.1 hdrop.2
  obtain ⟨acc', new, hrun, hstream, hpend, hcursor⟩ :=
    hins.advanceStreaming hw (.inl (hwait.cursor_lt h.toAligned hk)) hfuel
  obtain ⟨r, hflush, j, hkj, hr, hwait', hj⟩ := hstream.tryFlushBatches hw clock htime hfuel cache
  refine ⟨r, ?_, j, hkj, hr, hwait', .inr ⟨hn, ?_⟩⟩
  · rw [pushData_of_empty env hfalse hdrop.1 hdrop.2 clock cache hrun hstream.fecSets, hflush]
  · refine hj.imp ?_ id
    rintro ⟨rfl, rfl⟩
    refine ⟨rfl, hcursor.resolve_left fun hstop => ?_⟩
    have hlt := hwait'.cursor_lt hr.toAligned hk
    simp only at hlt
    omega

end Follows

/-! ## Sequences of pushes -/

/-- A call of `push_data` with a shred of the slot, no batch being stuck. -/
def Pushes {w : Wincode} (S : Slot w) (cfg : AccumulatorConfig) (c : Clock × Call) : Prop :=
  (∃ a, c.2 = .data a ∧ S.Genuine a) ∧ ∀ b t, c.1.elapsed b t < cfg.stuckBatchTimeout

/-- The indices given to `push_data`, in order. -/
def pushed (calls : List (Clock × Call)) : List ℕ :=
  calls.filterMap fun c =>
    match c.2 with
    | .data a => some a.index
    | _ => none

theorem pushed_append (calls calls' : List (Clock × Call)) :
    pushed (calls ++ calls') = pushed calls ++ pushed calls' := List.filterMap_append

theorem pushed_data (c : Clock × Call) {a : DataArgs} (h : c.2 = .data a) :
    pushed [c] = [a.index] := by
  simp [pushed, h]

/-- At some point of `order` a shred is stored for the first time whose index is
    `b` or more, everything below `b` having arrived before. -/
def Resumes {w : Wincode} (S : Slot w) (order : List ℕ) (b : ℕ) : Prop :=
  ∃ pre i post, order = pre ++ i :: post ∧ b ≤ i ∧ S.Stored i ∧ i ∉ pre ∧ ∀ j < b, j ∈ pre

theorem Resumes.before {order : List ℕ} {b : ℕ} (h : S.Resumes order b) : ∀ j < b, j ∈ order := by
  obtain ⟨pre, i, post, rfl, -, -, -, hall⟩ := h
  exact fun j hj => List.mem_append_left _ (hall j hj)

theorem resumes_concat {order : List ℕ} {n b : ℕ} :
    S.Resumes (order ++ [n]) b ↔
      S.Resumes order b ∨ (b ≤ n ∧ S.Stored n ∧ n ∉ order ∧ ∀ j < b, j ∈ order) := by
  constructor
  · rintro ⟨pre, i, post, heq, hi⟩
    rcases List.eq_nil_or_concat post with rfl | ⟨post, m, rfl⟩
    · obtain ⟨rfl, hin⟩ := List.append_inj' heq rfl
      cases hin
      exact .inr hi
    · rw [List.concat_eq_append, ← List.cons_append, ← List.append_assoc] at heq
      obtain ⟨rfl, -⟩ := List.append_inj' heq rfl
      exact .inl ⟨pre, i, post, rfl, hi⟩
  · rintro (⟨pre, i, post, rfl, hi⟩ | hn)
    · exact ⟨pre, i, post ++ [n], by simp, hi⟩
    · exact ⟨order, n, [], rfl, hn⟩

/-- The number of leading batches all of whose shreds are in `D`. -/
def completeBatches {w : Wincode} (S : Slot w) (D : List ℕ) : ℕ :=
  Nat.findGreatest (fun k => ∀ i < S.start k, i ∈ D) S.batches

theorem Follows.eq_completeBatches (h : S.Follows cfg D k acc out) (hwait : S.Waiting k acc)
    {l : List ℕ} (hl : ∀ i, i ∈ l ↔ D i ∧ S.Stored i) : k = S.completeBatches l := by
  symm
  rw [completeBatches, Nat.findGreatest_eq_iff]
  refine ⟨h.k_le, fun _ i hi => (hl i).mpr (h.before i hi), fun n hkn hn hall => ?_⟩
  obtain ⟨i, h1, h2, hi⟩ := hwait (by omega)
  have := S.start_mono (show k + 1 ≤ n by omega) hn
  obtain ⟨hD, hst⟩ := (hl i).mp (hall i (by omega))
  exact hi ((h.mem_pending i).mpr ⟨hD, hst, h1⟩)

/-- Whatever the order of arrival, with losses and duplicates: the accumulator
    waits for the first batch that is not complete, it has returned the ledger
    before that batch and what streaming made of it, and streaming has reached
    the first gap if a shred arrived after the batches before were complete. -/
theorem deliver_follows (hw : env.wincode.Lawful) (S : Slot env.wincode) (cfg : AccumulatorConfig)
    (cache : ReedSolomonCache C) {calls : List (Clock × Call)} (hcalls : ∀ c ∈ calls, S.Pushes cfg c)
    {fuel : ℕ} (hfuel : 2 ^ 32 < fuel) :
    ∃ r, runCalls env fuel (.fresh cfg cache) calls = some r ∧
      ∃ k, S.Follows cfg (· ∈ pushed calls) k r.acc r.out ∧ S.Waiting k r.acc ∧
        (S.Resumes (pushed calls) (S.start k) → r.acc.streamingCursor ∉ r.acc.pending) ∧
        (¬S.Resumes (pushed calls) (S.start k) → r.acc.streamingCursor = S.start k) := by
  refine runCalls_total
    (fun pre s => ∃ k, S.Follows cfg (· ∈ pushed pre) k s.acc s.out ∧ S.Waiting k s.acc ∧
        (S.Resumes (pushed pre) (S.start k) → s.acc.streamingCursor ∉ s.acc.pending) ∧
        (¬S.Resumes (pushed pre) (S.start k) → s.acc.streamingCursor = S.start k))
    (S.Pushes cfg) ?_ calls [] (.fresh cfg cache) ?_ hcalls
  · rintro pre s c ⟨k, hs, hwait, hres, hnres⟩ ⟨⟨a, hc, ha⟩, htime⟩
    obtain ⟨r, hrun, j, hkj, hr, hwait', hcases⟩ :=
      hs.pushData hw hwait ha c.1 htime hfuel s.cache
    have hpushed : pushed (pre ++ [c]) = pushed pre ++ [a.index] := by
      rw [pushed_append, pushed_data c hc]
    refine ⟨r, by rw [hc]; exact hrun, j, ?_, hwait', ?_⟩
    · have hD : (· ∈ pushed (pre ++ [c])) = fun i => i ∈ pushed pre ∨ i = a.index := by
        funext i
        rw [hpushed]
        simp
      rw [hD]
      exact hr
    rw [hpushed, resumes_concat]
    rcases hcases with ⟨hn, rfl, hcur, hpend⟩ | ⟨hn, ⟨rfl, hcur⟩ | ⟨hlt, hcur⟩⟩
    · -- nothing was stored
      simp only [hcur, hpend]
      refine ⟨fun h => hres (h.resolve_right fun h' => hn ⟨h'.2.1, h'.1, h'.2.2.1⟩), fun h => ?_⟩
      exact hnres fun h' => h (.inl h')
    · refine ⟨fun _ => hcur, fun h => ?_⟩
      exact absurd (.inr ⟨hn.2.1, hn.1, hn.2.2, fun i hi => (hs.before i hi).1⟩) h
    · -- the shred completed batch `k`, so not all before batch `j` was there
      refine ⟨fun h => ?_, fun _ => hcur⟩
      have hall : ∀ i < S.start j, i ∈ pushed pre := h.elim Resumes.before fun h' => h'.2.2.2
      obtain ⟨i, h1, h2, hi⟩ := hwait (show k < S.batches by have := hr.k_le; omega)
      have := S.start_mono (show k + 1 ≤ j by omega) hr.k_le
      exact absurd ((hs.mem_pending i).mpr ⟨hall i (by omega), (hr.before i (by omega)).2, h1⟩) hi
  · refine ⟨0, ?_, fun hk => ?_, ?_, fun _ => ?_⟩
    · simpa [pushed, CallState.fresh] using S.follows_withConfig cfg
    · exact S.waiting_withConfig cfg hk
    · rintro ⟨pre, i, post, heq, -⟩
      simp [pushed] at heq
    · rw [S.start_zero]
      rfl

end Slot

end ShredStream
