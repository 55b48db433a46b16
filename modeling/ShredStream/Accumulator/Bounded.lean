import ShredStream.Accumulator.Flush
import ShredStream.Decoder.Streaming

/-!
# Termination of the accumulator's loops

`Bounded acc`: no shred and no boundary is at index `u32::MAX`, and no FEC set
reaches it. Then every iteration of every loop moves `streaming_cursor`,
`batch_start` or the salvage cursor forward (`Bounded.advances`), and all calls
return (`Bounded.pushData`, `Bounded.pushCode`, `Bounded.tryHarvestTail`).
-/

namespace ShredStream

namespace SlotAccumulator

/-- Nothing the accumulator holds, or could recover, is at index `u32::MAX`. -/
structure Bounded (acc : SlotAccumulator) : Prop where
  pending : ∀ i ∈ acc.pending, i < u32Max
  boundary : ∀ i ∈ acc.batchCompleteIndices, i < u32Max
  fecSets : ∀ setIdx (fec : FecSetBuffer), acc.fecSets[setIdx]? = some fec →
    setIdx + fec.numData ≤ u32Max
  decoder : acc.streamingDecoder.cursor ≤ acc.streamingDecoder.buffer.length
  batchStart_le : acc.batchStart ≤ u32Max
  cursor_le : acc.streamingCursor ≤ u32Max

theorem bounded_withConfig (cfg : AccumulatorConfig) : (withConfig cfg).Bounded where
  pending i h := by simp [withConfig] at h
  boundary i h := by simp [withConfig] at h
  fecSets i fec h := by simp [withConfig] at h
  decoder := le_rfl
  batchStart_le := Nat.zero_le _
  cursor_le := Nat.zero_le _

/-- The index of a data shred does not reach `u32::MAX`, or is not stored. -/
def DataArgs.InRange (a : DataArgs) : Prop := a.lastInSlot = true ∨ a.index < u32Max

/-- The set of a code shred does not reach `u32::MAX`. -/
def CodeArgs.InRange (a : CodeArgs) : Prop := a.fecSetIndex + a.numData ≤ u32Max

variable {C : Type} {env : Env C} {acc : SlotAccumulator}

namespace Bounded

/-! ## What keeps the bounds -/

theorem record (h : acc.Bounded) (txs : List VersionedTransaction) (counters : Counters) :
    Bounded { acc.record txs with counters } := { h with }

theorem dropHandle (h : acc.Bounded) (b : BufferHandle) : (acc.dropHandle b).Bounded := { h with }

theorem completeSlot (h : acc.Bounded) (index : ℕ) : (acc.completeSlot index).Bounded := { h with }

/-- Storing a shred below `u32::MAX`, received or recovered. -/
theorem store (h : acc.Bounded) {idx : ℕ} (hidx : idx < u32Max) (ps : PendingShred) (flag : Bool)
    (now : ℕ) : Bounded { acc with
      pending := acc.pending.insert idx ps
      batchCompleteIndices :=
        if flag then acc.batchCompleteIndices.insertIfNew idx now else acc.batchCompleteIndices } :=
  { h with
    pending := fun i hi => by
      rcases Std.ExtTreeMap.mem_insert.mp hi with heq | hi
      · rwa [← Nat.compare_eq_eq.mp heq]
      · exact h.pending i hi
    boundary := fun i hi => by
      simp only at hi
      split_ifs at hi
      · rcases Std.ExtTreeMap.mem_insertIfNew.mp hi with heq | hi
        · rwa [← Nat.compare_eq_eq.mp heq]
        · exact h.boundary i hi
      · exact h.boundary i hi }

theorem insertData (h : acc.Bounded) (clock : Clock) {a : DataArgs} (ha : a.index < u32Max) :
    (acc.insertData clock a).Bounded := h.store ha _ _ _

theorem completeBatch (h : acc.Bounded) (bcIdx : ℕ) : (acc.completeBatch bcIdx).Bounded where
  pending i hi := h.pending i ((mem_completeBatch_pending _).mp hi).1
  boundary i hi := h.boundary i ((mem_completeBatch_boundaries _).mp hi).1
  fecSets i fec hfec := h.fecSets i fec ((BTreeMap.getElem?_filter_eq _).mp hfec).1
  decoder := le_rfl
  batchStart_le := satAdd32_le _ _
  cursor_le := max_le h.cursor_le (satAdd32_le _ _)

theorem finalise (h : acc.Bounded) (txs : List VersionedTransaction) (counters : Counters)
    (bcIdx : ℕ) : (acc.finalise txs counters bcIdx).Bounded :=
  (h.record txs counters).completeBatch bcIdx

theorem recordCode (h : acc.Bounded) {a : CodeArgs} (ha : a.InRange) :
    (acc.recordCode a).Bounded := by
  have hsets : ∀ i (fec : FecSetBuffer), (acc.recordCode a).fecSets[i]? = some fec →
      i + fec.numData ≤ u32Max := by
    intro i fec hfec
    rw [CodeArgs.InRange] at ha
    rcases acc.getElem?_recordCode hfec with ⟨-, hold⟩ | ⟨rfl, rfl⟩
    · exact h.fecSets i fec hold
    · simp only [FecSetBuffer.recordCode]
      split_ifs
      · exact ha
      · cases hget : acc.fecSets[a.fecSetIndex]? with
        | none =>
          simp only [Option.getD_none, FecSetBuffer.new]
          omega
        | some fec => exact h.fecSets _ fec hget
  obtain ⟨fecSets, counters, heq, -⟩ := acc.recordCode_cases a
  rw [heq] at hsets ⊢
  exact { h with fecSets := hsets }

theorem tryFecFill (env : Env C) (h : acc.Bounded) (clock : Clock) (cache : ReedSolomonCache C)
    (hint : ℕ) : (acc.tryFecFill env clock cache hint).1.Bounded := by
  apply tryFecFill_invariant env acc clock cache hint h
  · intro setIdx fec cache' recovered r acc₁ acc₂ hfec hrec hr h₁ hinserts
    have hset := h.fecSets _ fec hfec
    have hpos := FecSetBuffer.pos_lt_of_tryReconstruct hrec r hr
    have hidx : wrapAdd32 setIdx r.1 < u32Max := by
      rw [wrapAdd32_of_lt (by unfold u32Max at hset; omega)]
      omega
    cases hinserts with
    | skip => exact h₁
    | last => exact h₁.completeSlot _
    | store => exact h₁.store hidx _ _ _
  · exact fun _ _ h₁ => { h₁ with }
  · intro acc₁ k h₁
    refine { h₁ with fecSets := fun i fec hfec => ?_ }
    rw [BTreeMap.getElem?_erase_eq] at hfec
    split_ifs at hfec
    exact h₁.fecSets i fec hfec

theorem fillHints (env : Env C) (h : acc.Bounded) (clock : Clock) (cache : ReedSolomonCache C)
    (hints : List ℕ) : (SlotAccumulator.fillHints env clock acc cache hints).1.Bounded := by
  induction hints generalizing acc cache with
  | nil => exact h
  | cons hint hints ih => exact ih (h.tryFecFill env clock cache hint) _

theorem flushFill (env : Env C) (h : acc.Bounded) (clock : Clock) (cache : ReedSolomonCache C)
    (bcIdx : ℕ) : (acc.flushFill env clock cache bcIdx).1.Bounded := by
  unfold SlotAccumulator.flushFill
  split_ifs
  · exact h.fillHints env clock cache _
  · exact h

/-! ## The loops make progress -/

/-- An iteration of `advance_streaming` leaves the loop or moves the cursor. -/
theorem advanceStreamingBody_cases (h : acc.Bounded) (hw : env.wincode.Lawful) {fuel : ℕ}
    (hfuel : 2 ^ 32 < fuel) (out : List VersionedTransaction) :
    (∃ r, SlotAccumulator.advanceStreamingBody env fuel (acc, out) = some (.inr r) ∧
      r.1.Bounded) ∨
    ∃ s, SlotAccumulator.advanceStreamingBody env fuel (acc, out) = some (.inl s) ∧
      s.1.Bounded ∧ acc.streamingCursor < s.1.streamingCursor := by
  unfold SlotAccumulator.advanceStreamingBody
  simp only
  cases hps : acc.pending[acc.streamingCursor]? with
  | none => exact .inl ⟨_, rfl, h⟩
  | some ps =>
    have hlt := h.pending _ (acc.pending.mem_iff_getElem?.mpr ⟨ps, hps⟩)
    have hsat := satAdd32_of_lt hlt
    simp only
    by_cases hr : ps.source.isRecovered
    · rw [if_pos hr]
      exact .inl ⟨_, rfl, h⟩
    rw [if_neg hr]
    cases hpay : ps.payload with
    | none =>
      -- the shred is dropped
      refine .inr ?_
      simp only [hsat]
      generalize hacc' : ({ acc with
          pending := acc.pending.erase acc.streamingCursor
          batchCompleteIndices :=
            if ps.batchComplete then acc.batchCompleteIndices.erase acc.streamingCursor
            else acc.batchCompleteIndices
          streamingCursor := acc.streamingCursor + 1
          counters := { acc.counters with
            decodeErrors := satAdd32 acc.counters.decodeErrors 1 }
          dropped := acc.dropped ++ ps.source.bufferIdx.toList } : SlotAccumulator) = acc'
      have hb : acc'.Bounded := by
        rw [← hacc']
        refine { h with pending := fun i hi => ?_, boundary := fun i hi => ?_, cursor_le := hlt }
        · exact h.pending i (Std.ExtTreeMap.mem_of_mem_erase hi)
        · simp only at hi
          split_ifs at hi
          · exact h.boundary i (Std.ExtTreeMap.mem_of_mem_erase hi)
          · exact h.boundary i hi
      have hcur : acc'.streamingCursor = acc.streamingCursor + 1 := by rw [← hacc']
      by_cases hdone : ps.batchComplete = true ∧ acc.streamingCursor > acc.batchStart
      · rw [if_pos hdone]
        simp only [acc'.salvage_eq env (show acc.streamingCursor - 1 < u32Max by omega) hfuel out,
          Option.bind_eq_bind, Option.bind_some]
        refine ⟨_, rfl, completeBatch (h := ?_) _, ?_⟩
        · exact { hb with }
        · show acc.streamingCursor < max acc'.streamingCursor _
          omega
      · rw [if_neg hdone]
        exact ⟨_, rfl, hb, by simp only; omega⟩
    | some payload =>
      obtain ⟨decoder, result, hpush, hdec⟩ :=
        StreamingDecoder.push_total hw h.decoder payload
      simp only [hpush, Option.bind_eq_bind, Option.bind_some, hsat]
      have hb : Bounded { acc with
          streamingDecoder := decoder, streamingCursor := acc.streamingCursor + 1 } :=
        { h with decoder := hdec, cursor_le := hlt }
      cases result with
      | error err => exact .inl ⟨_, rfl, { hb with decoder := le_rfl }⟩
      | ok txs =>
        simp only [recordAll_eq]
        by_cases hc : ps.batchComplete
        · rw [if_pos hc]
          exact .inl ⟨_, rfl, { hb with }⟩
        · rw [if_neg hc]
          exact .inr ⟨_, rfl, { hb with }, Nat.lt_succ_self _⟩

theorem advanceStreaming (h : acc.Bounded) (hw : env.wincode.Lawful) {fuel : ℕ}
    (hfuel : 2 ^ 32 < fuel) (out : List VersionedTransaction) :
    ∃ acc' out', acc.advanceStreaming env fuel out = some (acc', out') ∧ acc'.Bounded := by
  suffices hrun : ∃ r, FuelLoop.run (SlotAccumulator.advanceStreamingBody env fuel) fuel
      (acc, out) = some r ∧ r.1.Bounded by
    obtain ⟨⟨acc', out'⟩, hr, hb⟩ := hrun
    exact ⟨acc', out', hr, hb⟩
  refine FuelLoop.run_total (fun s => s.1.Bounded) _ (fun s => u32Max - s.1.streamingCursor) ?_ fuel
    (acc, out) h (by unfold u32Max; simp only; omega)
  rintro ⟨acc', out'⟩ hs
  rcases hs.advanceStreamingBody_cases hw hfuel out' with ⟨r, hbody, hr⟩ | ⟨s', hbody, hs', hlt⟩
  · exact .inr ⟨r, hbody, hr⟩
  · have := hs'.cursor_le
    exact .inl ⟨s', hbody, hs', by simp only at hlt ⊢; omega⟩

/-- An iteration of `try_flush_batches` leaves the loop or moves the batch start. -/
theorem flushBody_cases (env : Env C) {s : CallState C} (h : s.acc.Bounded) (clock : Clock) {fuel : ℕ}
    (hfuel : 2 ^ 32 < fuel) :
    (∃ r, flushBody env clock fuel s = some (.inr r) ∧ r.acc.Bounded) ∨
    ∃ s', flushBody env clock fuel s = some (.inl s') ∧ s'.acc.Bounded ∧
      s.acc.batchStart < s'.acc.batchStart := by
  rcases SlotAccumulator.flushBody_cases env clock hfuel s h.boundary with
    ⟨-, hbody⟩ | ⟨bcIdx, t, acc', cache', hfirst, hfill, hcases⟩
  · exact .inl ⟨s, hbody, h⟩
  obtain ⟨hbc, hge, -⟩ := BTreeMap.firstFrom_spec _ hfirst
  have hlt := h.boundary bcIdx (s.acc.batchCompleteIndices.mem_iff_getElem?.mpr ⟨t, hbc⟩)
  have hfilled : acc'.Bounded := by
    have := h.flushFill env clock s.cache bcIdx
    rwa [hfill] at this
  have hmove : ∀ txs counters, s.acc.batchStart < (acc'.finalise txs counters bcIdx).batchStart := by
    intro txs counters
    show _ < satAdd32 bcIdx 1
    rw [satAdd32_of_lt hlt]
    omega
  rcases hcases with ⟨-, -, hbody⟩ | ⟨-, -, counters, hbody⟩ | ⟨-, counters, hbody⟩
  · exact .inl ⟨_, hbody, hfilled⟩
  · exact .inr ⟨_, hbody, hfilled.finalise _ _ _, hmove _ _⟩
  · exact .inr ⟨_, hbody, hfilled.finalise _ _ _, hmove _ _⟩

theorem tryFlushBatches (env : Env C) (h : acc.Bounded) (clock : Clock) {fuel : ℕ} (hfuel : 2 ^ 32 < fuel)
    (cache : ReedSolomonCache C) (out : List VersionedTransaction) :
    ∃ r, acc.tryFlushBatches env clock fuel cache out = some r ∧ r.acc.Bounded := by
  refine FuelLoop.run_total (fun s : CallState C => s.acc.Bounded) _
    (fun s => u32Max - s.acc.batchStart) ?_ fuel ⟨acc, cache, out⟩ h
    (by unfold u32Max; simp only; omega)
  intro s hs
  rcases hs.flushBody_cases env clock hfuel with ⟨r, hbody, hr⟩ | ⟨s', hbody, hs', hlt⟩
  · exact .inr ⟨r, hbody, hr⟩
  · have := hs'.batchStart_le
    exact .inl ⟨s', hbody, hs', by omega⟩

/-! ## The calls return -/

theorem pushData (h : acc.Bounded) (hw : env.wincode.Lawful) (clock : Clock) {fuel : ℕ}
    (hfuel : 2 ^ 32 < fuel) (cache : ReedSolomonCache C) {a : DataArgs} (ha : a.InRange) :
    ∃ r, acc.pushData env clock fuel cache a = some r ∧ r.acc.Bounded := by
  unfold SlotAccumulator.pushData
  by_cases hlast : a.lastInSlot
  · rw [if_pos hlast]
    obtain ⟨r, hrun, hr⟩ := (h.completeSlot a.index).tryFlushBatches env clock hfuel cache []
    rw [hrun]
    exact ⟨_, rfl, hr.dropHandle _⟩
  rw [if_neg hlast]
  split_ifs
  · exact ⟨_, rfl, h.dropHandle _⟩
  · exact ⟨_, rfl, h.dropHandle _⟩
  obtain ⟨acc', out, hrun, hb⟩ :=
    (h.insertData clock (ha.resolve_left hlast)).advanceStreaming hw hfuel []
  simp only [hrun, Option.bind_eq_bind, Option.bind_some]
  have hfill := hb.tryFecFill env clock cache a.fecSetIndex
  split_ifs
  · obtain ⟨acc'', out', hrun', hb'⟩ := hfill.advanceStreaming hw hfuel out
    simp only [hrun', Option.bind_some]
    exact hb'.tryFlushBatches env clock hfuel _ _
  · exact hfill.tryFlushBatches env clock hfuel _ _
  · exact hb.tryFlushBatches env clock hfuel _ _

theorem pushCode (env : Env C) (h : acc.Bounded) (hw : env.wincode.Lawful) (clock : Clock) {fuel : ℕ}
    (hfuel : 2 ^ 32 < fuel) (cache : ReedSolomonCache C) {a : CodeArgs} (ha : a.InRange) :
    ∃ r, acc.pushCode env clock fuel cache a = some r ∧ r.acc.Bounded := by
  unfold SlotAccumulator.pushCode
  have hfill := (h.recordCode ha).tryFecFill env clock cache a.fecSetIndex
  simp only
  split_ifs
  · obtain ⟨acc', out', hrun, hb⟩ := hfill.advanceStreaming hw hfuel []
    simp only [hrun, Option.bind_eq_bind, Option.bind_some]
    exact hb.tryFlushBatches env clock hfuel _ _
  · exact hfill.tryFlushBatches env clock hfuel _ _

theorem harvestBoundaries (env : Env C) {fuel : ℕ} (hfuel : 2 ^ 32 < fuel) {bs : List ℕ}
    (hbs : ∀ b ∈ bs, b < u32Max) (h : acc.Bounded) (out : List VersionedTransaction) :
    ∃ acc' out', SlotAccumulator.harvestBoundaries env fuel acc out bs = some (acc', out') ∧
      acc'.Bounded := by
  induction bs generalizing acc out with
  | nil => exact ⟨acc, out, rfl, h⟩
  | cons b bs ih =>
    rw [List.forall_mem_cons] at hbs
    have hnext : ∃ acc' out', acc.harvestBoundary env fuel b out = some (acc', out') ∧
        acc'.Bounded := by
      rcases harvestBoundary_cases env hfuel acc hbs.1 out with
        ⟨-, hrun⟩ | ⟨-, counters, txs, hrun, -⟩
      · exact ⟨_, _, hrun, h⟩
      · exact ⟨_, _, hrun, h.finalise _ _ _⟩
    obtain ⟨acc', out', hrun, h'⟩ := hnext
    simp only [SlotAccumulator.harvestBoundaries, hrun, Option.bind_eq_bind, Option.bind_some]
    exact ih hbs.2 h' out'

theorem tryHarvestTail (env : Env C) (h : acc.Bounded) (clock : Clock) {fuel : ℕ} (hfuel : 2 ^ 32 < fuel)
    (cache : ReedSolomonCache C) :
    ∃ r, acc.tryHarvestTail env clock fuel cache = some r := by
  unfold SlotAccumulator.tryHarvestTail
  have hfill := h.fillHints env clock cache acc.fecSets.keys
  simp only
  generalize SlotAccumulator.fillHints env clock acc cache acc.fecSets.keys = filled at hfill
  obtain ⟨acc', cache'⟩ := filled
  have hbs : ∀ b ∈ ((acc'.pending.toList.filter fun e => e.2.batchComplete).map Prod.fst).filter
      (· ≥ acc'.batchStart), b < u32Max := by
    intro b hb
    obtain ⟨⟨i, ps⟩, hmem, rfl⟩ := List.mem_map.mp (List.mem_filter.mp hb).1
    apply hfill.pending
    exact acc'.pending.mem_iff_getElem?.mpr
      ⟨ps, acc'.pending.mem_toList.mp (List.mem_filter.mp hmem).1⟩
  obtain ⟨acc'', out, hrun, -⟩ := hfill.harvestBoundaries env hfuel hbs []
  simp only [hrun, Option.bind_eq_bind, Option.bind_some]
  exact ⟨_, rfl⟩

end Bounded

/-! ## Progress -/

/-- Every iteration that stays in its loop moves the cursor of the loop, and
    keeps the bounds. -/
structure Advances (env : Env C) (fuel : ℕ) (acc : SlotAccumulator) : Prop where
  streaming : ∀ out s, advanceStreamingBody env fuel (acc, out) = some (.inl s) →
    s.1.Bounded ∧ acc.streamingCursor < s.1.streamingCursor
  flush : ∀ clock cache out s, flushBody env clock fuel ⟨acc, cache, out⟩ = some (.inl s) →
    s.acc.Bounded ∧ acc.batchStart < s.acc.batchStart
  salvage : ∀ endIdx < u32Max, ∀ out n cursor s,
    salvageBody env fuel endIdx ⟨acc, out, n, cursor⟩ = some (.inl s) →
      s.acc.Bounded ∧ cursor < s.cursor
  skip : ∀ endIdx < u32Max, ∀ cursor cursor',
    acc.skipAbsent endIdx cursor = some (.inl cursor') → cursor < cursor'
  gather : ∀ endIdx < u32Max, ∀ s s',
    acc.gatherRun endIdx s = some (.inl s') → s.1 < s'.1

theorem Bounded.advances (h : acc.Bounded) (hw : env.wincode.Lawful) {fuel : ℕ}
    (hfuel : 2 ^ 32 < fuel) : acc.Advances env fuel where
  streaming out s hs := by
    rcases h.advanceStreamingBody_cases hw hfuel out with ⟨r, hbody, -⟩ | ⟨s', hbody, hb, hlt⟩
    · rw [hbody] at hs
      cases hs
    · rw [hbody] at hs
      cases hs
      exact ⟨hb, hlt⟩
  flush clock cache out s hs := by
    have hcases := @Bounded.flushBody_cases _ env ⟨acc, cache, out⟩ h clock fuel hfuel
    rcases hcases with ⟨r, hbody, -⟩ | ⟨s', hbody, hb, hlt⟩
    · rw [hbody] at hs
      cases hs
    · rw [hbody] at hs
      cases hs
      exact ⟨hb, hlt⟩
  salvage endIdx hend out n cursor s hs := by
    rcases salvageBody_cases env hend hfuel ⟨acc, out, n, cursor⟩ with
      ⟨c, hbody, -⟩ | ⟨c, e, h1, h2, -, -, -, -, acc', new, hdec, hbody⟩
    · rw [hbody] at hs
      cases hs
    · rw [hbody] at hs
      cases hs
      rw [decodeRun_eq, recordAll_eq] at hdec
      cases hdec
      exact ⟨{ h with }, lt_of_le_of_lt h1 h2⟩
  skip endIdx hend cursor cursor' hs := by
    unfold skipAbsent at hs
    split_ifs at hs with hle
    · cases hs
      rw [satAdd32_of_lt (by omega)]
      exact Nat.lt_succ_self _
    · cases hs
  gather endIdx hend s s' hs := by
    unfold gatherRun at hs
    split_ifs at hs with hle
    · cases hs
      show s.1 < satAdd32 s.1 1
      rw [satAdd32_of_lt (by omega)]
      exact Nat.lt_succ_self _
    · cases hs

end SlotAccumulator

end ShredStream
