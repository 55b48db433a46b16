import ShredStream.Accumulator.Calls
import ShredStream.Wire.Recovery

/-!
# The Reed-Solomon cache is transparent

All accumulators of a listener share one cache of codecs. What a call makes of
an accumulator and what it returns is the same with any two caches whose codecs
were built by the crate, so the slots do not influence each other through it.

* `tryReconstruct_anyCache`: the packets rebuilt do not depend on the cache.
* `call_anyCache`: nor does what a call on an accumulator does.
-/

namespace ShredStream

variable {C : Type}

open ReedSolomonCache

theorem ReedSolomonCache.valid_empty (rs : ReedSolomonCrate C) :
    ({} : ReedSolomonCache C).Valid rs := by
  intro e he
  cases he

/-- What `try_reconstruct` gives does not depend on what was cached. -/
theorem FecSetBuffer.tryReconstruct_anyCache {rs : ReedSolomonCrate C} (fec : FecSetBuffer)
    (shards : List (ℕ × Bytes)) {cache cache' : ReedSolomonCache C} (h : cache.Valid rs)
    (h' : cache'.Valid rs) :
    (fec.tryReconstruct rs shards cache).2 = (fec.tryReconstruct rs shards cache').2 ∧
      (fec.tryReconstruct rs shards cache).1.Valid rs := by
  obtain ⟨hget, hvalid⟩ := h.getOrBuild fec.numData fec.numCoding
  obtain ⟨hget', -⟩ := h'.getOrBuild fec.numData fec.numCoding
  unfold tryReconstruct
  split_ifs with hempty
  · exact ⟨rfl, h⟩
  split
  · simp only
    split_ifs with hfew
    · exact ⟨rfl, h⟩
    generalize cache.getOrBuild rs fec.numData fec.numCoding = g at hget hvalid
    generalize cache'.getOrBuild rs fec.numData fec.numCoding = g' at hget'
    obtain ⟨c₁, o₁⟩ := g
    obtain ⟨c₂, o₂⟩ := g'
    simp only at hget hget'
    subst hget hget'
    cases rs.new fec.numData fec.numCoding with
    | none => exact ⟨rfl, hvalid⟩
    | some codec =>
      simp only
      split
      · exact ⟨rfl, hvalid⟩
      · exact ⟨rfl, hvalid⟩
  · exact ⟨rfl, h⟩

namespace SlotAccumulator

variable {env : Env C} {clock : Clock}

/-- The same accumulator and output, with caches that may differ. -/
structure SameButCache (rs : ReedSolomonCrate C) (s s' : CallState C) : Prop where
  acc : s.acc = s'.acc
  out : s.out = s'.out
  left : s.cache.Valid rs
  right : s'.cache.Valid rs

section

variable {cache cache' : ReedSolomonCache C}

theorem tryFecFill_valid (clock : Clock) (h : cache.Valid env.reedSolomon)
    (acc : SlotAccumulator) (hint : ℕ) :
    (acc.tryFecFill env clock cache hint).2.1.Valid env.reedSolomon := by
  unfold tryFecFill
  split
  · exact h
  split
  · exact h
  rename_i setIdx _ _ fec _
  split_ifs
  · exact h
  have hvalid := (fec.tryReconstruct_anyCache (acc.dataRefs setIdx fec.numData) h h).2
  generalize
    fec.tryReconstruct env.reedSolomon (acc.dataRefs setIdx fec.numData) cache = r at hvalid
  obtain ⟨c, o⟩ := r
  cases o with
  | none => exact hvalid
  | some recovered =>
    simp only
    split_ifs
    · exact hvalid
    · exact hvalid

theorem tryFecFill_anyCache (clock : Clock) (h : cache.Valid env.reedSolomon)
    (h' : cache'.Valid env.reedSolomon) (acc : SlotAccumulator) (hint : ℕ) :
    (acc.tryFecFill env clock cache hint).1 = (acc.tryFecFill env clock cache' hint).1 ∧
      (acc.tryFecFill env clock cache hint).2.2 = (acc.tryFecFill env clock cache' hint).2.2 := by
  unfold tryFecFill
  split
  · exact ⟨rfl, rfl⟩
  split
  · exact ⟨rfl, rfl⟩
  rename_i setIdx _ _ fec _
  split_ifs
  · exact ⟨rfl, rfl⟩
  have hsame := (fec.tryReconstruct_anyCache (acc.dataRefs setIdx fec.numData) h h').1
  generalize
    fec.tryReconstruct env.reedSolomon (acc.dataRefs setIdx fec.numData) cache = r at hsame
  generalize
    fec.tryReconstruct env.reedSolomon (acc.dataRefs setIdx fec.numData) cache' = r' at hsame
  obtain ⟨c, o⟩ := r
  obtain ⟨c', o'⟩ := r'
  simp only at hsame
  subst hsame
  cases o with
  | none => exact ⟨rfl, rfl⟩
  | some recovered =>
    simp only
    split_ifs
    · exact ⟨rfl, rfl⟩
    · exact ⟨rfl, rfl⟩

theorem fillHints_anyCache (clock : Clock) (h : cache.Valid env.reedSolomon)
    (h' : cache'.Valid env.reedSolomon) (acc : SlotAccumulator) (hints : List ℕ) :
    (fillHints env clock acc cache hints).1 = (fillHints env clock acc cache' hints).1 ∧
      (fillHints env clock acc cache hints).2.Valid env.reedSolomon ∧
      (fillHints env clock acc cache' hints).2.Valid env.reedSolomon := by
  induction hints generalizing acc cache cache' with
  | nil => exact ⟨rfl, h, h'⟩
  | cons hint hints ih =>
    have hsame := (tryFecFill_anyCache clock h h' acc hint).1
    obtain ⟨hfill, hl, hr⟩ := ih (tryFecFill_valid clock h acc hint)
      (tryFecFill_valid clock h' acc hint) (acc.tryFecFill env clock cache hint).1
    refine ⟨?_, hl, ?_⟩
    · show _ = (fillHints env clock (acc.tryFecFill env clock cache' hint).1 _ hints).1
      rw [← hsame]
      exact hfill
    · show (fillHints env clock (acc.tryFecFill env clock cache' hint).1 _ hints).2.Valid _
      rw [← hsame]
      exact hr

end

/-! ## The flush -/

theorem flushBody_anyCache (fuel : ℕ) {s s' : CallState C}
    (h : SameButCache env.reedSolomon s s') :
    Option.Rel (Sum.LiftRel (SameButCache env.reedSolomon) (SameButCache env.reedSolomon))
      (flushBody env clock fuel s) (flushBody env clock fuel s') := by
  obtain ⟨acc, cache, out⟩ := s
  obtain ⟨acc', cache', out'⟩ := s'
  obtain ⟨rfl, rfl, hl, hr⟩ := h
  simp only at hl hr
  unfold flushBody
  simp only
  split
  · exact .some (.inr ⟨rfl, rfl, hl, hr⟩)
  rename_i bcIdx firstSeen _
  have hfill : (acc.flushFill env clock cache bcIdx).1 = (acc.flushFill env clock cache' bcIdx).1 ∧
      (acc.flushFill env clock cache bcIdx).2.Valid env.reedSolomon ∧
      (acc.flushFill env clock cache' bcIdx).2.Valid env.reedSolomon := by
    unfold flushFill
    split_ifs
    · exact fillHints_anyCache clock hl hr acc _
    · exact ⟨rfl, hl, hr⟩
  generalize acc.flushFill env clock cache bcIdx = f at hfill
  generalize acc.flushFill env clock cache' bcIdx = f' at hfill
  obtain ⟨acc₁, c₁⟩ := f
  obtain ⟨acc₂, c₂⟩ := f'
  obtain ⟨rfl, h₁, h₂⟩ := hfill
  simp only
  split_ifs
  · -- the salvage does not look at the cache
    cases acc₁.salvageContiguousRunsIn env fuel acc.batchStart bcIdx out with
    | none => exact .none
    | some r => exact .some (.inl ⟨rfl, rfl, h₁, h₂⟩)
  · exact .some (.inr ⟨rfl, rfl, h₁, h₂⟩)
  · exact .some (.inl ⟨rfl, rfl, h₁, h₂⟩)

theorem tryFlushBatches_anyCache (clock : Clock) (acc : SlotAccumulator)
    {cache cache' : ReedSolomonCache C} (h : cache.Valid env.reedSolomon)
    (h' : cache'.Valid env.reedSolomon) (fuel : ℕ) (out : List VersionedTransaction) :
    Option.Rel (SameButCache env.reedSolomon) (acc.tryFlushBatches env clock fuel cache out)
      (acc.tryFlushBatches env clock fuel cache' out) :=
  FuelLoop.run_rel _ _ (fun _ _ hs => flushBody_anyCache fuel hs) fuel _ _ ⟨rfl, rfl, h, h'⟩

/-! ## The calls -/

theorem pushData_anyCache (acc : SlotAccumulator) {cache cache' : ReedSolomonCache C}
    (h : cache.Valid env.reedSolomon) (h' : cache'.Valid env.reedSolomon) (fuel : ℕ)
    (a : DataArgs) :
    Option.Rel (SameButCache env.reedSolomon) (acc.pushData env clock fuel cache a)
      (acc.pushData env clock fuel cache' a) := by
  unfold pushData
  split_ifs
  · have hflush := tryFlushBatches_anyCache clock (acc.completeSlot a.index) h h' fuel []
    generalize (acc.completeSlot a.index).tryFlushBatches env clock fuel cache [] = o at hflush
    generalize (acc.completeSlot a.index).tryFlushBatches env clock fuel cache' [] = o' at hflush
    cases hflush with
    | none => exact .none
    | some hs => exact .some ⟨congrArg (dropHandle · a.handle) hs.acc, hs.out, hs.left, hs.right⟩
  · exact .some ⟨rfl, rfl, h, h'⟩
  · exact .some ⟨rfl, rfl, h, h'⟩
  · cases (acc.insertData clock a).advanceStreaming env fuel [] with
    | none => exact .none
    | some s =>
      obtain ⟨acc₁, out₁⟩ := s
      simp only [Option.bind_eq_bind, Option.bind_some]
      by_cases hcur : acc₁.streamingCursor ≤ a.index
      · rw [if_pos hcur, if_pos hcur]
        have hsame := tryFecFill_anyCache clock h h' acc₁ a.fecSetIndex
        have hl := tryFecFill_valid clock h acc₁ a.fecSetIndex
        have hr := tryFecFill_valid clock h' acc₁ a.fecSetIndex
        generalize acc₁.tryFecFill env clock cache a.fecSetIndex = f at hsame hl
        generalize acc₁.tryFecFill env clock cache' a.fecSetIndex = f' at hsame hr
        obtain ⟨acc₂, c₂, filled⟩ := f
        obtain ⟨acc₃, c₃, filled'⟩ := f'
        obtain ⟨rfl, rfl⟩ := hsame
        simp only
        split_ifs
        · cases acc₂.advanceStreaming env fuel out₁ with
          | none => exact .none
          | some t => exact tryFlushBatches_anyCache clock t.1 hl hr fuel t.2
        · exact tryFlushBatches_anyCache clock acc₂ hl hr fuel out₁
      · rw [if_neg hcur, if_neg hcur]
        exact tryFlushBatches_anyCache clock acc₁ h h' fuel out₁

theorem pushCode_anyCache (acc : SlotAccumulator) {cache cache' : ReedSolomonCache C}
    (h : cache.Valid env.reedSolomon) (h' : cache'.Valid env.reedSolomon) (fuel : ℕ)
    (a : CodeArgs) :
    Option.Rel (SameButCache env.reedSolomon) (acc.pushCode env clock fuel cache a)
      (acc.pushCode env clock fuel cache' a) := by
  unfold pushCode
  have hsame := tryFecFill_anyCache clock h h' (acc.recordCode a) a.fecSetIndex
  have hl := tryFecFill_valid clock h (acc.recordCode a) a.fecSetIndex
  have hr := tryFecFill_valid clock h' (acc.recordCode a) a.fecSetIndex
  generalize (acc.recordCode a).tryFecFill env clock cache a.fecSetIndex = f at hsame hl
  generalize (acc.recordCode a).tryFecFill env clock cache' a.fecSetIndex = f' at hsame hr
  obtain ⟨acc₂, c₂, filled⟩ := f
  obtain ⟨acc₃, c₃, filled'⟩ := f'
  obtain ⟨rfl, rfl⟩ := hsame
  simp only
  split_ifs
  · cases acc₂.advanceStreaming env fuel [] with
    | none => exact .none
    | some t => exact tryFlushBatches_anyCache clock t.1 hl hr fuel t.2
  · exact tryFlushBatches_anyCache clock acc₂ hl hr fuel []

theorem tryHarvestTail_anyCache (acc : SlotAccumulator) {cache cache' : ReedSolomonCache C}
    (h : cache.Valid env.reedSolomon) (h' : cache'.Valid env.reedSolomon) (fuel : ℕ) :
    Option.Rel (SameButCache env.reedSolomon) (acc.tryHarvestTail env clock fuel cache)
      (acc.tryHarvestTail env clock fuel cache') := by
  unfold tryHarvestTail
  obtain ⟨hsame, hl, hr⟩ := fillHints_anyCache clock h h' acc acc.fecSets.keys
  generalize fillHints env clock acc cache acc.fecSets.keys = f at hsame hl
  generalize fillHints env clock acc cache' acc.fecSets.keys = f' at hsame hr
  obtain ⟨acc₁, c₁⟩ := f
  obtain ⟨acc₂, c₂⟩ := f'
  simp only at hsame
  subst hsame
  simp only [Option.bind_eq_bind]
  generalize harvestBoundaries env fuel acc₁ [] _ = o
  cases o with
  | none => exact .none
  | some t => exact .some ⟨rfl, rfl, hl, hr⟩

/-- A call leaves the same accumulator and returns the same transactions whatever
    codecs are cached, or returns with neither cache. -/
theorem call_anyCache (clock : Clock) (acc : SlotAccumulator) {cache cache' : ReedSolomonCache C}
    (h : cache.Valid env.reedSolomon) (h' : cache'.Valid env.reedSolomon) (fuel : ℕ) (c : Call) :
    Option.Rel (SameButCache env.reedSolomon) (acc.call env clock fuel cache c)
      (acc.call env clock fuel cache' c) := by
  cases c with
  | data a => exact pushData_anyCache acc h h' fuel a
  | code a => exact pushCode_anyCache acc h h' fuel a
  | harvest => exact tryHarvestTail_anyCache acc h h' fuel

/-- What a call gives with one cache it gives with any other. -/
theorem call_withCache {acc : SlotAccumulator} {cache cache' : ReedSolomonCache C}
    (h : cache.Valid env.reedSolomon) (h' : cache'.Valid env.reedSolomon) {fuel : ℕ} {c : Call}
    {r : CallState C} (hr : acc.call env clock fuel cache c = some r) :
    r.cache.Valid env.reedSolomon ∧
      ∃ r', acc.call env clock fuel cache' c = some r' ∧ r'.acc = r.acc ∧ r'.out = r.out := by
  have hsame := call_anyCache clock acc h h' fuel c
  rw [hr] at hsame
  generalize acc.call env clock fuel cache' c = o' at hsame
  cases hsame with
  | some hs => exact ⟨hs.left, _, rfl, hs.acc.symm, hs.out.symm⟩

end SlotAccumulator

end ShredStream
