import ShredStream.Accumulator.LostShreds
import ShredStream.Accumulator.Steps

/-!
# The cap on the FEC sets of a slot

Proofs about `accumulator.rs`, lines 206–232. A code shred of a set that is not
recorded makes `push_code` evict the lowest recorded set once
`max_fec_sets_per_slot` sets are there, but only if it is older than the set of the
shred; the set of the shred is recorded in any case.

Results:
* `size_recordCode_le_iff`: recording keeps the cap iff there is room for the set
  (`HasRoom`).
* `call_shrinks`: all a call does after recording only takes sets away, whatever
  the packets hold.
* `fecSets_capped`: a run whose code shreds all find room keeps the cap.
-/

namespace ShredStream.SlotAccumulator

variable {C : Type} {env : Env C} {clock : Clock} {acc acc' : SlotAccumulator}

/-! ## Recording -/

/-- Recording a shred of the set does not exceed the cap: the set is recorded
    already, the cap is not reached, or an older set can be evicted for it. -/
def HasRoom (acc : SlotAccumulator) (a : CodeArgs) : Prop :=
  a.fecSetIndex ∈ acc.fecSets ∨ acc.fecSets.size < acc.cfg.maxFecSetsPerSlot ∨
    ∃ k ∈ acc.fecSets, k < a.fecSetIndex

/-- An older set is recorded iff the lowest recorded set is older. -/
theorem exists_lt_iff {V : Type} {m : BTreeMap V} {oldest k : ℕ} {v : V}
    (h : m.toList.head? = some (oldest, v)) : (∃ i ∈ m, i < k) ↔ oldest < k := by
  have hhead : m.keys.head? = some oldest := by
    rw [← Std.ExtTreeMap.map_fst_toList_eq_keys, List.head?_map, h]
    rfl
  obtain ⟨hmem, hleast⟩ := m.head?_keys_iff.mp hhead
  exact ⟨fun ⟨i, hi, hik⟩ => lt_of_le_of_lt (hleast i hi) hik, fun hlt => ⟨oldest, hmem, hlt⟩⟩

/-- Recording leaves the number of sets as it is: the set is recorded already, or
    the cap is reached and an older set is evicted. -/
def Replaces (acc : SlotAccumulator) (a : CodeArgs) : Prop :=
  a.fecSetIndex ∈ acc.fecSets ∨
    (acc.cfg.maxFecSetsPerSlot ≤ acc.fecSets.size ∧ ∃ k ∈ acc.fecSets, k < a.fecSetIndex)

theorem size_recordCode (acc : SlotAccumulator) (a : CodeArgs) :
    (acc.Replaces a ∧ (acc.recordCode a).fecSets.size = acc.fecSets.size) ∨
    (¬ acc.Replaces a ∧ (acc.recordCode a).fecSets.size = acc.fecSets.size + 1) := by
  unfold recordCode Replaces
  simp only
  by_cases hmem : a.fecSetIndex ∈ acc.fecSets
  · rw [if_neg fun h => h.2 hmem, BTreeMap.size_insert_of_mem _ hmem]
    exact .inl ⟨.inl hmem, rfl⟩
  by_cases hfull : acc.fecSets.size ≥ acc.cfg.maxFecSetsPerSlot
  · rw [if_pos ⟨hfull, hmem⟩]
    cases hhead : acc.fecSets.toList.head? with
    | none =>
      have hno : ¬∃ k ∈ acc.fecSets, k < a.fecSetIndex := by
        rintro ⟨k, hk, -⟩
        obtain ⟨v, hv⟩ := acc.fecSets.mem_iff_getElem?.mp hk
        have hmem := acc.fecSets.mem_toList.mpr hv
        rw [List.head?_eq_none_iff.mp hhead] at hmem
        cases hmem
      simp only
      rw [BTreeMap.size_insert_of_not_mem _ hmem]
      exact .inr ⟨fun h => h.elim hmem fun h => hno h.2, rfl⟩
    | some e =>
      obtain ⟨oldest, fec⟩ := e
      have hget := acc.fecSets.mem_toList.mp (List.mem_of_head? hhead)
      have hold : oldest ∈ acc.fecSets := acc.fecSets.mem_iff_getElem?.mpr ⟨fec, hget⟩
      have hiff : (∃ k ∈ acc.fecSets, k < a.fecSetIndex) ↔ oldest < a.fecSetIndex :=
        exists_lt_iff hhead
      simp only
      by_cases hlt : oldest < a.fecSetIndex
      · have hgone : a.fecSetIndex ∉ acc.fecSets.erase oldest := by
          simp [Std.ExtTreeMap.mem_erase, hmem]
        rw [if_pos hlt]
        simp only
        rw [BTreeMap.size_insert_of_not_mem _ hgone, BTreeMap.size_erase_of_mem _ hold]
        exact .inl ⟨.inr ⟨hfull, hiff.mpr hlt⟩, rfl⟩
      · rw [if_neg hlt, BTreeMap.size_insert_of_not_mem _ hmem]
        exact .inr ⟨fun h => h.elim hmem fun h => hlt (hiff.mp h.2), rfl⟩
  · rw [if_neg fun h => hfull h.1, BTreeMap.size_insert_of_not_mem _ hmem]
    exact .inr ⟨fun h => h.elim hmem fun h => hfull h.1, rfl⟩

/-- A capped accumulator stays capped when a code shred is recorded iff there is
    room for its set. -/
theorem size_recordCode_le_iff (h : acc.fecSets.size ≤ acc.cfg.maxFecSetsPerSlot) (a : CodeArgs) :
    (acc.recordCode a).fecSets.size ≤ acc.cfg.maxFecSetsPerSlot ↔ acc.HasRoom a := by
  unfold HasRoom
  rcases acc.size_recordCode a with ⟨hkeep, hsize⟩ | ⟨hgrow, hsize⟩
  · rw [hsize]
    refine iff_of_true h ?_
    exact hkeep.imp id fun h => .inr h.2
  · rw [hsize]
    constructor
    · exact fun hlt => .inr (.inl hlt)
    · rintro (hmem | hlt | hold)
      · exact absurd (.inl hmem) hgrow
      · exact hlt
      · by_contra hfull
        exact hgrow (.inr ⟨by omega, hold⟩)

theorem recordCode_cfg (acc : SlotAccumulator) (a : CodeArgs) :
    (acc.recordCode a).cfg = acc.cfg := by
  obtain ⟨fecSets, counters, heq, -⟩ := acc.recordCode_cases a
  rw [heq]

/-! ## What only takes sets away -/

/-- No FEC set was added. -/
structure Shrinks (acc acc' : SlotAccumulator) : Prop where
  cfg : acc'.cfg = acc.cfg
  size : acc'.fecSets.size ≤ acc.fecSets.size

namespace Shrinks

theorem refl (acc : SlotAccumulator) : acc.Shrinks acc := ⟨rfl, le_rfl⟩

theorem trans {acc'' : SlotAccumulator} (h : acc.Shrinks acc') (h' : acc'.Shrinks acc'') :
    acc.Shrinks acc'' :=
  ⟨h'.cfg.trans h.cfg, h'.size.trans h.size⟩

/-- Other fields may change freely. -/
theorem of_eq (hcfg : acc'.cfg = acc.cfg) (hsets : acc'.fecSets = acc.fecSets) :
    acc.Shrinks acc' :=
  ⟨hcfg, by rw [hsets]⟩

/-- The cap survives. -/
theorem capped (h : acc.Shrinks acc') (hcap : acc.fecSets.size ≤ acc.cfg.maxFecSetsPerSlot) :
    acc'.fecSets.size ≤ acc'.cfg.maxFecSetsPerSlot := by
  rw [h.cfg]
  exact h.size.trans hcap

end Shrinks

theorem shrinks_completeBatch (acc : SlotAccumulator) (bcIdx : ℕ) :
    acc.Shrinks (acc.completeBatch bcIdx) :=
  ⟨rfl, Std.ExtTreeMap.size_filter_le_size⟩

theorem shrinks_record (acc : SlotAccumulator) (txs : List VersionedTransaction) :
    acc.Shrinks (acc.record txs) := .of_eq rfl rfl

theorem shrinks_countSalvage (acc : SlotAccumulator) (n : ℕ) : acc.Shrinks (acc.countSalvage n) := by
  unfold countSalvage
  split_ifs
  · exact .of_eq rfl rfl
  · exact .of_eq rfl rfl

/-- One iteration of `advance_streaming`, with a shred that cannot be decoded
    included. -/
theorem shrinks_advanceStreamingBody {fuel : ℕ} {s : SlotAccumulator × List VersionedTransaction}
    {r : (SlotAccumulator × List VersionedTransaction) ⊕ (SlotAccumulator × List VersionedTransaction)}
    (h : advanceStreamingBody env fuel s = some r) : s.1.Shrinks (r.elim id id).1 := by
  obtain ⟨acc, out⟩ := s
  unfold advanceStreamingBody at h
  simp only at h
  cases hps : acc.pending[acc.streamingCursor]? with
  | none =>
    rw [hps] at h
    cases h
    exact .refl acc
  | some ps =>
    simp only [hps] at h
    by_cases hrec : ps.source.isRecovered = true
    · rw [if_pos hrec] at h
      cases h
      exact .refl acc
    rw [if_neg hrec] at h
    cases hpay : ps.payload with
    | none =>
      -- the shred is dropped; what is salvaged is recorded before the batch ends
      simp only [hpay] at h
      by_cases hends : ps.batchComplete = true ∧ acc.streamingCursor > acc.batchStart
      · rw [if_pos hends] at h
        obtain ⟨⟨acc₁, out₁, n⟩, hsal, h⟩ := Option.bind_eq_some_iff.mp h
        obtain ⟨txs, hacc, -⟩ := salvage_records _ hsal
        have hacc₁ : acc.Shrinks acc₁ := by
          simp only at hacc
          rw [hacc]
          exact .of_eq rfl rfl
        have hcounted := hacc₁.trans (shrinks_countSalvage acc₁ n)
        cases h
        exact ⟨hcounted.cfg, Std.ExtTreeMap.size_filter_le_size.trans hcounted.size⟩
      · rw [if_neg hends] at h
        cases h
        exact .of_eq rfl rfl
    | some payload =>
      simp only [hpay, Option.bind_eq_bind, Option.bind_eq_some_iff] at h
      obtain ⟨⟨decoder, result⟩, -, h⟩ := h
      cases result with
      | ok txs =>
        simp only [recordAll_eq] at h
        split_ifs at h
        · cases h
          exact .of_eq rfl rfl
        · cases h
          exact .of_eq rfl rfl
      | error err =>
        cases h
        exact .of_eq rfl rfl

theorem shrinks_advanceStreaming {fuel : ℕ} {out : List VersionedTransaction}
    {r : SlotAccumulator × List VersionedTransaction}
    (h : acc.advanceStreaming env fuel out = some r) : acc.Shrinks r.1 :=
  FuelLoop.run_spec (fun s => acc.Shrinks s.1) (fun r => acc.Shrinks r.1)
    (fun _ _ hs hbody => hs.trans (shrinks_advanceStreamingBody hbody))
    (fun _ _ hs hbody => hs.trans (shrinks_advanceStreamingBody hbody)) fuel (acc, out) r (.refl acc) h

theorem shrinks_tryFecFill (env : Env C) (clock : Clock) (acc : SlotAccumulator)
    (cache : ReedSolomonCache C) (hint : ℕ) : acc.Shrinks (acc.tryFecFill env clock cache hint).1 := by
  refine tryFecFill_invariant env acc clock cache hint (.refl acc) ?_ ?_ ?_
  · intro setIdx fec cache' recovered r acc₁ acc₂ _ _ _ h hinsert
    cases hinsert with
    | skip => exact h
    | last => exact h.trans (.of_eq rfl rfl)
    | store => exact h.trans (.of_eq rfl rfl)
  · exact fun acc₁ counters h => h.trans (.of_eq rfl rfl)
  · exact fun acc₁ k h => h.trans ⟨rfl, Std.ExtTreeMap.size_erase_le⟩

theorem shrinks_fillHints (env : Env C) (clock : Clock) (acc : SlotAccumulator)
    (cache : ReedSolomonCache C) (hints : List ℕ) :
    acc.Shrinks (fillHints env clock acc cache hints).1 := by
  induction hints generalizing acc cache with
  | nil => exact .refl acc
  | cons hint hints ih => exact (shrinks_tryFecFill env clock acc cache hint).trans (ih _ _)

theorem shrinks_flushFill (env : Env C) (clock : Clock) (acc : SlotAccumulator)
    (cache : ReedSolomonCache C) (bcIdx : ℕ) :
    acc.Shrinks (acc.flushFill env clock cache bcIdx).1 := by
  unfold flushFill
  split_ifs
  · exact shrinks_fillHints env clock acc cache _
  · exact .refl acc

theorem shrinks_flushBody {fuel : ℕ} {s : CallState C} {r : CallState C ⊕ CallState C}
    (h : flushBody env clock fuel s = some r) : s.acc.Shrinks (r.elim id id).acc := by
  rcases flushBody_outcome h with
    ⟨-, rfl⟩ | ⟨bcIdx, firstSeen, acc, cache, -, hfill, hend⟩
  · exact .refl s.acc
  have hshrinks := shrinks_flushFill env clock s.acc s.cache bcIdx
  rw [hfill] at hshrinks
  rcases hend with ⟨-, rfl⟩ | ⟨txs, counters, -, rfl⟩
  · exact hshrinks
  · refine hshrinks.trans (.trans ?_ (shrinks_completeBatch _ bcIdx))
    exact .of_eq rfl rfl

theorem shrinks_tryFlushBatches {fuel : ℕ} {cache : ReedSolomonCache C}
    {out : List VersionedTransaction} {r : CallState C}
    (h : acc.tryFlushBatches env clock fuel cache out = some r) : acc.Shrinks r.acc :=
  FuelLoop.run_spec (fun s => acc.Shrinks s.acc) (fun r => acc.Shrinks r.acc)
    (fun _ _ hs hbody => hs.trans (shrinks_flushBody hbody))
    (fun _ _ hs hbody => hs.trans (shrinks_flushBody hbody)) fuel ⟨acc, cache, out⟩ r (.refl acc) h

theorem shrinks_harvestBoundaries {fuel : ℕ} {out : List VersionedTransaction} {bs : List ℕ}
    {r : SlotAccumulator × List VersionedTransaction}
    (h : harvestBoundaries env fuel acc out bs = some r) : acc.Shrinks r.1 := by
  induction bs generalizing acc out with
  | nil =>
    cases h
    exact .refl acc
  | cons bcIdx bs ih =>
    obtain ⟨⟨acc', out'⟩, hnext, hrest⟩ := Option.bind_eq_some_iff.mp h
    refine .trans ?_ (ih hrest)
    unfold harvestBoundary at hnext
    simp only at hnext
    split_ifs at hnext
    · cases hnext
      exact .refl acc
    · obtain ⟨counters, hdec⟩ := acc.decodeCombined_eq env acc.batchStart bcIdx
      rw [hdec] at hnext
      cases hnext
      exact ⟨rfl, Std.ExtTreeMap.size_filter_le_size⟩
    · obtain ⟨⟨acc₁, out₁, n⟩, hsal, hnext⟩ := Option.bind_eq_some_iff.mp hnext
      obtain ⟨txs, hacc, -⟩ := salvage_records acc hsal
      cases hnext
      simp only at hacc
      subst hacc
      exact (shrinks_record acc txs).trans
        ((shrinks_countSalvage _ n).trans (shrinks_completeBatch _ bcIdx))

/-! ## The calls -/

/-- A data call adds no set. -/
theorem shrinks_pushData {fuel : ℕ} {cache : ReedSolomonCache C} {a : DataArgs} {r : CallState C}
    (h : acc.pushData env clock fuel cache a = some r) : acc.Shrinks r.acc := by
  unfold pushData at h
  split_ifs at h with hlast hold hdup
  · obtain ⟨s, hflush, hs⟩ := Option.bind_eq_some_iff.mp h
    cases hs
    have h := shrinks_tryFlushBatches hflush
    exact ⟨h.cfg, h.size⟩
  · cases h
    exact .of_eq rfl rfl
  · cases h
    exact .of_eq rfl rfl
  · obtain ⟨⟨acc₁, out₁⟩, hstream, h⟩ := Option.bind_eq_some_iff.mp h
    have hstreamed := shrinks_advanceStreaming hstream
    have hacc₁ : acc.Shrinks acc₁ := ⟨hstreamed.cfg, hstreamed.size⟩
    simp only at h
    split_ifs at h
    · have hfill := shrinks_tryFecFill env clock acc₁ cache a.fecSetIndex
      obtain ⟨⟨acc₂, out₂⟩, hstream₂, hflush⟩ := Option.bind_eq_some_iff.mp h
      exact hacc₁.trans (hfill.trans
        ((shrinks_advanceStreaming hstream₂).trans (shrinks_tryFlushBatches hflush)))
    · exact hacc₁.trans ((shrinks_tryFecFill env clock acc₁ cache a.fecSetIndex).trans
        (shrinks_tryFlushBatches h))
    · exact hacc₁.trans (shrinks_tryFlushBatches h)

/-- After recording, a code call adds no set. -/
theorem shrinks_pushCode {fuel : ℕ} {cache : ReedSolomonCache C} {a : CodeArgs} {r : CallState C}
    (h : acc.pushCode env clock fuel cache a = some r) : (acc.recordCode a).Shrinks r.acc := by
  unfold pushCode at h
  simp only [Option.bind_eq_bind] at h
  have hfill := shrinks_tryFecFill env clock (acc.recordCode a) cache a.fecSetIndex
  split_ifs at h
  · obtain ⟨⟨acc₁, out₁⟩, hstream, hflush⟩ := Option.bind_eq_some_iff.mp h
    exact hfill.trans ((shrinks_advanceStreaming hstream).trans (shrinks_tryFlushBatches hflush))
  · exact hfill.trans (shrinks_tryFlushBatches h)

/-- The harvest adds no set. -/
theorem shrinks_tryHarvestTail {fuel : ℕ} {cache : ReedSolomonCache C} {r : CallState C}
    (h : acc.tryHarvestTail env clock fuel cache = some r) : acc.Shrinks r.acc := by
  unfold tryHarvestTail at h
  simp only [harvestRuns_eq] at h
  obtain ⟨⟨acc₁, out₁⟩, hloop, h⟩ := Option.bind_eq_some_iff.mp h
  cases h
  exact (shrinks_fillHints env clock acc cache acc.fecSets.keys).trans
    ((shrinks_harvestBoundaries hloop).trans (.of_eq rfl rfl))

/-! ## Runs -/

/-- The cap holds after every call of a run in which each code shred finds room,
    with data shreds and a harvest anywhere in between and whatever the packets
    hold. -/
theorem fecSets_capped {cfg : AccumulatorConfig} {cache : ReedSolomonCache C} {fuel : ℕ}
    {calls : List (Clock × Call)} {s : CallState C}
    (hrun : runCalls env fuel (CallState.fresh cfg cache) calls = some s)
    (hroom : ∀ pre clock a post s₁, calls = pre ++ (clock, .code a) :: post →
      runCalls env fuel (CallState.fresh cfg cache) pre = some s₁ → s₁.acc.HasRoom a) :
    s.acc.fecSets.size ≤ cfg.maxFecSetsPerSlot := by
  suffices h : s.acc.cfg = cfg ∧ s.acc.fecSets.size ≤ s.acc.cfg.maxFecSetsPerSlot from h.1 ▸ h.2
  refine runCalls_spec (I := fun s => s.acc.cfg = cfg ∧
    s.acc.fecSets.size ≤ s.acc.cfg.maxFecSetsPerSlot) hrun ⟨rfl, Nat.zero_le _⟩ ?_
  rintro pre ⟨clock, c⟩ post s₁ r₁ hsplit hpre ⟨hcfg, hcap⟩ hcall
  have hafter : ∃ acc₁ : SlotAccumulator, acc₁.Shrinks r₁.acc ∧ acc₁.cfg = cfg ∧
      acc₁.fecSets.size ≤ acc₁.cfg.maxFecSetsPerSlot := by
    cases c with
    | data a => exact ⟨s₁.acc, shrinks_pushData hcall, hcfg, hcap⟩
    | code a =>
      refine ⟨s₁.acc.recordCode a, shrinks_pushCode hcall, ?_, ?_⟩
      · rw [recordCode_cfg, hcfg]
      · rw [recordCode_cfg, size_recordCode_le_iff hcap]
        exact hroom pre clock a post s₁ hsplit hpre
    | harvest => exact ⟨s₁.acc, shrinks_tryHarvestTail hcall, hcfg, hcap⟩
  obtain ⟨acc₁, hshrinks, hcfg₁, hcap₁⟩ := hafter
  exact ⟨hshrinks.cfg.trans hcfg₁, hshrinks.capped hcap₁⟩

/-! ## Sets in falling order -/

open FecSet

/-- A set of two data packets that end no batch, from index `i` on. -/
def pairSet (i : ℕ) (h : MakesSet pairParity i 2 1 (fun _ => [9]) fun _ => 0) :
    FecSet pairParity :=
  merkleSet h

def lowSet : FecSet pairParity := pairSet 0 (by decide +kernel)
def highSet : FecSet pairParity := pairSet 2 (by decide +kernel)

/-- The code packets of two sets, the lower set first or last. -/
def risingCalls : List (Clock × Call) :=
  [(stillClock, .code (lowSet.codeArgs 0)), (stillClock, .code (highSet.codeArgs 0))]
def fallingCalls : List (Clock × Call) :=
  [(stillClock, .code (highSet.codeArgs 0)), (stillClock, .code (lowSet.codeArgs 0))]

/-- Room for one set. -/
def tightConfig : AccumulatorConfig := { maxFecSetsPerSlot := 1 }

/-- The lower set is evicted for the higher one. -/
theorem fecSets_capped_rising : ∃ s,
    runCalls pairEnv (2 ^ 32 + 1) (CallState.fresh tightConfig {}) risingCalls = some s ∧
      2 ∈ s.acc.fecSets ∧ s.acc.fecSets.size ≤ 1 := by
  have hrun : (runCalls pairEnv (2 ^ 32 + 1) (CallState.fresh tightConfig {}) risingCalls).map
      (fun s => decide (2 ∈ s.acc.fecSets)) = some true := by decide +kernel
  obtain ⟨s, hs, hmem⟩ := Option.map_eq_some_iff.mp hrun
  refine ⟨s, hs, of_decide_eq_true hmem, fecSets_capped hs ?_⟩
  intro pre clock a post s₁ hsplit hpre
  cases pre with
  | nil =>
    cases hsplit
    cases hpre
    exact .inr (.inl (by decide))
  | cons c₁ pre =>
    cases pre with
    | nil =>
      cases hsplit
      have hlow : (runCalls pairEnv (2 ^ 32 + 1) (CallState.fresh tightConfig {})
          [(stillClock, .code (lowSet.codeArgs 0))]).map (fun s => decide (0 ∈ s.acc.fecSets)) =
          some true := by decide +kernel
      rw [hpre] at hlow
      exact .inr (.inr ⟨0, of_decide_eq_true (Option.some.inj hlow), by decide⟩)
    | cons c₂ pre => simp [risingCalls] at hsplit

/-- The higher set is not older than the lower one, so it stays, and the lower one
    is recorded beside it. -/
theorem fecSets_over_cap : ¬∀ (calls : List (Clock × Call)) (s : CallState Unit),
    runCalls pairEnv (2 ^ 32 + 1) (CallState.fresh tightConfig {}) calls = some s →
      s.acc.fecSets.size ≤ tightConfig.maxFecSetsPerSlot := by
  intro h
  have hrun : (runCalls pairEnv (2 ^ 32 + 1) (CallState.fresh tightConfig {}) fallingCalls).map
      (fun s => s.acc.fecSets.size) = some 2 := by decide +kernel
  obtain ⟨s, hs, hsize⟩ := Option.map_eq_some_iff.mp hrun
  have hle := h fallingCalls s hs
  rw [hsize] at hle
  exact absurd hle (by decide)

end ShredStream.SlotAccumulator
