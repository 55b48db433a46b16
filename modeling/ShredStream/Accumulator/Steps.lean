import ShredStream.Accumulator.Harvest
import ShredStream.Accumulator.Parsed

/-!
# The steps of a call

A call opens by storing what it was given (`Opens`). Behind that it is a sequence
of steps of five kinds (`Step`), as long as the shreds are decodable: an attempt
at recovery, a shred streamed, a batch finalised, the transactions of a harvested
run recorded, and the tally at the end of a harvest.

* `packet_cases`: every call for a packet is such a sequence and a flush, whatever the
  indices are; `call_cases` is for all calls.
* `call_invariant`: so what opening and the steps keep, calls keep.

`Live` are the states of the accumulators of the listener between two calls, and
`StreamsAt` the states at the head of the streaming loop inside a call.
-/

namespace ShredStream

open Relation FirstByKey

/-- The ways in which a batch that is finalised is counted. -/
inductive Counters.CountsBatch (c : Counters) : Counters → Prop
  | streaming : CountsBatch c
      { c with batchesDecodedStreaming := satAdd64 c.batchesDecodedStreaming 1 }
  | fallback : CountsBatch c
      { c with batchesDecodedFallback := satAdd64 c.batchesDecodedFallback 1 }
  | skipped : CountsBatch c { c with batchesSkipped := satAdd64 c.batchesSkipped 1 }
  | undecodable : CountsBatch c
      { c with
        decodeErrors := satAdd32 c.decodeErrors 1
        batchesSkipped := satAdd64 c.batchesSkipped 1 }
  | fallbackTimeout : CountsBatch c
      { c with
        batchesDecodedFallback := satAdd64 c.batchesDecodedFallback 1
        batchesForceFinalizedTimeout := satAdd64 c.batchesForceFinalizedTimeout 1 }
  | skippedTimeout : CountsBatch c
      { c with
        batchesSkipped := satAdd64 c.batchesSkipped 1
        batchesForceFinalizedTimeout := satAdd64 c.batchesForceFinalizedTimeout 1 }

/-- The ways in which an attempt at recovery is counted. -/
inductive Counters.CountsFill (c : Counters) : Counters → Prop
  | nothing : CountsFill c c
  | failed : CountsFill c { c with recoveryFailures := satAdd64 c.recoveryFailures 1 }
  | done : CountsFill c { c with recoveriesDone := satAdd64 c.recoveriesDone 1 }

namespace SlotAccumulator

variable {C : Type} {env : Env C} {clock : Clock}

/-- The shred at the cursor was pushed to the decoder, which returned `txs`. -/
def streamed (acc : SlotAccumulator) (decoder : StreamingDecoder) (txs : List VersionedTransaction) :
    SlotAccumulator :=
  { acc with
    streamingDecoder := decoder
    streamingCursor := satAdd32 acc.streamingCursor 1 }.record txs

/-- It was pushed to the decoder, which returned an error. -/
def streamFailed (acc : SlotAccumulator) (decoder : StreamingDecoder) : SlotAccumulator :=
  { acc with
    streamingDecoder := decoder.reset
    streamingCursor := satAdd32 acc.streamingCursor 1
    counters := { acc.counters with decodeErrors := satAdd32 acc.counters.decodeErrors 1 } }

/-- The counters at the end of a harvest. -/
def tally (acc : SlotAccumulator) (discarded salvaged : ℕ) : SlotAccumulator :=
  { acc with
    counters := { acc.counters with
      fecSetsDiscardedUnused := satAdd64 acc.counters.fecSetsDiscardedUnused discarded
      salvagedTailTx := satAdd64 acc.counters.salvagedTailTx salvaged } }

/-- The steps calls consist of. -/
inductive Step (env : Env C) (clock : Clock) (s : CallState C) : CallState C → Prop
  | fill (hint : ℕ) :
      Step env clock s ⟨(s.acc.tryFecFill env clock s.cache hint).1,
        (s.acc.tryFecFill env clock s.cache hint).2.1, s.out⟩
  | stream {ps : PendingShred} {payload : Bytes} {decoder : StreamingDecoder}
      {txs : List VersionedTransaction} :
      s.acc.pending[s.acc.streamingCursor]? = some ps → ps.source.isRecovered = false →
      ps.payload = some payload →
      s.acc.streamingDecoder.push env.wincode payload = some (decoder, .ok txs) →
      Step env clock s
        ⟨s.acc.streamed decoder txs, s.cache, s.out ++ unseen s.acc.yieldedSigs txs⟩
  | streamError {ps : PendingShred} {payload : Bytes} {decoder : StreamingDecoder}
      {err : DecodeError} :
      s.acc.pending[s.acc.streamingCursor]? = some ps → ps.source.isRecovered = false →
      ps.payload = some payload →
      s.acc.streamingDecoder.push env.wincode payload = some (decoder, .error err) →
      Step env clock s ⟨s.acc.streamFailed decoder, s.cache, s.out⟩
  | finalise {bcIdx : ℕ} (txs : List VersionedTransaction) {counters : Counters} :
      s.acc.batchStart ≤ bcIdx → s.acc.counters.CountsBatch counters →
      Step env clock s ⟨s.acc.finalise txs counters bcIdx, s.cache,
        s.out ++ unseen s.acc.yieldedSigs txs⟩
  | record (txs : List VersionedTransaction) :
      Step env clock s ⟨s.acc.record txs, s.cache, s.out ++ unseen s.acc.yieldedSigs txs⟩
  | tally (discarded salvaged : ℕ) :
      Step env clock s ⟨s.acc.tally discarded salvaged, s.cache, s.out⟩

/-- Any number of steps. -/
abbrev Steps (env : Env C) (clock : Clock) : CallState C → CallState C → Prop :=
  ReflTransGen (Step env clock)

/-- An invariant of a step is one of any number of steps. -/
theorem Steps.invariant {I : CallState C → Prop} (hstep : ∀ s s', I s → Step env clock s s' → I s')
    {s s' : CallState C} (h : Steps env clock s s') (hs : I s) : I s' := by
  induction h with
  | refl => exact hs
  | tail _ h ih => exact hstep _ _ ih h

theorem Step.parsed {s s' : CallState C} (h : Step env clock s s') (hs : s.acc.Parsed) :
    s'.acc.Parsed := by
  cases h with
  | fill hint => exact hs.tryFecFill env clock s.cache hint
  | finalise txs => exact hs.finalise txs _ _
  | _ => exact ⟨hs.pending, hs.fecSets⟩

theorem Steps.parsed {s s' : CallState C} (h : Steps env clock s s') (hs : s.acc.Parsed) :
    s'.acc.Parsed :=
  h.invariant (fun _ _ hs h => h.parsed hs) hs

/-! ## Salvage -/

/-- However a salvage ends, it records some transactions and returns the new
    ones among them. -/
theorem salvage_records (acc : SlotAccumulator) {fuel start endIdx : ℕ}
    {out : List VersionedTransaction} {r : SlotAccumulator × List VersionedTransaction × ℕ}
    (h : acc.salvageContiguousRunsIn env fuel start endIdx out = some r) :
    ∃ txs, r.1 = acc.record txs ∧ r.2.1 = out ++ unseen acc.yieldedSigs txs := by
  unfold salvageContiguousRunsIn at h
  obtain ⟨s, hrun, hs⟩ := Option.bind_eq_some_iff.mp h
  cases hs
  refine FuelLoop.run_spec
    (fun s : SalvageState => ∃ txs, s.acc = acc.record txs ∧
      s.out = out ++ unseen acc.yieldedSigs txs)
    (fun s => ∃ txs, s.acc = acc.record txs ∧ s.out = out ++ unseen acc.yieldedSigs txs)
    ?_ ?_ fuel _ s ⟨[], by simp, by simp⟩ hrun
  · rintro s s' ⟨txs, hacc, hout⟩ hbody
    unfold salvageBody at hbody
    split_ifs at hbody
    · simp only [Option.bind_eq_bind, Option.bind_eq_some_iff] at hbody
      obtain ⟨cursor, -, hbody⟩ := hbody
      split_ifs at hbody
      · cases hbody
      · obtain ⟨⟨cursor', scratch⟩, -, hbody⟩ := Option.bind_eq_some_iff.mp hbody
        rw [decodeRun_eq, recordAll_eq] at hbody
        cases hbody
        refine ⟨txs ++ decodeConcatenated env.wincode scratch, ?_, ?_⟩
        · rw [hacc, record_record]
        · rw [hout, hacc, List.append_assoc, unseen, unseen, unseen, fresh_append]
          rfl
    · cases hbody
  · rintro s s' ⟨txs, hacc, hout⟩ hbody
    unfold salvageBody at hbody
    split_ifs at hbody
    · simp only [Option.bind_eq_bind, Option.bind_eq_some_iff] at hbody
      obtain ⟨cursor, -, hbody⟩ := hbody
      split_ifs at hbody
      · cases hbody
        exact ⟨txs, hacc, hout⟩
      · obtain ⟨⟨cursor', scratch⟩, -, hbody⟩ := Option.bind_eq_some_iff.mp hbody
        cases hbody
    · cases hbody
      exact ⟨txs, hacc, hout⟩

/-! ## Streaming -/

/-- One iteration of `advance_streaming` when the shreds are decodable: it stops
    at a gap or a recovered shred, or pushes the shred at the cursor. -/
theorem advanceStreamingBody_cases {acc : SlotAccumulator} (hp : acc.Parsed) {fuel : ℕ}
    {out : List VersionedTransaction}
    {r : (SlotAccumulator × List VersionedTransaction) ⊕ (SlotAccumulator × List VersionedTransaction)}
    (h : advanceStreamingBody env fuel (acc, out) = some r) :
    (r = .inr (acc, out) ∧
      ∀ ps, acc.pending[acc.streamingCursor]? = some ps → ps.source.isRecovered = true) ∨
    ∃ ps payload decoder, acc.pending[acc.streamingCursor]? = some ps ∧
      ps.source.isRecovered = false ∧ ps.payload = some payload ∧
      ((∃ txs, acc.streamingDecoder.push env.wincode payload = some (decoder, .ok txs) ∧
          r = if ps.batchComplete then
              .inr (acc.streamed decoder txs, out ++ unseen acc.yieldedSigs txs)
            else .inl (acc.streamed decoder txs, out ++ unseen acc.yieldedSigs txs)) ∨
        ∃ err, acc.streamingDecoder.push env.wincode payload = some (decoder, .error err) ∧
          r = .inr (acc.streamFailed decoder, out)) := by
  unfold advanceStreamingBody at h
  simp only at h
  cases hps : acc.pending[acc.streamingCursor]? with
  | none =>
    rw [hps] at h
    cases h
    exact .inl ⟨rfl, fun ps hps' => by cases hps'⟩
  | some ps =>
    obtain ⟨payload, hpay⟩ := hp.payload hps
    simp only [hps, hpay] at h
    by_cases hrec : ps.source.isRecovered = true
    · rw [if_pos hrec] at h
      cases h
      refine .inl ⟨rfl, fun ps' hps' => ?_⟩
      cases hps'
      exact hrec
    · rw [if_neg hrec] at h
      rw [Option.bind_eq_bind, Option.bind_eq_some_iff] at h
      obtain ⟨⟨decoder, result⟩, hpush, h⟩ := h
      refine .inr ⟨ps, payload, decoder, rfl, by simpa using hrec, hpay, ?_⟩
      cases result with
      | ok txs =>
        refine .inl ⟨txs, hpush, ?_⟩
        simp only [recordAll_eq] at h
        split_ifs at h ⊢
        · cases h
          rfl
        · cases h
          rfl
      | error err =>
        refine .inr ⟨err, hpush, ?_⟩
        cases h
        rfl

/-- `advance_streaming` is a sequence of steps. -/
theorem advanceStreaming_steps {acc : SlotAccumulator} (hp : acc.Parsed)
    (cache : ReedSolomonCache C) {fuel : ℕ} {out : List VersionedTransaction}
    {r : SlotAccumulator × List VersionedTransaction}
    (h : acc.advanceStreaming env fuel out = some r) :
    Steps env clock ⟨acc, cache, out⟩ ⟨r.1, cache, r.2⟩ := by
  have hmove {t : SlotAccumulator × List VersionedTransaction}
      {r : (SlotAccumulator × List VersionedTransaction) ⊕
        (SlotAccumulator × List VersionedTransaction)}
      (ht : t.1.Parsed) (hsteps : Steps env clock ⟨acc, cache, out⟩ ⟨t.1, cache, t.2⟩)
      (hbody : advanceStreamingBody env fuel t = some r) :
      Steps env clock ⟨acc, cache, out⟩ ⟨(r.elim id id).1, cache, (r.elim id id).2⟩ := by
    rcases advanceStreamingBody_cases ht hbody with
      ⟨rfl, -⟩ | ⟨ps, payload, decoder, hps, hrec, hpay, ⟨txs, hpush, rfl⟩ | ⟨err, hpush, rfl⟩⟩
    · exact hsteps
    · have hstep := hsteps.tail (.stream hps hrec hpay hpush)
      split_ifs
      · exact hstep
      · exact hstep
    · exact hsteps.tail (.streamError hps hrec hpay hpush)
  refine FuelLoop.run_spec
    (fun t : SlotAccumulator × List VersionedTransaction =>
      Steps env clock ⟨acc, cache, out⟩ ⟨t.1, cache, t.2⟩)
    (fun r => Steps env clock ⟨acc, cache, out⟩ ⟨r.1, cache, r.2⟩) ?_ ?_ fuel (acc, out) r .refl h
  · intro t t' ht hbody
    exact hmove (ht.parsed hp) ht hbody
  · intro t r ht hbody
    exact hmove (ht.parsed hp) ht hbody

/-! ## Recovery -/

theorem tryFecFill_counts (env : Env C) (clock : Clock) (acc : SlotAccumulator)
    (cache : ReedSolomonCache C) (hint : ℕ) :
    acc.counters.CountsFill (acc.tryFecFill env clock cache hint).1.counters := by
  unfold tryFecFill
  split
  · exact .nothing
  split
  · exact .nothing
  split_ifs
  · exact .nothing
  split
  · exact .failed
  · rename_i recovered _
    have hsame (setIdx : ℕ) :
        (recovered.foldl (insertRecovered clock setIdx) (acc, false)).1.counters = acc.counters :=
      foldl_insertRecovered_invariant (I := fun acc₁ => acc₁.counters = acc.counters)
        (fun r _ acc₁ acc₂ h₁ hinserts => by cases hinserts <;> exact h₁) rfl
    simp only
    split_ifs
    · show acc.counters.CountsFill { SlotAccumulator.counters _ with recoveriesDone := _ }
      rw [hsame]
      exact .done
    · rw [hsame]
      exact .nothing

theorem fillHints_steps (s : CallState C) (hints : List ℕ) :
    Steps env clock s ⟨(fillHints env clock s.acc s.cache hints).1,
      (fillHints env clock s.acc s.cache hints).2, s.out⟩ := by
  induction hints generalizing s with
  | nil => exact .refl
  | cons hint hints ih => exact .head (.fill hint) (ih ⟨_, _, s.out⟩)

theorem flushFill_steps (env : Env C) (clock : Clock) (s : CallState C) (bcIdx : ℕ) :
    Steps env clock s ⟨(s.acc.flushFill env clock s.cache bcIdx).1,
      (s.acc.flushFill env clock s.cache bcIdx).2, s.out⟩ := by
  unfold flushFill
  split_ifs
  · exact fillHints_steps s _
  · exact .refl

/-! ## Flushing -/

theorem countsBatch_countSalvage (acc : SlotAccumulator) (n : ℕ) :
    acc.counters.CountsBatch (acc.countSalvage n).counters := by
  unfold countSalvage
  split_ifs
  · exact .fallback
  · exact .skipped

/-- `decodeCombined` records the batch and counts it. -/
theorem decodeCombined_counts (env : Env C) (acc : SlotAccumulator) (start bcIdx : ℕ) :
    ∃ counters, acc.counters.CountsBatch counters ∧ acc.decodeCombined env start bcIdx =
      ({ acc.record (batchTxs env.wincode (acc.combined start bcIdx)) with counters },
        unseen acc.yieldedSigs (batchTxs env.wincode (acc.combined start bcIdx))) := by
  unfold decodeCombined batchTxs
  cases decodeBatch env.wincode (acc.combined start bcIdx) with
  | none =>
    simp only [Option.getD_none, record_nil]
    exact ⟨_, .undecodable, rfl⟩
  | some txs =>
    simp only [recordAll_eq, Option.getD_some]
    by_cases hnew : unseen acc.yieldedSigs txs ≠ []
    · rw [if_pos hnew]
      exact ⟨_, .fallback, rfl⟩
    · rw [if_neg hnew]
      exact ⟨_, .streaming, rfl⟩

/-- One iteration of `try_flush_batches`, whatever the indices are: there is no
    boundary; the batch found is not complete and stays; or it is finalised. -/
theorem flushBody_outcome {s : CallState C} {fuel : ℕ} {r : CallState C ⊕ CallState C}
    (h : flushBody env clock fuel s = some r) :
    (s.acc.batchCompleteIndices.firstFrom s.acc.batchStart = none ∧ r = .inr s) ∨
    ∃ bcIdx firstSeen acc cache,
      s.acc.batchCompleteIndices.firstFrom s.acc.batchStart = some (bcIdx, firstSeen) ∧
      s.acc.flushFill env clock s.cache bcIdx = (acc, cache) ∧
      ((acc.pending.countIn s.acc.batchStart bcIdx < expectedCount s.acc.batchStart bcIdx ∧
          r = .inr ⟨acc, cache, s.out⟩) ∨
        ∃ txs counters, acc.counters.CountsBatch counters ∧
          r = .inl ⟨acc.finalise txs counters bcIdx, cache,
            s.out ++ unseen acc.yieldedSigs txs⟩) := by
  unfold flushBody at h
  cases hfirst : s.acc.batchCompleteIndices.firstFrom s.acc.batchStart with
  | none =>
    rw [hfirst] at h
    cases h
    exact .inl ⟨rfl, rfl⟩
  | some e =>
    obtain ⟨bcIdx, firstSeen⟩ := e
    obtain ⟨acc, cache, hfill⟩ :
        ∃ acc cache, s.acc.flushFill env clock s.cache bcIdx = (acc, cache) := ⟨_, _, rfl⟩
    refine .inr ⟨bcIdx, firstSeen, acc, cache, rfl, hfill, ?_⟩
    simp only [hfirst, hfill] at h
    split_ifs at h with hmiss htime
    · -- the batch is salvaged
      simp only [Option.bind_eq_bind, Option.bind_eq_some_iff] at h
      obtain ⟨⟨acc', out', n⟩, hsal, h⟩ := h
      obtain ⟨txs, hacc, hout⟩ := salvage_records acc hsal
      cases h
      simp only at hacc hout
      subst hacc hout
      refine .inr ⟨txs, _, ?_, rfl⟩
      unfold countSalvage
      split_ifs
      · exact .fallbackTimeout
      · exact .skippedTimeout
    · cases h
      exact .inl ⟨hmiss, rfl⟩
    · obtain ⟨counters, hcounts, hdec⟩ := decodeCombined_counts env acc s.acc.batchStart bcIdx
      rw [hdec] at h
      cases h
      exact .inr ⟨_, counters, hcounts, rfl⟩

theorem flushBody_steps {s : CallState C} {fuel : ℕ} {r : CallState C ⊕ CallState C}
    (h : flushBody env clock fuel s = some r) : Steps env clock s (r.elim id id) := by
  rcases flushBody_outcome h with
    ⟨-, rfl⟩ | ⟨bcIdx, firstSeen, acc, cache, hfirst, hfill, ⟨-, rfl⟩ | ⟨txs, counters, hcounts, rfl⟩⟩
  · exact .refl
  · have := flushFill_steps env clock s bcIdx
    rwa [hfill] at this
  · have hsteps := flushFill_steps env clock s bcIdx
    have hrefill := refilled_flushFill env s.acc clock s.cache bcIdx
    rw [hfill] at hsteps hrefill
    apply hsteps.tail
    apply Step.finalise txs _ hcounts
    show acc.batchStart ≤ bcIdx
    rw [hrefill.batchStart]
    exact (BTreeMap.firstFrom_spec _ hfirst).2.1

theorem tryFlushBatches_steps {acc : SlotAccumulator} {cache : ReedSolomonCache C}
    {out : List VersionedTransaction} {fuel : ℕ} {r : CallState C}
    (h : acc.tryFlushBatches env clock fuel cache out = some r) :
    Steps env clock ⟨acc, cache, out⟩ r :=
  FuelLoop.run_spec (fun s : CallState C => Steps env clock ⟨acc, cache, out⟩ s)
    (fun r => Steps env clock ⟨acc, cache, out⟩ r)
    (fun _ _ hs hbody => hs.trans (flushBody_steps hbody))
    (fun _ _ hs hbody => hs.trans (flushBody_steps hbody)) fuel ⟨acc, cache, out⟩ r .refl h

/-! ## The harvest -/

/-- The boundary loop of the harvest. -/
theorem harvestBoundaries_steps {acc : SlotAccumulator} {cache : ReedSolomonCache C} {fuel : ℕ}
    {out : List VersionedTransaction} {bs : List ℕ}
    {r : SlotAccumulator × List VersionedTransaction}
    (h : harvestBoundaries env fuel acc out bs = some r) :
    Steps env clock ⟨acc, cache, out⟩ ⟨r.1, cache, r.2⟩ := by
  induction bs generalizing acc out with
  | nil =>
    cases h
    exact .refl
  | cons bcIdx bs ih =>
    obtain ⟨⟨acc', out'⟩, hnext, hrest⟩ := Option.bind_eq_some_iff.mp h
    refine ReflTransGen.trans ?_ (ih hrest)
    unfold harvestBoundary at hnext
    simp only at hnext
    split_ifs at hnext with hlt
    · cases hnext
      exact .refl
    · obtain ⟨counters, hcounts, hdec⟩ := decodeCombined_counts env acc acc.batchStart bcIdx
      rw [hdec] at hnext
      cases hnext
      exact .single (.finalise _ (show acc.batchStart ≤ bcIdx by omega) hcounts)
    · obtain ⟨⟨acc₁, out₁, n⟩, hsal, hnext⟩ := Option.bind_eq_some_iff.mp hnext
      obtain ⟨txs, hacc, hout⟩ := salvage_records acc hsal
      cases hnext
      simp only at hacc hout
      subst hacc hout
      exact .single (.finalise txs (show acc.batchStart ≤ bcIdx by omega)
        (countsBatch_countSalvage (acc.record txs) n))

theorem tryHarvestTail_steps {acc : SlotAccumulator} {cache : ReedSolomonCache C} {fuel : ℕ}
    {r : CallState C} (h : acc.tryHarvestTail env clock fuel cache = some r) :
    Steps env clock ⟨acc, cache, []⟩ r := by
  unfold tryHarvestTail at h
  simp only [harvestRuns_eq] at h
  obtain ⟨⟨acc', out⟩, hloop, h⟩ := Option.bind_eq_some_iff.mp h
  cases h
  exact (((fillHints_steps ⟨acc, cache, []⟩ acc.fecSets.keys).trans
    (harvestBoundaries_steps hloop)).tail (.record _)).tail (.tally acc'.fecSets.size _)

/-! ## The calls -/

/-- Recording a code shred changes the FEC sets and counts an eviction at most. -/
theorem recordCode_eq (acc : SlotAccumulator) (a : CodeArgs) :
    ∃ fecSets counters, acc.recordCode a = { acc with fecSets, counters } ∧
      (counters = acc.counters ∨ counters = { acc.counters with
        fecSetsEvictedEarly := satAdd64 acc.counters.fecSetsEvictedEarly 1 }) := by
  obtain ⟨fecSets, counters, heq, hcounters, -⟩ := acc.recordCode_cases a
  exact ⟨_, counters, heq, hcounters⟩

/-- What a call does before its steps: the last shred of a slot only marks it, any
    other shred is stored, a code shred is recorded. -/
inductive Opens (clock : Clock) (acc : SlotAccumulator) : Call → SlotAccumulator → Prop
  | last {a : DataArgs} : a.lastInSlot = true →
      Opens clock acc (.data a) (acc.completeSlot a.index)
  | data {a : DataArgs} : a.lastInSlot = false → acc.batchStart ≤ a.index →
      a.index ∉ acc.pending → Opens clock acc (.data a) (acc.insertData clock a)
  | code {a : CodeArgs} : Opens clock acc (.code a) (acc.recordCode a)
  | harvest : Opens clock acc .harvest acc

/-- The packet of a data call is one the parser accepted. -/
def Call.Parsed (c : Call) : Prop := ∀ a, c = .data a → ∃ d, a.shred.Holds d

theorem Call.Made.parsed {slot : ℕ} {c : Call} (h : c.Made slot) : c.Parsed := by
  cases h with
  | data hparse hlen _ =>
    rintro a ⟨⟩
    exact ⟨_, DataShred.holds_args hparse hlen⟩
  | code => rintro a ⟨⟩

theorem Call.Made.ne_harvest {slot : ℕ} {c : Call} (h : c.Made slot) : c ≠ .harvest := by
  cases h with
  | data => exact nofun
  | code => exact nofun

theorem Call.parsed_harvest : Call.harvest.Parsed := by rintro a ⟨⟩

theorem Opens.parsed {acc acc₀ : SlotAccumulator} {c : Call} (h : Opens clock acc c acc₀)
    (hp : acc.Parsed) (hc : c.Parsed) : acc₀.Parsed := by
  cases h with
  | last => exact ⟨hp.pending, hp.fecSets⟩
  | data =>
    obtain ⟨d, hd⟩ := hc _ rfl
    exact hp.insertData clock hd
  | code => exact hp.recordCode _
  | harvest => exact hp

/-- What a call for a packet has done when it returns: it dropped a shred that
    came late or was there, or opened, made steps, flushed, and then dropped the
    last shred of the slot. -/
theorem packet_cases {acc : SlotAccumulator} (hp : acc.Parsed) {cache : ReedSolomonCache C}
    {fuel : ℕ} {c : Call} (hc : c.Parsed) (hpacket : c ≠ .harvest) {r : CallState C}
    (h : acc.call env clock fuel cache c = some r) :
    (∃ a, c = .data a ∧ (a.index < acc.batchStart ∨ a.index ∈ acc.pending) ∧
      r = ⟨acc.dropHandle a.handle, cache, []⟩) ∨
    ∃ acc₀ s s', Opens clock acc c acc₀ ∧ Steps env clock ⟨acc₀, cache, []⟩ s ∧
      s.acc.tryFlushBatches env clock fuel s.cache s.out = some s' ∧
      ((r = s' ∧ ∀ a, c = .data a → a.lastInSlot = false) ∨
        ∃ a, c = .data a ∧ a.lastInSlot = true ∧
          r = { s' with acc := s'.acc.dropHandle a.handle }) := by
  cases c with
  | data a =>
    have hopen : a.lastInSlot = false → acc.batchStart ≤ a.index → a.index ∉ acc.pending →
        (acc.insertData clock a).Parsed :=
      fun h1 h2 h3 => Opens.parsed (.data h1 h2 h3) hp hc
    rw [call, pushData] at h
    split_ifs at h with hlast hlt hmem
    · obtain ⟨s, hs, h⟩ := Option.bind_eq_some_iff.mp h
      cases h
      exact .inr ⟨_, _, s, .last hlast, .refl, hs, .inr ⟨a, rfl, hlast, rfl⟩⟩
    · cases h
      exact .inl ⟨a, rfl, .inl hlt, rfl⟩
    · cases h
      exact .inl ⟨a, rfl, .inr hmem, rfl⟩
    · have hlast' : a.lastInSlot = false := by simpa using hlast
      have hge : acc.batchStart ≤ a.index := by omega
      have hp₀ := hopen hlast' hge hmem
      have hr : (r = r ∧ ∀ a', Call.data a = .data a' → a'.lastInSlot = false) :=
        ⟨rfl, by rintro a' ⟨⟩; exact hlast'⟩
      obtain ⟨⟨acc₁, out₁⟩, hstream, h⟩ := Option.bind_eq_some_iff.mp h
      have h₁ : Steps env clock ⟨acc.insertData clock a, cache, []⟩ ⟨acc₁, cache, out₁⟩ :=
        advanceStreaming_steps hp₀ cache hstream
      simp only at h
      split_ifs at h with hcur hfilled
      · obtain ⟨⟨acc₂, out₂⟩, hstream', h⟩ := Option.bind_eq_some_iff.mp h
        have hfill := h₁.tail (.fill a.fecSetIndex)
        exact .inr ⟨_, _, r, .data hlast' hge hmem, hfill.trans
          (advanceStreaming_steps (Steps.parsed hfill hp₀) _ hstream'), h, .inl hr⟩
      · exact .inr ⟨_, _, r, .data hlast' hge hmem, h₁.tail (.fill a.fecSetIndex), h, .inl hr⟩
      · exact .inr ⟨_, _, r, .data hlast' hge hmem, h₁, h, .inl hr⟩
  | code a =>
    have hr : (r = r ∧ ∀ a', Call.code a = .data a' → a'.lastInSlot = false) :=
      ⟨rfl, by rintro a' ⟨⟩⟩
    rw [call, pushCode] at h
    simp only at h
    have hfill : Steps env clock ⟨acc.recordCode a, cache, []⟩ _ := .single (.fill a.fecSetIndex)
    split_ifs at h
    · obtain ⟨⟨acc₁, out₁⟩, hstream, h⟩ := Option.bind_eq_some_iff.mp h
      exact .inr ⟨_, _, r, .code, hfill.trans (advanceStreaming_steps
        (Steps.parsed hfill (hp.recordCode a)) _ hstream), h, .inl hr⟩
    · exact .inr ⟨_, _, r, .code, hfill, h, .inl hr⟩
  | harvest => exact absurd rfl hpacket

/-- Every call that returns dropped its shred, or opened, made steps, and then
    dropped the last shred of the slot. -/
theorem call_cases {acc : SlotAccumulator} (hp : acc.Parsed) {cache : ReedSolomonCache C}
    {fuel : ℕ} {c : Call} (hc : c.Parsed) {r : CallState C}
    (h : acc.call env clock fuel cache c = some r) :
    (∃ a, c = .data a ∧ (a.index < acc.batchStart ∨ a.index ∈ acc.pending) ∧
      r = ⟨acc.dropHandle a.handle, cache, []⟩) ∨
    ∃ acc₀ s, Opens clock acc c acc₀ ∧ Steps env clock ⟨acc₀, cache, []⟩ s ∧
      ((r = s ∧ ∀ a, c = .data a → a.lastInSlot = false) ∨
        ∃ a, c = .data a ∧ a.lastInSlot = true ∧ r = { s with acc := s.acc.dropHandle a.handle }) := by
  by_cases hpacket : c = .harvest
  · subst hpacket
    exact .inr ⟨acc, r, .harvest, tryHarvestTail_steps h, .inl ⟨rfl, by rintro a ⟨⟩⟩⟩
  · rcases packet_cases hp hc hpacket h with hdrop | ⟨acc₀, s, s', ho, hs, hflush, hr⟩
    · exact .inl hdrop
    · exact .inr ⟨acc₀, s', ho, hs.trans (tryFlushBatches_steps hflush), hr⟩

/-- An invariant that opening a call, its steps and a dropped handle keep is kept
    by the call. -/
theorem call_invariant {I : SlotAccumulator → Prop}
    (hstep : ∀ s s' : CallState C, s.acc.Parsed → I s.acc → Step env clock s s' → I s'.acc)
    (hdrop : ∀ acc b, I acc → I (dropHandle acc b))
    {acc : SlotAccumulator} {c : Call} (hopen : ∀ acc₀, Opens clock acc c acc₀ → I acc₀)
    (hp : acc.Parsed) (hI : I acc) (hc : c.Parsed) {cache : ReedSolomonCache C} {fuel : ℕ}
    {r : CallState C} (h : acc.call env clock fuel cache c = some r) : I r.acc := by
  rcases call_cases hp hc h with ⟨a, -, -, rfl⟩ | ⟨acc₀, s, ho, hs, hr⟩
  · exact hdrop _ _ hI
  · have hkeep := Steps.invariant (I := fun s => s.acc.Parsed ∧ I s.acc)
      (fun s s' hs h => ⟨h.parsed hs.1, hstep s s' hs.1 hs.2 h⟩) hs
      ⟨ho.parsed hp hc, hopen acc₀ ho⟩
    rcases hr with ⟨rfl, -⟩ | ⟨a, -, -, rfl⟩
    · exact hkeep.2
    · exact hdrop _ _ hkeep.2

theorem Parsed.call {acc : SlotAccumulator} (hp : acc.Parsed) {c : Call} (hc : c.Parsed)
    {cache : ReedSolomonCache C} {fuel : ℕ} {r : CallState C}
    (h : acc.call env clock fuel cache c = some r) : r.acc.Parsed :=
  call_invariant (fun _ _ _ hs h => h.parsed hs) (fun _ _ h => ⟨h.pending, h.fecSets⟩)
    (fun _ ho => ho.parsed hp hc) hp hp hc h

/-! ## Where a call streams -/

/-- The states in which a call enters `advance_streaming`. -/
inductive EntersStreaming (env : Env C) (clock : Clock) (fuel : ℕ) (acc : SlotAccumulator)
    (cache : ReedSolomonCache C) : Call → SlotAccumulator × List VersionedTransaction → Prop
  | stored {a : DataArgs} : a.lastInSlot = false → acc.batchStart ≤ a.index →
      a.index ∉ acc.pending →
      EntersStreaming env clock fuel acc cache (.data a) (acc.insertData clock a, [])
  | refilled {a : DataArgs} {acc₁ : SlotAccumulator} {out₁ : List VersionedTransaction} :
      a.lastInSlot = false → acc.batchStart ≤ a.index → a.index ∉ acc.pending →
      (acc.insertData clock a).advanceStreaming env fuel [] = some (acc₁, out₁) →
      acc₁.streamingCursor ≤ a.index →
      (acc₁.tryFecFill env clock cache a.fecSetIndex).2.2 = true →
      EntersStreaming env clock fuel acc cache (.data a)
        ((acc₁.tryFecFill env clock cache a.fecSetIndex).1, out₁)
  | code {a : CodeArgs} :
      ((acc.recordCode a).tryFecFill env clock cache a.fecSetIndex).2.2 = true →
      EntersStreaming env clock fuel acc cache (.code a)
        (((acc.recordCode a).tryFecFill env clock cache a.fecSetIndex).1, [])

/-- The states at the head of an iteration of `advance_streaming` in a call. -/
def StreamsAt (env : Env C) (clock : Clock) (fuel : ℕ) (acc : SlotAccumulator)
    (cache : ReedSolomonCache C) (c : Call) (s : SlotAccumulator × List VersionedTransaction) :
    Prop :=
  ∃ s₀, EntersStreaming env clock fuel acc cache c s₀ ∧
    FuelLoop.Visits (advanceStreamingBody env fuel) s₀ s

/-! ## The accumulators of a slot -/

/-- The states between two calls of an accumulator of `slot` that the listener
    keeps. Other slots use the same cache in between, so a call may find any. -/
inductive Live (env : Env C) (fuel : ℕ) (cfg : AccumulatorConfig) (slot : ℕ) :
    SlotAccumulator → Prop
  | fresh : Live env fuel cfg slot (withConfig cfg)
  | call {acc : SlotAccumulator} {clock : Clock} {cache : ReedSolomonCache C} {c : Call}
      {r : CallState C} : Live env fuel cfg slot acc → c.Made slot →
      acc.call env clock fuel cache c = some r → Live env fuel cfg slot { r.acc with dropped := [] }

theorem Live.parsed {fuel : ℕ} {cfg : AccumulatorConfig} {slot : ℕ} {acc : SlotAccumulator}
    (h : Live env fuel cfg slot acc) : acc.Parsed := by
  induction h with
  | fresh => exact parsed_withConfig cfg
  | call _ hc hr ih =>
    have h := ih.call hc.parsed hr
    exact ⟨h.pending, h.fecSets⟩

end SlotAccumulator

end ShredStream
