import ShredStream.Decoder.Basic
import ShredStream.Library.FirstByKey
import ShredStream.Library.Loop
import ShredStream.Library.Runs
import ShredStream.Pool
import ShredStream.Wire.Fec
import ShredStream.Wire.Parser

/-!
# The slot accumulator (`src/accumulator.rs`)

Every loop whose progress depends on `u32::saturating_add` takes a `fuel`
argument; `none` means that the call does not return (the fuel ran out, or the
thread panicked). `out`, a `&mut Vec` in the code, is returned.

`combined_scratch` is cleared before each use and is local here. Three fields
are not in the source: `dropped` lists the pool buffers freed by dropping
shreds, which the pool gets back when the call returns (nothing acquires a
buffer during a call), and `finalized` and `completions` are history variables
that record every execution of `complete_batch` and every setting of
`slot_complete` and are never read by the model.
-/

namespace ShredStream

open FirstByKey

/-- `AccumulatorConfig` (lines 17–20), durations in nanoseconds. -/
structure AccumulatorConfig where
  maxFecSetsPerSlot : ℕ := 32
  stuckBatchTimeout : ℕ := 50000000
  deriving DecidableEq, Repr

/-- `PayloadSource` (lines 31–34). -/
inductive PayloadSource
  | pool (h : BufferHandle)
  | recovered (v : Bytes)
  deriving DecidableEq, Repr

namespace PayloadSource

/-- `PayloadSource::slice` (lines 37–42). -/
def slice : PayloadSource → Bytes
  | pool h => h.bytes
  | recovered v => v

/-- `matches!(source, PayloadSource::Recovered(_))`. -/
def isRecovered : PayloadSource → Bool
  | pool _ => false
  | recovered _ => true

/-- The pool buffer that dropping the source frees. -/
def bufferIdx : PayloadSource → Option ℕ
  | pool h => some h.idx
  | recovered _ => none

end PayloadSource

/-- `PendingShred` (lines 45–50). -/
structure PendingShred where
  source : PayloadSource
  payloadEnd : ℕ
  batchComplete : Bool
  fecSetIndex : ℕ
  deriving DecidableEq, Repr

/-- `PendingShred::payload` (lines 53–60). -/
def PendingShred.payload (ps : PendingShred) : Option Bytes :=
  let buf := ps.source.slice
  if ps.payloadEnd < dataHeaderSize ∨ ps.payloadEnd > buf.length then none
  else some ((buf.take ps.payloadEnd).drop dataHeaderSize)

/-- The counters of an accumulator (lines 78–88). -/
structure Counters where
  decodeErrors : ℕ := 0
  recoveriesDone : ℕ := 0
  recoveryFailures : ℕ := 0
  batchesDecodedStreaming : ℕ := 0
  batchesDecodedFallback : ℕ := 0
  batchesSkipped : ℕ := 0
  fecSetsDiscardedUnused : ℕ := 0
  fecSetsEvictedEarly : ℕ := 0
  salvagedTailTx : ℕ := 0
  batchesForceFinalizedCorrupted : ℕ := 0
  batchesForceFinalizedTimeout : ℕ := 0
  deriving DecidableEq, Repr

/-- One execution of `complete_batch`: the batch start before it, the boundary
    it was given, and what was pending. -/
structure Finalization where
  start : ℕ
  bcIdx : ℕ
  pending : BTreeMap PendingShred

/-- One setting of `slot_complete`: the index of the last shred, and the batch start
    and what was pending at that moment. -/
structure Completion where
  index : ℕ
  batchStart : ℕ
  pending : BTreeMap PendingShred

/-- `SlotAccumulator` (lines 63–90). -/
structure SlotAccumulator where
  cfg : AccumulatorConfig
  pending : BTreeMap PendingShred := ∅
  fecSets : BTreeMap FecSetBuffer := ∅
  /-- Boundary index ↦ the `Instant` at which it was first seen. -/
  batchCompleteIndices : BTreeMap ℕ := ∅
  streamingCursor : ℕ := 0
  streamingDecoder : StreamingDecoder := {}
  yieldedSigs : Finset Signature := ∅
  batchStart : ℕ := 0
  slotComplete : Bool := false
  counters : Counters := {}
  dropped : List ℕ := []
  finalized : List Finalization := []
  completions : List Completion := []

/-- The outside world of one call: the `Instant` read when a boundary is
    recorded, and what `elapsed()` gives for a boundary first seen at some
    instant. Any outcome of the stuck-batch test is possible. -/
structure Clock where
  now : ℕ → ℕ
  elapsed : ℕ → ℕ → ℕ

/-- The third-party code the accumulator calls. -/
structure Env (C : Type) where
  wincode : Wincode
  reedSolomon : ReedSolomonCrate C

/-- `x as u16`. -/
def asU16 (x : ℕ) : ℕ := x % 2 ^ 16

/-- The key of `record_sig`: the first signature. -/
def VersionedTransaction.firstSig (tx : VersionedTransaction) : Option Signature :=
  tx.signatures.head?

namespace SlotAccumulator

/-- `SlotAccumulator::with_config` (lines 93–117). -/
def withConfig (cfg : AccumulatorConfig) : SlotAccumulator := { cfg }

variable (acc : SlotAccumulator)

/-! ## Signatures -/

/-- `SlotAccumulator::record_sig` (lines 657–664). -/
def recordSig (tx : VersionedTransaction) : SlotAccumulator × Bool :=
  match tx.firstSig with
  | none => (acc, false)
  | some sig =>
    ({ acc with yieldedSigs := insert sig acc.yieldedSigs }, decide (sig ∉ acc.yieldedSigs))

/-- `for tx in txs { if self.record_sig(&tx) { out.push(tx) } }`: the
    transactions pushed. -/
def recordAll (acc : SlotAccumulator) :
    List VersionedTransaction → SlotAccumulator × List VersionedTransaction
  | [] => (acc, [])
  | tx :: txs =>
    let (acc, isNew) := acc.recordSig tx
    let (acc, rest) := recordAll acc txs
    (acc, if isNew then tx :: rest else rest)

/-! ## Batches -/

/-- The payload appended to `combined_scratch` for index `i`, if there is one. -/
def payloadAt (i : ℕ) : Bytes :=
  match acc.pending[i]? with
  | some ps => ps.payload.getD []
  | none => []

/-- `combined_scratch` after the `for i in start..=bc_idx` loops. -/
def combined (start bcIdx : ℕ) : Bytes :=
  (List.range' start (bcIdx + 1 - start)).flatMap acc.payloadAt

/-- `SlotAccumulator::complete_batch` (lines 508–520). -/
def completeBatch (bcIdx : ℕ) : SlotAccumulator :=
  let nextStart := satAdd32 bcIdx 1
  { acc with
    pending := acc.pending.filter fun k _ => k ≥ nextStart
    batchCompleteIndices := acc.batchCompleteIndices.filter fun k _ => k ≥ nextStart
    fecSets := acc.fecSets.filter fun setIdx fec =>
      !(fec.numData > 0 && satAdd32 setIdx fec.numData ≤ nextStart)
    batchStart := nextStart
    streamingCursor := max acc.streamingCursor nextStart
    streamingDecoder := acc.streamingDecoder.reset
    yieldedSigs := ∅
    dropped := acc.dropped ++
      (acc.pending.toList.filter fun e => e.1 < nextStart).filterMap (·.2.source.bufferIdx)
    finalized := acc.finalized ++ [⟨acc.batchStart, bcIdx, acc.pending⟩] }

/-- The counters after a batch whose shreds were salvaged (lines 269–275,
    458–464, 576–582). -/
def countSalvage (salvaged : ℕ) : SlotAccumulator :=
  { acc with
    counters :=
      if salvaged > 0 then
        { acc.counters with
          batchesDecodedFallback := satAdd64 acc.counters.batchesDecodedFallback 1 }
      else { acc.counters with batchesSkipped := satAdd64 acc.counters.batchesSkipped 1 } }

/-- Decode `combined_scratch` as one batch (lines 482–504, 547–573): the new
    transactions are pushed and the outcome is counted. -/
def decodeCombined {C : Type} (env : Env C) (start bcIdx : ℕ) :
    SlotAccumulator × List VersionedTransaction :=
  match decodeBatch env.wincode (acc.combined start bcIdx) with
  | some txs =>
    let (acc, fresh) := acc.recordAll txs
    let c := acc.counters
    ({ acc with
       counters :=
        if fresh ≠ [] then { c with batchesDecodedFallback := satAdd64 c.batchesDecodedFallback 1 }
        else { c with batchesDecodedStreaming := satAdd64 c.batchesDecodedStreaming 1 } },
      fresh)
  | none =>
    let c := acc.counters
    ({ acc with
       counters := { c with
        decodeErrors := satAdd32 c.decodeErrors 1
        batchesSkipped := satAdd64 c.batchesSkipped 1 } },
      [])

/-! ## Salvage -/

/-- The loop that skips absent indices (lines 630–632). -/
def skipAbsent (endIdx : ℕ) (cursor : ℕ) : Option (ℕ ⊕ ℕ) :=
  if cursor ≤ endIdx ∧ cursor ∉ acc.pending then some (.inl (satAdd32 cursor 1))
  else some (.inr cursor)

/-- The loop that collects a contiguous run (lines 637–644). -/
def gatherRun (endIdx : ℕ) (s : ℕ × Bytes) : Option ((ℕ × Bytes) ⊕ (ℕ × Bytes)) :=
  if s.1 ≤ endIdx ∧ s.1 ∈ acc.pending then
    some (.inl (satAdd32 s.1 1, s.2 ++ acc.payloadAt s.1))
  else some (.inr s)

/-- Push what `decode_concatenated` finds in a run (lines 603–609, 645–652). -/
def decodeRun {C : Type} (env : Env C) (scratch : Bytes) :
    SlotAccumulator × List VersionedTransaction :=
  if scratch.isEmpty then (acc, [])
  else acc.recordAll (decodeConcatenated env.wincode scratch)

/-- The mutable state of `salvage_contiguous_runs_in`. -/
structure SalvageState where
  acc : SlotAccumulator
  out : List VersionedTransaction
  salvaged : ℕ
  cursor : ℕ

/-- The body of the outer loop of `salvage_contiguous_runs_in` (lines 629–653). -/
def salvageBody {C : Type} (env : Env C) (fuel : ℕ) (endIdx : ℕ) (s : SalvageState) :
    Option (SalvageState ⊕ SalvageState) :=
  if s.cursor ≤ endIdx then do
    let cursor ← FuelLoop.run (s.acc.skipAbsent endIdx) fuel s.cursor
    if cursor > endIdx then return .inr { s with cursor }
    let (cursor, scratch) ← FuelLoop.run (s.acc.gatherRun endIdx) fuel (cursor, [])
    let (acc, new) := s.acc.decodeRun env scratch
    return .inl { acc, out := s.out ++ new, salvaged := s.salvaged + new.length, cursor }
  else return .inr s

/-- `SlotAccumulator::salvage_contiguous_runs_in` (lines 621–655): the new
    state, `out`, and the number of transactions salvaged. -/
def salvageContiguousRunsIn {C : Type} (env : Env C) (fuel : ℕ) (start endIdx : ℕ)
    (out : List VersionedTransaction) :
    Option (SlotAccumulator × List VersionedTransaction × ℕ) := do
  let s ← FuelLoop.run (salvageBody env fuel endIdx) fuel
    { acc, out, salvaged := 0, cursor := start }
  return (s.acc, s.out, s.salvaged)

/-! ## Streaming -/

/-- The body of the loop of `advance_streaming` (lines 246–305) on `(self, out)`. -/
def advanceStreamingBody {C : Type} (env : Env C) (fuel : ℕ)
    (s : SlotAccumulator × List VersionedTransaction) :
    Option ((SlotAccumulator × List VersionedTransaction) ⊕
      (SlotAccumulator × List VersionedTransaction)) :=
  let (acc, out) := s
  match acc.pending[acc.streamingCursor]? with
  | none => some (.inr (acc, out))
  | some ps =>
    if ps.source.isRecovered then some (.inr (acc, out))
    else
      match ps.payload with
      | none => do
        -- the shred cannot be decoded: it is dropped, and a batch it would
        -- have ended is salvaged and finalised
        let droppedIdx := acc.streamingCursor
        let acc := { acc with
          pending := acc.pending.erase droppedIdx
          batchCompleteIndices :=
            if ps.batchComplete then acc.batchCompleteIndices.erase droppedIdx
            else acc.batchCompleteIndices
          streamingCursor := satAdd32 acc.streamingCursor 1
          counters := { acc.counters with
            decodeErrors := satAdd32 acc.counters.decodeErrors 1 }
          dropped := acc.dropped ++ ps.source.bufferIdx.toList }
        if ps.batchComplete ∧ droppedIdx > acc.batchStart then
          let (acc, out, salvaged) ←
            acc.salvageContiguousRunsIn env fuel acc.batchStart (droppedIdx - 1) out
          let acc := acc.countSalvage salvaged
          let acc := { acc with
            counters := { acc.counters with
              batchesForceFinalizedCorrupted :=
                satAdd64 acc.counters.batchesForceFinalizedCorrupted 1 } }
          return .inl (acc.completeBatch droppedIdx, out)
        else return .inl (acc, out)
      | some payload => do
        let (decoder, result) ← acc.streamingDecoder.push env.wincode payload
        let acc := { acc with
          streamingDecoder := decoder
          streamingCursor := satAdd32 acc.streamingCursor 1 }
        match result with
        | .ok txs =>
          let (acc, new) := acc.recordAll txs
          if ps.batchComplete then return .inr (acc, out ++ new)
          else return .inl (acc, out ++ new)
        | .error _ =>
          return .inr ({ acc with
            counters := { acc.counters with
              decodeErrors := satAdd32 acc.counters.decodeErrors 1 }
            streamingDecoder := acc.streamingDecoder.reset }, out)

/-- `SlotAccumulator::advance_streaming` (lines 241–306). -/
def advanceStreaming {C : Type} (env : Env C) (fuel : ℕ) (out : List VersionedTransaction) :
    Option (SlotAccumulator × List VersionedTransaction) :=
  FuelLoop.run (advanceStreamingBody env fuel) fuel (acc, out)

/-! ## FEC recovery -/

/-- `data_count_for` in `select_recoverable_set` (lines 391–400). -/
def dataCountFor (setIdx : ℕ) (fec : FecSetBuffer) : ℕ :=
  if fec.numData = 0 then 0
  else (acc.pending.toList.filter fun e =>
    setIdx ≤ e.1 && e.1 < satAdd32 setIdx fec.numData && e.2.fecSetIndex = setIdx).length

/-- `SlotAccumulator::select_recoverable_set` (lines 389–419). -/
def selectRecoverableSet (hint : ℕ) : Option ℕ :=
  let covering := (acc.fecSets.toList.find? fun e =>
    e.2.numData != 0 && e.1 ≤ acc.streamingCursor &&
      acc.streamingCursor < wrapAdd32 e.1 e.2.numData &&
      e.2.canRecoverWith (acc.dataCountFor e.1 e.2)).map Prod.fst
  match acc.fecSets[hint]? with
  | some fec => if fec.canRecoverWith (acc.dataCountFor hint fec) then some hint else covering
  | none => covering

/-- The data shreds of a set at hand (lines 324–333). -/
def dataRefs (setIdx nd : ℕ) : List (ℕ × Bytes) :=
  (acc.pending.toList.filter fun e =>
    e.1 ≥ setIdx && e.1 - setIdx < nd && e.2.fecSetIndex = setIdx).map
    fun e => (asU16 (e.1 - setIdx), e.2.source.slice)

/-- `self.slot_complete = true` for the last shred, at `index` (lines 168, 362). -/
def completeSlot (index : ℕ) : SlotAccumulator :=
  { acc with
    slotComplete := true
    completions := acc.completions ++
      [{ index, batchStart := acc.batchStart, pending := acc.pending }] }

/-- The body of the `for (position_in_set, bytes) in recovered` loop (lines
    348–380) on `(self, any)`. -/
def insertRecovered (clock : Clock) (setIdx : ℕ) (s : SlotAccumulator × Bool)
    (r : ℕ × Bytes) : SlotAccumulator × Bool :=
  let (acc, any) := s
  let (positionInSet, bytes) := r
  let globalIndex := wrapAdd32 setIdx positionInSet
  if globalIndex < acc.batchStart ∨ globalIndex ∈ acc.pending then (acc, any)
  else
    match parseKind bytes with
    | .ok (.data d) =>
      if d.lastInSlot then (acc.completeSlot globalIndex, any)
      else
        ({ acc with
           pending := acc.pending.insert globalIndex {
            source := .recovered bytes
            payloadEnd := asU16 (dataHeaderSize + d.payload.length)
            batchComplete := d.batchComplete
            fecSetIndex := setIdx }
           batchCompleteIndices :=
            if d.batchComplete then
              acc.batchCompleteIndices.insertIfNew globalIndex (clock.now globalIndex)
            else acc.batchCompleteIndices },
          true)
    | _ => (acc, any)

/-- `SlotAccumulator::try_fec_fill` (lines 308–387). -/
def tryFecFill {C : Type} (env : Env C) (clock : Clock) (cache : ReedSolomonCache C) (hint : ℕ) :
    SlotAccumulator × ReedSolomonCache C × Bool :=
  match acc.selectRecoverableSet hint with
  | none => (acc, cache, false)
  | some setIdx =>
    match acc.fecSets[setIdx]? with
    | none => (acc, cache, false)
    | some fec =>
      if fec.numData = 0 then (acc, cache, false)
      else
        match fec.tryReconstruct env.reedSolomon (acc.dataRefs setIdx fec.numData) cache with
        | (cache, none) =>
          ({ acc with
             counters := { acc.counters with
              recoveryFailures := satAdd64 acc.counters.recoveryFailures 1 } },
            cache, false)
        | (cache, some recovered) =>
          let (acc, any) := recovered.foldl (insertRecovered clock setIdx) (acc, false)
          if any then
            ({ acc with
               counters := { acc.counters with
                recoveriesDone := satAdd64 acc.counters.recoveriesDone 1 }
               fecSets := acc.fecSets.erase setIdx },
              cache, true)
          else (acc, cache, false)

/-- `for h in hints { self.try_fec_fill(h, rs_cache); }`. -/
def fillHints {C : Type} (env : Env C) (clock : Clock) :
    SlotAccumulator → ReedSolomonCache C → List ℕ → SlotAccumulator × ReedSolomonCache C
  | acc, cache, [] => (acc, cache)
  | acc, cache, h :: hints =>
    let (acc, cache, _) := acc.tryFecFill env clock cache h
    fillHints env clock acc cache hints

/-! ## Flushing -/

/-- What a call works on and returns: the accumulator, the Reed-Solomon cache
    and `out`. -/
structure CallState (C : Type) where
  acc : SlotAccumulator
  cache : ReedSolomonCache C
  out : List VersionedTransaction

/-- The FEC sets that may fill a gap of `[start, bc_idx]` (lines 440–448). -/
def flushHints (start bcIdx : ℕ) : List ℕ :=
  (acc.fecSets.toList.filter fun e =>
    e.2.numData != 0 && wrapAdd32 e.1 e.2.numData > start && e.1 ≤ bcIdx).map Prod.fst

/-- `expected` (line 437): `(bc_idx - start + 1) as usize`. -/
def expectedCount (start bcIdx : ℕ) : ℕ := wrapAdd32 (bcIdx - start) 1

/-- The state in which an iteration that picked the boundary `bc_idx` decides
    what to do: as it was found, or after the recoveries (lines 437–453). -/
def flushFill {C : Type} (env : Env C) (clock : Clock) (cache : ReedSolomonCache C) (bcIdx : ℕ) :
    SlotAccumulator × ReedSolomonCache C :=
  if acc.pending.countIn acc.batchStart bcIdx < expectedCount acc.batchStart bcIdx then
    fillHints env clock acc cache (acc.flushHints acc.batchStart bcIdx)
  else (acc, cache)

/-- The body of the loop of `try_flush_batches` (lines 426–505). -/
def flushBody {C : Type} (env : Env C) (clock : Clock) (fuel : ℕ) (s : CallState C) :
    Option (CallState C ⊕ CallState C) :=
  match s.acc.batchCompleteIndices.firstFrom s.acc.batchStart with
  | none => some (.inr s)
  | some (bcIdx, firstSeen) =>
    let start := s.acc.batchStart
    let (acc, cache) := s.acc.flushFill env clock s.cache bcIdx
    if acc.pending.countIn start bcIdx < expectedCount start bcIdx then
      if clock.elapsed bcIdx firstSeen ≥ acc.cfg.stuckBatchTimeout then do
        let (acc, out, salvaged) ← acc.salvageContiguousRunsIn env fuel start bcIdx s.out
        let acc := acc.countSalvage salvaged
        let acc := { acc with
          counters := { acc.counters with
            batchesForceFinalizedTimeout := satAdd64 acc.counters.batchesForceFinalizedTimeout 1 } }
        return .inl { acc := acc.completeBatch bcIdx, cache, out }
      else some (.inr { acc, cache, out := s.out })
    else
      let (acc, new) := acc.decodeCombined env start bcIdx
      some (.inl { acc := acc.completeBatch bcIdx, cache, out := s.out ++ new })

/-- `SlotAccumulator::try_flush_batches` (lines 421–506). -/
def tryFlushBatches {C : Type} (env : Env C) (clock : Clock) (fuel : ℕ)
    (cache : ReedSolomonCache C) (out : List VersionedTransaction) : Option (CallState C) :=
  FuelLoop.run (flushBody env clock fuel) fuel { acc, cache, out }

/-! ## Entry points -/

/-- The arguments of `push_data`. -/
structure DataArgs where
  index : ℕ
  fecSetIndex : ℕ
  handle : BufferHandle
  payloadEnd : ℕ
  batchComplete : Bool
  lastInSlot : Bool

/-- The shred `push_data` stores. -/
def DataArgs.shred (a : DataArgs) : PendingShred where
  source := .pool a.handle
  payloadEnd := a.payloadEnd
  batchComplete := a.batchComplete
  fecSetIndex := a.fecSetIndex

/-- Store a shred (lines 177–192). -/
def insertData (clock : Clock) (a : DataArgs) : SlotAccumulator :=
  { acc with
    pending := acc.pending.insert a.index a.shred
    batchCompleteIndices :=
      if a.batchComplete then acc.batchCompleteIndices.insertIfNew a.index (clock.now a.index)
      else acc.batchCompleteIndices }

/-- The buffer of a shred that is not stored is freed when the call returns. -/
def dropHandle (h : BufferHandle) : SlotAccumulator := { acc with dropped := acc.dropped ++ [h.idx] }

/-- `SlotAccumulator::push_data` (lines 157–204). -/
def pushData {C : Type} (env : Env C) (clock : Clock) (fuel : ℕ) (cache : ReedSolomonCache C)
    (a : DataArgs) : Option (CallState C) :=
  if a.lastInSlot then do
    let s ← (acc.completeSlot a.index).tryFlushBatches env clock fuel cache []
    return { s with acc := s.acc.dropHandle a.handle }
  else if a.index < acc.batchStart then some ⟨acc.dropHandle a.handle, cache, []⟩
  else if a.index ∈ acc.pending then some ⟨acc.dropHandle a.handle, cache, []⟩
  else do
    let (acc, out) ← (acc.insertData clock a).advanceStreaming env fuel []
    if acc.streamingCursor ≤ a.index then
      let (acc, cache, filled) := acc.tryFecFill env clock cache a.fecSetIndex
      if filled then
        let (acc, out) ← acc.advanceStreaming env fuel out
        acc.tryFlushBatches env clock fuel cache out
      else acc.tryFlushBatches env clock fuel cache out
    else acc.tryFlushBatches env clock fuel cache out

/-- The arguments of `push_code`. -/
structure CodeArgs where
  fecSetIndex : ℕ
  numData : ℕ
  numCoding : ℕ
  position : ℕ
  coded : Bytes
  variant : VariantKind

/-- Make room for and record a code shred (lines 216–231). -/
def recordCode (a : CodeArgs) : SlotAccumulator :=
  let acc :=
    if acc.fecSets.size ≥ acc.cfg.maxFecSetsPerSlot ∧ a.fecSetIndex ∉ acc.fecSets then
      match acc.fecSets.toList.head? with
      | some (oldest, _) =>
        if oldest < a.fecSetIndex then
          { acc with
            fecSets := acc.fecSets.erase oldest
            counters := { acc.counters with
              fecSetsEvictedEarly := satAdd64 acc.counters.fecSetsEvictedEarly 1 } }
        else acc
      | none => acc
    else acc
  let entry := (acc.fecSets[a.fecSetIndex]?).getD (FecSetBuffer.new a.fecSetIndex)
  { acc with
    fecSets := acc.fecSets.insert a.fecSetIndex
      (entry.recordCode a.position a.numData a.numCoding a.coded a.variant) }

/-- `SlotAccumulator::push_code` (lines 206–239). -/
def pushCode {C : Type} (env : Env C) (clock : Clock) (fuel : ℕ) (cache : ReedSolomonCache C)
    (a : CodeArgs) : Option (CallState C) := do
  let (acc, cache, filled) := (acc.recordCode a).tryFecFill env clock cache a.fecSetIndex
  let (acc, out) ← if filled then acc.advanceStreaming env fuel [] else some (acc, [])
  acc.tryFlushBatches env clock fuel cache out

/-! ## Tail harvest -/

/-- The body of the `for bc_idx in boundaries` loop of `try_harvest_tail`
    (lines 541–585). -/
def harvestBoundary {C : Type} (env : Env C) (fuel : ℕ) (bcIdx : ℕ)
    (out : List VersionedTransaction) : Option (SlotAccumulator × List VersionedTransaction) :=
  let start := acc.batchStart
  if bcIdx < start then some (acc, out)
  else if (List.range' start (bcIdx + 1 - start)).all (· ∈ acc.pending) then
    let (acc, new) := acc.decodeCombined env start bcIdx
    some (acc.completeBatch bcIdx, out ++ new)
  else do
    let (acc, out, salvaged) ← acc.salvageContiguousRunsIn env fuel start bcIdx out
    return ((acc.countSalvage salvaged).completeBatch bcIdx, out)

/-- The `for bc_idx in boundaries` loop of `try_harvest_tail`. -/
def harvestBoundaries {C : Type} (env : Env C) (fuel : ℕ) :
    SlotAccumulator → List VersionedTransaction → List ℕ →
      Option (SlotAccumulator × List VersionedTransaction)
  | acc, out, [] => some (acc, out)
  | acc, out, bcIdx :: rest => do
    let (acc, out) ← acc.harvestBoundary env fuel bcIdx out
    harvestBoundaries env fuel acc out rest

/-- The loop over the contiguous runs of what is left (lines 587–611). -/
def harvestRuns {C : Type} (env : Env C) :
    SlotAccumulator → List VersionedTransaction → List (List ℕ) →
      SlotAccumulator × List VersionedTransaction
  | acc, out, [] => (acc, out)
  | acc, out, run :: rest =>
    let (acc, new) := acc.decodeRun env (run.flatMap acc.payloadAt)
    harvestRuns env acc (out ++ new) rest

/-- `SlotAccumulator::try_harvest_tail` (lines 522–619). -/
def tryHarvestTail {C : Type} (env : Env C) (clock : Clock) (fuel : ℕ) (cache : ReedSolomonCache C) :
    Option (CallState C) := do
  let (acc, cache) := fillHints env clock acc cache acc.fecSets.keys
  let boundaries :=
    ((acc.pending.toList.filter fun e => e.2.batchComplete).map Prod.fst).filter
      (· ≥ acc.batchStart)
  let (acc, out) ← harvestBoundaries env fuel acc [] boundaries
  let (acc, out) := harvestRuns env acc out (Runs.runs acc.pending.keys)
  return {
    acc := { acc with
      counters := { acc.counters with
        fecSetsDiscardedUnused := satAdd64 acc.counters.fecSetsDiscardedUnused acc.fecSets.size
        salvagedTailTx := satAdd64 acc.counters.salvagedTailTx out.length } }
    cache, out }

end SlotAccumulator

end ShredStream
