import ShredStream.Accumulator.Basic

/-!
# The listener (`src/listener.rs`)

The socket is outside the model: `recvOne` takes what `socket.recv` gives.
`FxHashMap` iterates in an unspecified order, so the order in which
`evict_old_slots` retires slots is an arbitrary permutation supplied by the
surroundings of the call. `retired` is a history variable: the accumulators
taken out of `slots`, in order, as their tail harvest left them. Counters that
no modelled function reads back (`bytes_received`, the `unparseable_*` family,
`pool_exhausted`, …) are kept, since the code updates them on every path.
-/

namespace ShredStream

def maxPlausibleSlot : ℕ := 2 ^ 40
def maxSlotJumpForward : ℕ := 1000000
def maxBootstrapSlot : ℕ := 10000000000
def blacklistExtraSlots : ℕ := 50
def completedRetentionSlots : ℕ := 1

/-- The fields of `ListenerOptions` the packet path reads (lines 25–33). -/
structure ListenerOptions where
  maxAge : ℕ := 3
  poolSize : ℕ := 4096
  enableFec : Bool := true
  disableSalvageDelivery : Bool := false
  accumulator : AccumulatorConfig := {}

/-- The counters of the listener itself (lines 57, 62–69 and 76–78). -/
structure PacketCounters where
  poolExhausted : ℕ := 0
  dataShredCount : ℕ := 0
  codeShredCount : ℕ := 0
  bytesReceived : ℕ := 0
  unparseableTooShort : ℕ := 0
  unparseableVariant : ℕ := 0
  unparseablePayload : ℕ := 0
  unparseableSlotRange : ℕ := 0
  droppedKnownSlots : ℕ := 0
  slotsCompletedTotal : ℕ := 0
  slotsEvictedByAge : ℕ := 0
  harvestedBatchesTotal : ℕ := 0
  deriving DecidableEq, Repr

/-- A batch of transactions handed to the caller, with its slot. -/
abbrev TxBatch := ℕ × List VersionedTransaction

/-- `ShredListener` (lines 49–86). `totals` are the eleven `*_total` fields
    that `rollup_accumulator` adds to. -/
structure ShredListener (C : Type) where
  slots : BTreeMap SlotAccumulator := ∅
  recentlySeenSlots : Finset ℕ := ∅
  pendingBatches : List TxBatch := []
  maxAge : ℕ
  lastSlot : ℕ := 0
  pool : ShredPool
  rsCache : ReedSolomonCache C := {}
  enableFec : Bool
  disableSalvageDelivery : Bool
  accumulatorCfg : AccumulatorConfig
  counters : PacketCounters := {}
  totals : Counters := {}
  retired : List (ℕ × SlotAccumulator) := []

/-- `io::ErrorKind`; `TransactionIter::next` retries after the first three. -/
inductive IoErrorKind
  | wouldBlock
  | interrupted
  | timedOut
  | other
  deriving DecidableEq, Repr

/-- The outside world of one call on the listener. -/
structure Surroundings where
  clock : Clock
  /-- The order in which a hash map yields its keys. -/
  hashOrder : List ℕ → List ℕ
  hashOrder_perm : ∀ l, (hashOrder l).Perm l

namespace ShredListener

variable {C : Type}

/-- `ShredListener::from_socket` (lines 113–166). -/
def fromSocket (opts : ListenerOptions) : ShredListener C where
  maxAge := opts.maxAge
  pool := ShredPool.new opts.poolSize
  enableFec := opts.enableFec
  disableSalvageDelivery := opts.disableSalvageDelivery
  accumulatorCfg := opts.accumulator

/-- `rollup_accumulator` (lines 304–338), on the totals. -/
def rollup (t c : Counters) : Counters where
  decodeErrors := wrapAdd64 t.decodeErrors c.decodeErrors
  recoveriesDone := wrapAdd64 t.recoveriesDone c.recoveriesDone
  recoveryFailures := wrapAdd64 t.recoveryFailures c.recoveryFailures
  batchesDecodedStreaming := wrapAdd64 t.batchesDecodedStreaming c.batchesDecodedStreaming
  batchesDecodedFallback := wrapAdd64 t.batchesDecodedFallback c.batchesDecodedFallback
  batchesSkipped := wrapAdd64 t.batchesSkipped c.batchesSkipped
  fecSetsDiscardedUnused := wrapAdd64 t.fecSetsDiscardedUnused c.fecSetsDiscardedUnused
  fecSetsEvictedEarly := wrapAdd64 t.fecSetsEvictedEarly c.fecSetsEvictedEarly
  salvagedTailTx := wrapAdd64 t.salvagedTailTx c.salvagedTailTx
  batchesForceFinalizedCorrupted :=
    wrapAdd64 t.batchesForceFinalizedCorrupted c.batchesForceFinalizedCorrupted
  batchesForceFinalizedTimeout :=
    wrapAdd64 t.batchesForceFinalizedTimeout c.batchesForceFinalizedTimeout

variable (l : ShredListener C)

/-- `ShredListener::slot_count` (lines 183–185). -/
def slotCount : ℕ := l.slots.size

/-! ## Totals -/

/-- `sum_live` (lines 300–302). The iteration order does not matter to a sum. -/
def sumLive (f : Counters → ℕ) : ℕ :=
  (l.slots.toList.map fun e => f e.2.counters).foldl wrapAdd64 0

/-- A `*_total` getter: what was rolled up and what the live slots have. -/
def totalOf (f : Counters → ℕ) : ℕ := wrapAdd64 (f l.totals) (l.sumLive f)

/-- The eleven getters (lines 242–298). -/
def decodeErrorsTotal : ℕ := l.totalOf Counters.decodeErrors
def fecRecoveriesTotal : ℕ := l.totalOf Counters.recoveriesDone
def fecRecoveryFailuresTotal : ℕ := l.totalOf Counters.recoveryFailures
def batchesSkippedTotal : ℕ := l.totalOf Counters.batchesSkipped
def batchesDecodedStreamingTotal : ℕ := l.totalOf Counters.batchesDecodedStreaming
def batchesDecodedFallbackTotal : ℕ := l.totalOf Counters.batchesDecodedFallback
def salvagedTailTxTotal : ℕ := l.totalOf Counters.salvagedTailTx
def fecSetsDiscardedUnusedTotal : ℕ := l.totalOf Counters.fecSetsDiscardedUnused
def fecSetsEvictedEarlyTotal : ℕ := l.totalOf Counters.fecSetsEvictedEarly
def batchesForceFinalizedCorruptedTotal : ℕ := l.totalOf Counters.batchesForceFinalizedCorrupted
def batchesForceFinalizedTimeoutTotal : ℕ := l.totalOf Counters.batchesForceFinalizedTimeout

/-! ## Eviction -/

/-- The body that `evict_old_slots` (lines 499–519) and
    `force_evict_oldest_slot` (lines 563–581) share: harvest the tail of a slot,
    queue it, count the slot, roll its counters up and remember the slot. The
    accumulator is dropped at the end, so its pool buffers become free. -/
def retireSlot (env : Env C) (clock : Clock) (fuel : ℕ) (s : ℕ) : Option (ShredListener C) :=
  match l.slots[s]? with
  | none => some l
  | some acc => do
    let r ← acc.tryHarvestTail env clock fuel l.rsCache
    let c := l.counters
    return { l with
      slots := l.slots.erase s
      rsCache := r.cache
      pendingBatches :=
        if r.out ≠ [] ∧ !l.disableSalvageDelivery then l.pendingBatches ++ [(s, r.out)]
        else l.pendingBatches
      counters := { c with
        harvestedBatchesTotal :=
          if r.out ≠ [] then wrapAdd64 c.harvestedBatchesTotal 1 else c.harvestedBatchesTotal
        slotsCompletedTotal :=
          if r.acc.slotComplete then wrapAdd64 c.slotsCompletedTotal 1 else c.slotsCompletedTotal
        slotsEvictedByAge :=
          if r.acc.slotComplete then c.slotsEvictedByAge else wrapAdd64 c.slotsEvictedByAge 1 }
      totals := rollup l.totals r.acc.counters
      recentlySeenSlots := insert s l.recentlySeenSlots
      pool := l.pool.release
        (r.acc.dropped ++ r.acc.pending.toList.filterMap (·.2.source.bufferIdx))
      retired := l.retired ++ [(s, r.acc)] }

/-- `for s in to_evict { … }` (lines 498–519). -/
def retireSlots (env : Env C) (clock : Clock) (fuel : ℕ) :
    ShredListener C → List ℕ → Option (ShredListener C)
  | l, [] => some l
  | l, s :: rest => do
    let l ← l.retireSlot env clock fuel s
    retireSlots env clock fuel l rest

/-- The retention of a slot (lines 486–490). -/
def retention (acc : SlotAccumulator) : ℕ :=
  if acc.slotComplete then completedRetentionSlots else l.maxAge

/-- The slots `evict_old_slots` removes (lines 482–496). -/
def toEvict : List ℕ :=
  (l.slots.toList.filter fun e => l.lastSlot > satAdd64 e.1 (l.retention e.2)).map Prod.fst

/-- `blacklist_floor` (lines 522–524). -/
def blacklistFloor : ℕ := l.lastSlot - wrapAdd64 l.maxAge blacklistExtraSlots

/-- `ShredListener::evict_old_slots` (lines 479–528). -/
def evictOldSlots (env : Env C) (sur : Surroundings) (fuel : ℕ) : Option (ShredListener C) := do
  let l ← retireSlots env sur.clock fuel l (sur.hashOrder l.toEvict)
  return { l with recentlySeenSlots := l.recentlySeenSlots.filter (· ≥ l.blacklistFloor) }

/-- `ShredListener::force_evict_oldest_slot` (lines 560–583). -/
def forceEvictOldestSlot (env : Env C) (sur : Surroundings) (fuel : ℕ) :
    Option (ShredListener C) :=
  match l.slots.keys.head? with
  | none => some l
  | some s => l.retireSlot env sur.clock fuel s

/-- `ShredListener::acquire_buffer_with_fallback` (lines 548–558): the index of
    the buffer, if one was found. -/
def acquireBufferWithFallback (env : Env C) (sur : Surroundings) (fuel : ℕ) :
    Option (ShredListener C × Option ℕ) :=
  match l.pool.acquire with
  | some (idx, pool) => some ({ l with pool }, some idx)
  | none => do
    let l ← l.evictOldSlots env sur fuel
    match l.pool.acquire with
    | some (idx, pool) => some ({ l with pool }, some idx)
    | none => do
      let l ← l.forceEvictOldestSlot env sur fuel
      match l.pool.acquire with
      | some (idx, pool) => some ({ l with pool }, some idx)
      | none => some (l, none)

/-! ## Packets -/

/-- The slot range check (lines 388–391, 435–437). -/
def slotOutOfRange (slot : ℕ) : Bool :=
  slot > maxPlausibleSlot || (l.lastSlot = 0 && slot > maxBootstrapSlot) ||
    (l.lastSlot > 0 && slot > satAdd64 l.lastSlot maxSlotJumpForward)

/-- Dropping a handle that no accumulator took. -/
def freeBuffer (idx : ℕ) : ShredListener C := { l with pool := l.pool.release [idx] }

/-- `if slot > self.last_slot { … }` (lines 402–405, 451–454). -/
def advanceSlot (env : Env C) (sur : Surroundings) (fuel : ℕ) (slot : ℕ) :
    Option (ShredListener C) :=
  if slot > l.lastSlot then { l with lastSlot := slot }.evictOldSlots env sur fuel else some l

/-- `self.slots.entry(slot).or_insert_with(…)` (lines 409–412, 457–460). -/
def slotEntry (slot : ℕ) : SlotAccumulator :=
  (l.slots[slot]?).getD (SlotAccumulator.withConfig l.accumulatorCfg)

/-- What a call on the accumulator of `slot` leaves behind: the accumulator,
    the cache, and the buffers it dropped. -/
def finishCall (slot : ℕ) (r : SlotAccumulator.CallState C) : ShredListener C × Option TxBatch :=
  ({ l with
     slots := l.slots.insert slot { r.acc with dropped := [] }
     rsCache := r.cache
     pool := l.pool.release r.acc.dropped },
    if r.out.isEmpty then none else some (slot, r.out))

/-- The counter a parse error bumps (lines 363–374). -/
def countParseError (c : PacketCounters) : ParseError → PacketCounters
  | .tooShort => { c with unparseableTooShort := wrapAdd64 c.unparseableTooShort 1 }
  | .unknownVariant => { c with unparseableVariant := wrapAdd64 c.unparseableVariant 1 }
  | .payloadInvalid => { c with unparseablePayload := wrapAdd64 c.unparseablePayload 1 }

/-- A packet whose slot is out of range (lines 392–393, 439–440). -/
def rejectRange (idx : ℕ) : ShredListener C :=
  { l with counters := { l.counters with
      unparseableSlotRange := wrapAdd64 l.counters.unparseableSlotRange 1 } }.freeBuffer idx

/-- A packet of a slot that was retired recently (lines 396–397, 443–444). -/
def rejectKnown (idx : ℕ) : ShredListener C :=
  { l with counters := { l.counters with
      droppedKnownSlots := wrapAdd64 l.counters.droppedKnownSlots 1 } }.freeBuffer idx

/-- The data path of `handle_packet_owned` (lines 379–428). -/
def handleData (env : Env C) (sur : Surroundings) (fuel : ℕ) (handle : BufferHandle)
    (d : DataShred) : Option (ShredListener C × Option TxBatch) :=
  if l.slotOutOfRange d.slot then some (l.rejectRange handle.idx, none)
  else if d.slot ∈ l.recentlySeenSlots then some (l.rejectKnown handle.idx, none)
  else do
    let l := { l with counters := { l.counters with
      dataShredCount := wrapAdd64 l.counters.dataShredCount 1 } }
    let l ← l.advanceSlot env sur fuel d.slot
    let r ← (l.slotEntry d.slot).pushData env sur.clock fuel l.rsCache {
      index := d.index
      fecSetIndex := d.fecSetIndex
      handle
      payloadEnd := asU16 (dataHeaderSize + d.payload.length)
      batchComplete := d.batchComplete
      lastInSlot := d.lastInSlot }
    return l.finishCall d.slot r

/-- The code path of `handle_packet_owned` (lines 430–477). The buffer is freed
    when the call returns. -/
def handleCode (env : Env C) (sur : Surroundings) (fuel : ℕ) (handle : BufferHandle)
    (c : CodeShred) : Option (ShredListener C × Option TxBatch) :=
  if l.slotOutOfRange c.slot then some (l.rejectRange handle.idx, none)
  else if c.slot ∈ l.recentlySeenSlots then some (l.rejectKnown handle.idx, none)
  else
    let l := { l with counters := { l.counters with
      codeShredCount := wrapAdd64 l.counters.codeShredCount 1 } }
    if !l.enableFec then some (l.freeBuffer handle.idx, none)
    else do
      let l ← l.advanceSlot env sur fuel c.slot
      let r ← (l.slotEntry c.slot).pushCode env sur.clock fuel l.rsCache {
        fecSetIndex := c.fecSetIndex
        numData := c.numDataShreds
        numCoding := c.numCodingShreds
        position := c.position
        coded := c.coded
        variant := c.variant }
      let (l, out) := l.finishCall c.slot r
      return (l.freeBuffer handle.idx, out)

/-- `ShredListener::handle_packet_owned` (lines 354–477). -/
def handlePacketOwned (env : Env C) (sur : Surroundings) (fuel : ℕ) (handle : BufferHandle) :
    Option (ShredListener C × Option TxBatch) :=
  let l := { l with counters := { l.counters with
    bytesReceived := wrapAdd64 l.counters.bytesReceived handle.bytes.length } }
  match parseKind handle.bytes with
  | .error e => some ({ l with counters := countParseError l.counters e }.freeBuffer handle.idx, none)
  | .ok (.data d) => l.handleData env sur fuel handle d
  | .ok (.code c) => l.handleCode env sur fuel handle c

/-- `self.pool_exhausted.wrapping_add(1)`. -/
def countPoolExhausted : ShredListener C :=
  { l with counters := { l.counters with
      poolExhausted := wrapAdd64 l.counters.poolExhausted 1 } }

/-- `ShredListener::handle_packet` (lines 340–352). -/
def handlePacket (env : Env C) (sur : Surroundings) (fuel : ℕ) (raw : Bytes) :
    Option (ShredListener C × Option TxBatch) := do
  let (l, buffer) ← l.acquireBufferWithFallback env sur fuel
  match buffer with
  | none => return (l.countPoolExhausted, none)
  | some idx => l.handlePacketOwned env sur fuel { idx, bytes := raw.take bufSize }

/-- `ShredListener::recv_one` (lines 530–546) when `socket.recv` would give
    `datagram`: the result, and whether the socket was read. -/
def recvOne (env : Env C) (sur : Surroundings) (fuel : ℕ) (datagram : Except IoErrorKind Bytes) :
    Option (ShredListener C × Except IoErrorKind (Option TxBatch) × Bool) :=
  match l.pendingBatches with
  | batch :: rest => some ({ l with pendingBatches := rest }, .ok (some batch), false)
  | [] => do
    let (l, buffer) ← l.acquireBufferWithFallback env sur fuel
    match buffer, datagram with
    | none, .error e => return (l.countPoolExhausted, .error e, true)
    | none, .ok _ => return (l.countPoolExhausted, .ok none, true)
    | some idx, .error e => return (l.freeBuffer idx, .error e, true)
    | some idx, .ok bytes =>
      let (l, out) ← l.handlePacketOwned env sur fuel { idx, bytes := bytes.take bufSize }
      return (l, .ok out, true)

end ShredListener

end ShredStream
