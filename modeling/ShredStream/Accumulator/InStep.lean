import ShredStream.Accumulator.LostShreds
import ShredStream.Accumulator.Represents
import ShredStream.Decoder.Corruption
import ShredStream.Slot.Basic

/-!
# The fast path reads a batch from its first byte

`advance_streaming` hands the shreds of a batch to the incremental decoder one by one.
As long as the decoder was given just the payloads from the batch start up to the cursor,
what it yields are the entries that are read from the first byte of the batch on.

The two part when the decoder returns an error: it is reset, but the cursor stays inside
the batch, where `complete_batch` moves both. They also part at index `u32::MAX`, where
the cursor stands still and the same shred is handed over again (`losesPlace`).

* `streams_from_batch_start`: whatever is emitted in a batch in which neither happened
  before is read from the first byte of the batch.
* `rest_read_as_batch`: behind an error the rest of the batch is read as if it were a
  batch of its own.
-/

namespace ShredStream.SlotAccumulator

open StreamingDecoder

variable {C : Type} {env : Env C} {clock : Clock} {acc acc' : SlotAccumulator}

/-! ## The iterations of a run -/

/-- The states at the head of the iterations of `advance_streaming` in a call. -/
def callHeads (env : Env C) (clock : Clock) (fuel : ℕ) (acc : SlotAccumulator)
    (cache : ReedSolomonCache C) : Call → List (SlotAccumulator × List VersionedTransaction)
  | .data a =>
    if a.lastInSlot ∨ a.index < acc.batchStart ∨ a.index ∈ acc.pending then []
    else
      FuelLoop.heads (advanceStreamingBody env fuel) fuel (acc.insertData clock a, []) ++
        match (acc.insertData clock a).advanceStreaming env fuel [] with
        | none => []
        | some (acc, out) =>
          let (acc', _, filled) := acc.tryFecFill env clock cache a.fecSetIndex
          if acc.streamingCursor ≤ a.index ∧ filled then
            FuelLoop.heads (advanceStreamingBody env fuel) fuel (acc', out)
          else []
  | .code a =>
    let (acc, _, filled) := (acc.recordCode a).tryFecFill env clock cache a.fecSetIndex
    if filled then FuelLoop.heads (advanceStreamingBody env fuel) fuel (acc, []) else []
  | .harvest => []

/-- The states at the head of the iterations of `advance_streaming` in a run. -/
def runHeads (env : Env C) (fuel : ℕ) :
    CallState C → List (Clock × Call) → List (SlotAccumulator × List VersionedTransaction)
  | _, [] => []
  | s, c :: calls =>
    s.acc.callHeads env c.1 fuel s.cache c.2 ++
      match s.acc.call env c.1 fuel s.cache c.2 with
      | none => []
      | some r => runHeads env fuel { r with out := s.out ++ r.out } calls

/-- What an iteration at this state hands to the decoder. -/
def toDecode (acc : SlotAccumulator) : Option Bytes :=
  match acc.pending[acc.streamingCursor]? with
  | none => none
  | some ps => if ps.source.isRecovered then none else ps.payload

/-- An iteration at this state loses the place in the batch: the cursor does not move, or
    the decoder returns an error and is reset. -/
def losesPlace (w : Wincode) (acc : SlotAccumulator) : Bool :=
  match acc.toDecode with
  | none => false
  | some payload =>
    acc.streamingCursor = u32Max ||
      match acc.streamingDecoder.push w payload with
      | some (_, .error _) => true
      | _ => false

/-- The transactions that an iteration at this state emits are those of entries which are
    read, a count and then entries, from the first byte of the batch. -/
def EmitsFromStart (env : Env C) (fuel : ℕ) (s : SlotAccumulator × List VersionedTransaction) :
    Prop :=
  ∀ r, advanceStreamingBody env fuel s = some r → ∃ new, (r.elim id id).2 = s.2 ++ new ∧
    ∀ tx ∈ new, ∃ e ∈ (scanned env.wincode
      (payloads s.1.payloadAt s.1.batchStart (s.1.streamingCursor + 1))).1, tx ∈ e.transactions

/-! ## The decoder in step with the cursor -/

/-- If the place in the batch was not lost in the iterations `T`, the decoder was given the
    shreds from the batch start up to the cursor. -/
def InStep (w : Wincode) (T : List (SlotAccumulator × List VersionedTransaction))
    (acc : SlotAccumulator) : Prop :=
  (∀ t ∈ T, t.1.batchStart = acc.batchStart → t.1.losesPlace w = false) →
    Scanned w (payloads acc.payloadAt acc.batchStart acc.streamingCursor) acc.streamingDecoder

theorem payloadAt_of_payload {i : ℕ} {ps : PendingShred} {payload : Bytes}
    (hps : acc.pending[i]? = some ps) (hpay : ps.payload = some payload) :
    acc.payloadAt i = payload := by
  rw [payloadAt, hps]
  simp only [hpay, Option.getD_some]

theorem losesPlace_eq {w : Wincode} {ps : PendingShred} {payload : Bytes}
    (hps : acc.pending[acc.streamingCursor]? = some ps) (hpool : ps.source.isRecovered = false)
    (hpay : ps.payload = some payload) {decoder : StreamingDecoder}
    {result : Except DecodeError (List VersionedTransaction)}
    (hpush : acc.streamingDecoder.push w payload = some (decoder, result))
    (h : acc.losesPlace w = false) : acc.streamingCursor ≠ u32Max ∧ ∃ txs, result = .ok txs := by
  unfold losesPlace toDecode at h
  simp only [hps, hpool, hpay, hpush, Bool.false_eq_true, if_false, Bool.or_eq_false_iff,
    decide_eq_false_iff_not] at h
  refine ⟨h.1, ?_⟩
  cases result with
  | ok txs => exact ⟨txs, rfl⟩
  | error err => exact absurd h.2 (by simp)

/-- The bytes up to and including the shred at the cursor. -/
theorem payloads_cursor (hc : acc.Consistent) {ps : PendingShred} {payload : Bytes}
    (hps : acc.pending[acc.streamingCursor]? = some ps) (hpay : ps.payload = some payload) :
    payloads acc.payloadAt acc.batchStart (acc.streamingCursor + 1) =
      payloads acc.payloadAt acc.batchStart acc.streamingCursor ++ payload := by
  rw [payloads_succ _ hc.start_le, payloadAt_of_payload hps hpay]

/-- One more iteration. -/
theorem InStep.next (hw : env.wincode.Lawful)
    {T : List (SlotAccumulator × List VersionedTransaction)} (h : InStep env.wincode T acc)
    (hc : acc.Consistent) (hp : acc.Parsed) {fuel : ℕ} {out : List VersionedTransaction}
    {r : (SlotAccumulator × List VersionedTransaction) ⊕
      (SlotAccumulator × List VersionedTransaction)}
    (hbody : advanceStreamingBody env fuel (acc, out) = some r) :
    InStep env.wincode (T ++ [(acc, out)]) (r.elim id id).1 := by
  rcases advanceStreamingBody_cases hp hbody with
    ⟨rfl, -⟩ | ⟨ps, payload, decoder, hps, hpool, hpay, ⟨txs, hpush, hr⟩ | ⟨err, hpush, rfl⟩⟩
  · exact fun hplace => h fun t ht => hplace t (List.mem_append_left _ ht)
  · have hstate : (r.elim id id).1 = acc.streamed decoder txs := by
      rw [hr]
      split_ifs
      · rfl
      · rfl
    rw [hstate]
    intro hplace
    obtain ⟨hmove, -⟩ := losesPlace_eq hps hpool hpay hpush
      (hplace (acc, out) (List.mem_append_right _ List.mem_cons_self) rfl)
    obtain ⟨hscanned, -⟩ :=
      (h fun t ht => hplace t (List.mem_append_left _ ht)).of_push_ok hw hpush
    have hcur : satAdd32 acc.streamingCursor 1 = acc.streamingCursor + 1 :=
      satAdd32_of_lt (lt_of_le_of_ne hc.cursor_le hmove)
    show Scanned env.wincode
      (payloads acc.payloadAt acc.batchStart (satAdd32 acc.streamingCursor 1)) decoder
    rw [hcur, payloads_cursor hc hps hpay]
    exact hscanned
  · intro hplace
    obtain ⟨-, txs, htxs⟩ := losesPlace_eq hps hpool hpay hpush
      (hplace (acc, out) (List.mem_append_right _ List.mem_cons_self) rfl)
    cases htxs

/-- What an iteration emits when the decoder is in step. -/
theorem emits_of_scanned (hw : env.wincode.Lawful)
    (h : Scanned env.wincode (payloads acc.payloadAt acc.batchStart acc.streamingCursor)
      acc.streamingDecoder)
    (hc : acc.Consistent) (hp : acc.Parsed) {fuel : ℕ} {out : List VersionedTransaction} :
    EmitsFromStart env fuel (acc, out) := by
  intro r hbody
  rcases advanceStreamingBody_cases hp hbody with
    ⟨rfl, -⟩ | ⟨ps, payload, decoder, hps, hpool, hpay, ⟨txs, hpush, hr⟩ | ⟨err, hpush, rfl⟩⟩
  · exact ⟨[], (List.append_nil out).symm, nofun⟩
  · have hout : (r.elim id id).2 = out ++ unseen acc.yieldedSigs txs := by
      rw [hr]
      split_ifs
      · rfl
      · rfl
    refine ⟨unseen acc.yieldedSigs txs, hout, fun tx htx => ?_⟩
    obtain ⟨-, hentries⟩ := h.of_push_ok hw hpush
    have hmem : tx ∈ extractTxs (scanned env.wincode
        (payloads acc.payloadAt acc.batchStart (acc.streamingCursor + 1))).1 := by
      rw [payloads_cursor hc hps hpay, hentries]
      exact List.mem_append_right _ ((FirstByKey.fresh_sublist _ _).subset htx)
    exact List.mem_flatMap.mp hmem
  · exact ⟨[], (List.append_nil out).symm, nofun⟩

/-- Recovery adds nothing behind the cursor. -/
theorem InStep.refilled {w : Wincode} {T : List (SlotAccumulator × List VersionedTransaction)}
    (h : InStep w T acc) (hc : acc.Consistent) (hr : acc.Refilled acc') : InStep w T acc' := by
  intro hplace
  rw [hr.batchStart] at hplace
  have hbytes : payloads acc'.payloadAt acc.batchStart acc.streamingCursor =
      payloads acc.payloadAt acc.batchStart acc.streamingCursor := by
    refine List.flatMap_congr fun i hi => ?_
    rw [List.mem_range'_1] at hi
    obtain ⟨ps, hps, -⟩ := hc.streamed i hi.1 (by omega)
    rw [payloadAt, payloadAt, hps, hr.kept i ps hps]
  rw [hr.batchStart, hr.cursor, hr.decoder, hbytes]
  exact h hplace

/-! ## The flush -/

/-- The cursor is behind a boundary only when it has just passed it. -/
def Within (acc : SlotAccumulator) : Prop :=
  ∀ b ∈ acc.batchCompleteIndices, acc.streamingCursor ≤ b + 1

theorem Unpassed.within (h : acc.Unpassed) : acc.Within := fun b hb => (h b hb).trans (Nat.le_succ b)

/-- Streaming in front of every boundary passes one at most. -/
theorem Unpassed.within_next (h : acc.Unpassed) (hp : acc.Parsed) {fuel : ℕ}
    {out : List VersionedTransaction}
    {r : (SlotAccumulator × List VersionedTransaction) ⊕
      (SlotAccumulator × List VersionedTransaction)}
    (hbody : advanceStreamingBody env fuel (acc, out) = some r) : (r.elim id id).1.Within := by
  have hmove {acc₁ : SlotAccumulator}
      (hcur : acc₁.streamingCursor = satAdd32 acc.streamingCursor 1)
      (hbc : acc₁.batchCompleteIndices = acc.batchCompleteIndices) : acc₁.Within := by
    intro b hb
    rw [hbc] at hb
    rw [hcur]
    have hle : satAdd32 acc.streamingCursor 1 ≤ acc.streamingCursor + 1 := min_le_left _ _
    have := h b hb
    omega
  rcases advanceStreamingBody_cases hp hbody with
    ⟨rfl, -⟩ | ⟨ps, payload, decoder, -, -, -, ⟨txs, -, rfl⟩ | ⟨err, -, rfl⟩⟩
  · exact h.within
  · have hstreamed : (acc.streamed decoder txs).Within := hmove rfl rfl
    split_ifs
    · exact hstreamed
    · exact hstreamed
  · exact hmove rfl rfl

theorem Within.refilled (h : acc.Within) (hc : acc.Consistent) (hr : acc.Refilled acc')
    (hc' : acc'.Consistent) : acc'.Within := by
  intro b hb
  obtain ⟨ps, hps, hflag⟩ := (hc'.boundary_iff b).mp hb
  rcases hr.added b ps hps with hold | ⟨hrec, -⟩
  · rw [hr.cursor]
    exact h b ((hc.boundary_iff b).mpr ⟨ps, hold, hflag⟩)
  · exact (hc'.cursor_le_of_recovered hps hrec).trans (Nat.le_succ b)

/-- `complete_batch` moves the cursor and the decoder to the next batch. -/
theorem Within.finalise {w : Wincode} {T : List (SlotAccumulator × List VersionedTransaction)}
    (hc : acc.Consistent) {bcIdx : ℕ} (hcur : acc.streamingCursor ≤ bcIdx + 1)
    (txs : List VersionedTransaction) (counters : Counters) :
    (acc.finalise txs counters bcIdx).Within ∧ InStep w T (acc.finalise txs counters bcIdx) := by
  have hmax : max acc.streamingCursor (satAdd32 bcIdx 1) = satAdd32 bcIdx 1 :=
    max_eq_right (le_min hcur hc.cursor_le)
  constructor
  · intro b hb
    obtain ⟨-, hge⟩ := (mem_completeBatch_boundaries _).mp hb
    show max acc.streamingCursor (satAdd32 bcIdx 1) ≤ b + 1
    omega
  · intro _
    show Scanned w (payloads _ (satAdd32 bcIdx 1) (max acc.streamingCursor (satAdd32 bcIdx 1)))
      acc.streamingDecoder.reset
    rw [hmax, payloads_self]
    exact scanned_fresh (.inr ⟨_, rfl⟩)

theorem InStep.tryFlushBatches {w : Wincode}
    {T : List (SlotAccumulator × List VersionedTransaction)} (h : InStep w T acc)
    (hc : acc.Consistent) (hw : acc.Within) {cache : ReedSolomonCache C} {fuel : ℕ}
    {out : List VersionedTransaction} {r : CallState C}
    (hr : acc.tryFlushBatches env clock fuel cache out = some r) : InStep w T r.acc := by
  have hkeep (s : CallState C) (s' : CallState C ⊕ CallState C)
      (hs : s.acc.Consistent ∧ s.acc.Within ∧ InStep w T s.acc)
      (hbody : flushBody env clock fuel s = some s') :
      (s'.elim id id).acc.Consistent ∧ (s'.elim id id).acc.Within ∧
        InStep w T (s'.elim id id).acc := by
    obtain ⟨hc₁, hw₁, h₁⟩ := hs
    refine ⟨(Steps.consistent (flushBody_steps hbody) hc₁).1, ?_⟩
    rcases flushBody_outcome hbody with
      ⟨-, rfl⟩ | ⟨bcIdx, t, acc₁, cache₁, hfirst, hfill, hout⟩
    · exact ⟨hw₁, h₁⟩
    · have hrefill := refilled_flushFill env s.acc clock s.cache bcIdx
      have hc₂ := (Steps.consistent (flushFill_steps env clock s bcIdx) hc₁).1
      rw [hfill] at hrefill hc₂
      rcases hout with ⟨-, rfl⟩ | ⟨txs, counters, -, rfl⟩
      · exact ⟨hw₁.refilled hc₁ hrefill hc₂, h₁.refilled hc₁ hrefill⟩
      · apply Within.finalise hc₂
        rw [hrefill.cursor]
        have hmem := (BTreeMap.firstFrom_spec _ hfirst).1
        exact hw₁ bcIdx (BTreeMap.mem_iff_getElem? _ |>.mpr ⟨t, hmem⟩)
  exact (FuelLoop.run_spec (fun s : CallState C =>
      s.acc.Consistent ∧ s.acc.Within ∧ InStep w T s.acc)
    (fun r => r.acc.Consistent ∧ r.acc.Within ∧ InStep w T r.acc)
    (fun s s' hs hbody => hkeep s _ hs hbody) (fun s r hs hbody => hkeep s _ hs hbody)
    fuel ⟨acc, cache, out⟩ r ⟨hc, hw, h⟩ hr).2.2

/-! ## Calls -/

/-- At each of the states the decoder is in step, as far as the iterations before it
    show. -/
def Placed (w : Wincode) (T heads : List (SlotAccumulator × List VersionedTransaction)) : Prop :=
  ∀ n s, heads[n]? = some s → s.1.Consistent ∧ s.1.Parsed ∧ InStep w (T ++ heads.take n) s.1

theorem placed_nil {w : Wincode} {T : List (SlotAccumulator × List VersionedTransaction)} :
    Placed w T [] := by
  intro n s h
  simp at h

theorem Placed.append {w : Wincode}
    {T heads heads' : List (SlotAccumulator × List VersionedTransaction)} (h : Placed w T heads)
    (h' : Placed w (T ++ heads) heads') : Placed w T (heads ++ heads') := by
  intro n s hs
  rw [List.take_append]
  rcases Nat.lt_or_ge n heads.length with hlt | hge
  · rw [List.getElem?_append_left hlt] at hs
    rw [show n - heads.length = 0 by omega, List.take_zero, List.append_nil]
    exact h n s hs
  · rw [List.getElem?_append_right hge] at hs
    rw [List.take_of_length_le hge, ← List.append_assoc]
    exact h' _ s hs

/-- `advance_streaming`, entered in front of every boundary. -/
theorem InStep.advanceStreaming (hw : env.wincode.Lawful)
    {T : List (SlotAccumulator × List VersionedTransaction)} (h : InStep env.wincode T acc)
    (hc : acc.Consistent) (hp : acc.Parsed) (hu : acc.Unpassed) (fuel : ℕ)
    (out : List VersionedTransaction) :
    Placed env.wincode T (FuelLoop.heads (advanceStreamingBody env fuel) fuel (acc, out)) ∧
    ∀ r, acc.advanceStreaming env fuel out = some r → r.1.Consistent ∧ r.1.Parsed ∧ r.1.Within ∧
      InStep env.wincode
        (T ++ FuelLoop.heads (advanceStreamingBody env fuel) fuel (acc, out)) r.1 := by
  let I (T : List (SlotAccumulator × List VersionedTransaction))
      (s : SlotAccumulator × List VersionedTransaction) : Prop :=
    s.1.Consistent ∧ s.1.Parsed ∧ s.1.Unpassed ∧ InStep env.wincode T s.1
  have hnext : ∀ T s s', I T s → advanceStreamingBody env fuel s = some (.inl s') →
      I (T ++ [s]) s' := by
    rintro T ⟨acc₁, out₁⟩ s' ⟨hc₁, hp₁, hu₁, h₁⟩ hbody
    obtain ⟨hc₂, hp₂⟩ := hc₁.streams hp₁ hbody
    exact ⟨hc₂, hp₂, hu₁.next hc₁ hp₁ hbody, h₁.next hw hc₁ hp₁ hbody⟩
  constructor
  · intro n s hs
    obtain ⟨hc₁, hp₁, -, h₁⟩ :=
      FuelLoop.heads_invariant hnext fuel T (acc, out) ⟨hc, hp, hu, h⟩ n s hs
    exact ⟨hc₁, hp₁, h₁⟩
  · intro r hr
    apply FuelLoop.run_heads (I := I)
      (Q := fun T r => r.1.Consistent ∧ r.1.Parsed ∧ r.1.Within ∧ InStep env.wincode T r.1)
      hnext ?_ fuel T
      (acc, out) r ⟨hc, hp, hu, h⟩ hr
    rintro T ⟨acc₁, out₁⟩ r ⟨hc₁, hp₁, hu₁, h₁⟩ hbody
    obtain ⟨hc₂, hp₂⟩ := hc₁.streams hp₁ hbody
    exact ⟨hc₂, hp₂, hu₁.within_next hp₁ hbody, h₁.next hw hc₁ hp₁ hbody⟩

/-- Storing a shred changes nothing behind the cursor. -/
theorem InStep.insertData {w : Wincode} {T : List (SlotAccumulator × List VersionedTransaction)}
    (h : InStep w T acc) (hc : acc.Consistent) {a : DataArgs} (hnew : a.index ∉ acc.pending) :
    InStep w T (acc.insertData clock a) := by
  intro hplace
  have hbytes : payloads (acc.insertData clock a).payloadAt acc.batchStart acc.streamingCursor =
      payloads acc.payloadAt acc.batchStart acc.streamingCursor := by
    refine List.flatMap_congr fun i hi => ?_
    rw [List.mem_range'_1] at hi
    obtain ⟨ps, hps, -⟩ := hc.streamed i hi.1 (by omega)
    have hne : a.index ≠ i := by
      rintro rfl
      exact hnew (acc.pending.mem_iff_getElem?.mpr ⟨ps, hps⟩)
    rw [payloadAt, payloadAt, SlotAccumulator.insertData, BTreeMap.getElem?_insert_eq, if_neg hne]
  show Scanned w (payloads (acc.insertData clock a).payloadAt acc.batchStart acc.streamingCursor)
    acc.streamingDecoder
  rw [hbytes]
  exact h hplace

/-- Streaming behind a recovery, if it was successful, and the flush: the end of every call
    that stores something. -/
theorem InStep.finish (hw : env.wincode.Lawful)
    {T : List (SlotAccumulator × List VersionedTransaction)} (h : InStep env.wincode T acc)
    (hc : acc.Consistent) (hwithin : acc.Within) (hp : acc.Parsed) (filled : Bool)
    (hu : filled = true → acc.Unpassed) (clock : Clock) (fuel : ℕ) (cache : ReedSolomonCache C)
    (out : List VersionedTransaction) :
    Placed env.wincode T
      (if filled then FuelLoop.heads (advanceStreamingBody env fuel) fuel (acc, out) else []) ∧
    ∀ r, (if filled then (acc.advanceStreaming env fuel out).bind fun s =>
          s.1.tryFlushBatches env clock fuel cache s.2
        else acc.tryFlushBatches env clock fuel cache out) = some r →
      InStep env.wincode (T ++
        if filled then FuelLoop.heads (advanceStreamingBody env fuel) fuel (acc, out) else [])
        r.acc := by
  cases filled with
  | true =>
    simp only [if_true]
    obtain ⟨hplaced, hexit⟩ := h.advanceStreaming hw hc hp (hu rfl) fuel out
    refine ⟨hplaced, fun r hr => ?_⟩
    obtain ⟨s, hs, hflush⟩ := Option.bind_eq_some_iff.mp hr
    obtain ⟨hc₁, -, hw₁, h₁⟩ := hexit s hs
    exact h₁.tryFlushBatches hc₁ hw₁ hflush
  | false =>
    simp only [Bool.false_eq_true, if_false, List.append_nil]
    exact ⟨placed_nil, fun r hr => h.tryFlushBatches hc hwithin hr⟩

/-- `push_data`. -/
theorem InStep.pushData (hw : env.wincode.Lawful)
    {T : List (SlotAccumulator × List VersionedTransaction)} (h : InStep env.wincode T acc)
    (hc : acc.Consistent) (hclear : acc.Clear) (hp : acc.Parsed) {a : DataArgs}
    (ha : (Call.data a).Parsed) {cache : ReedSolomonCache C} {fuel : ℕ} :
    Placed env.wincode T (acc.callHeads env clock fuel cache (.data a)) ∧
    ∀ r, acc.pushData env clock fuel cache a = some r →
      InStep env.wincode (T ++ acc.callHeads env clock fuel cache (.data a)) r.acc := by
  rw [callHeads, SlotAccumulator.pushData]
  by_cases hlast : a.lastInSlot = true
  · simp only [hlast, true_or, if_true, List.append_nil]
    refine ⟨placed_nil, fun r hr => ?_⟩
    obtain ⟨s, hs, hr⟩ := Option.bind_eq_some_iff.mp hr
    cases hr
    have hmarked : (acc.completeSlot a.index).Consistent := { hc with }
    have hflushed := InStep.tryFlushBatches
      (show InStep env.wincode T (acc.completeSlot a.index) from h) hmarked hclear.unpassed.within hs
    exact hflushed
  by_cases hlate : a.index < acc.batchStart
  · simp only [hlast, hlate, Bool.false_eq_true, if_false, true_or, or_true, if_true,
      List.append_nil]
    refine ⟨placed_nil, fun r hr => ?_⟩
    cases hr
    exact h
  by_cases hmem : a.index ∈ acc.pending
  · simp only [hlast, hlate, hmem, Bool.false_eq_true, if_false, or_true, if_true, List.append_nil]
    refine ⟨placed_nil, fun r hr => ?_⟩
    cases hr
    exact h
  have hlast' : a.lastInSlot = false := by simpa using hlast
  have hge : acc.batchStart ≤ a.index := by omega
  simp only [hlast, hlate, hmem, Bool.false_eq_true, if_false, or_self]
  have hc₀ : (acc.insertData clock a).Consistent := hc.insertData hge hmem
  have hp₀ : (acc.insertData clock a).Parsed := Opens.parsed (.data hlast' hge hmem) hp ha
  obtain ⟨hplaced, hexit⟩ := (h.insertData hc hmem).advanceStreaming hw hc₀ hp₀
    (hclear.insertData hc hge hmem) fuel []
  cases hstream : (acc.insertData clock a).advanceStreaming env fuel [] with
  | none =>
    refine ⟨hplaced.append placed_nil, fun r hr => ?_⟩
    cases hr
  | some s =>
    obtain ⟨acc₁, out₁⟩ := s
    obtain ⟨hc₁, hp₁, hw₁, h₁⟩ := hexit _ hstream
    by_cases hcur : acc₁.streamingCursor ≤ a.index
    · -- an attempt at recovery, and more streaming if it recovered something
      simp only [hcur, true_and, if_true, Option.bind_eq_bind, Option.bind_some]
      have hrefill := refilled_tryFecFill env acc₁ clock cache a.fecSetIndex
      have hc₂ : (acc₁.tryFecFill env clock cache a.fecSetIndex).1.Consistent :=
        hc₁.tryFecFill cache a.fecSetIndex
      have hu₂ (hfilled : (acc₁.tryFecFill env clock cache a.fecSetIndex).2.2 = true) :
          (acc₁.tryFecFill env clock cache a.fecSetIndex).1.Unpassed :=
        (EntersStreaming.unpassed (.refilled hlast' hge hmem hstream hcur hfilled)
          hc hclear hp ha).2.2
      have hend := (h₁.refilled hc₁ hrefill).finish hw hc₂ (hw₁.refilled hc₁ hrefill hc₂)
        (hp₁.tryFecFill env clock cache a.fecSetIndex)
        (acc₁.tryFecFill env clock cache a.fecSetIndex).2.2 hu₂ clock fuel (acc₁.tryFecFill env clock cache a.fecSetIndex).2.1 out₁
      rw [← List.append_assoc]
      exact ⟨hplaced.append hend.1, hend.2⟩
    · simp only [hcur, false_and, if_false, List.append_nil, Option.bind_eq_bind, Option.bind_some]
      exact ⟨hplaced, fun r hr => h₁.tryFlushBatches hc₁ hw₁ hr⟩

/-- `push_code`. -/
theorem InStep.pushCode (hw : env.wincode.Lawful)
    {T : List (SlotAccumulator × List VersionedTransaction)} (h : InStep env.wincode T acc)
    (hc : acc.Consistent) (hclear : acc.Clear) (hp : acc.Parsed) {a : CodeArgs}
    {cache : ReedSolomonCache C} {fuel : ℕ} :
    Placed env.wincode T (acc.callHeads env clock fuel cache (.code a)) ∧
    ∀ r, acc.pushCode env clock fuel cache a = some r →
      InStep env.wincode (T ++ acc.callHeads env clock fuel cache (.code a)) r.acc := by
  rw [callHeads, SlotAccumulator.pushCode]
  have hrecorded : InStep env.wincode T (acc.recordCode a) := by
    obtain ⟨fecSets, counters, heq, -⟩ := acc.recordCode_eq a
    rw [heq]
    exact h
  have hc₀ := hc.recordCode a
  have hrefill := refilled_tryFecFill env (acc.recordCode a) clock cache a.fecSetIndex
  have hc₁ : ((acc.recordCode a).tryFecFill env clock cache a.fecSetIndex).1.Consistent :=
    hc₀.tryFecFill cache a.fecSetIndex
  have hu₁ := ((hclear.recordCode a).refilled hc₀ hrefill hc₁).unpassed
  have hend := (hrecorded.refilled hc₀ hrefill).finish hw hc₁ hu₁.within
    ((hp.recordCode a).tryFecFill env clock cache a.fecSetIndex)
    ((acc.recordCode a).tryFecFill env clock cache a.fecSetIndex).2.2 (fun _ => hu₁) clock fuel
    ((acc.recordCode a).tryFecFill env clock cache a.fecSetIndex).2.1 []
  refine ⟨hend.1, fun r hr => hend.2 r ?_⟩
  simp only [Option.bind_eq_bind] at hr
  split_ifs at hr ⊢
  · exact hr
  · exact hr

/-- What holds between the calls of a run whose iterations so far were `T`. -/
structure Settled (w : Wincode) (T : List (SlotAccumulator × List VersionedTransaction))
    (acc : SlotAccumulator) : Prop where
  consistent : acc.Consistent
  clear : acc.Clear
  parsed : acc.Parsed
  inStep : InStep w T acc

theorem settled_withConfig (w : Wincode) (cfg : AccumulatorConfig) :
    Settled w [] (withConfig cfg) where
  consistent := consistent_withConfig cfg
  clear := clear_withConfig cfg
  parsed := parsed_withConfig cfg
  inStep _ := scanned_fresh (.inl rfl)

/-- A call for a packet. -/
theorem Settled.call (hw : env.wincode.Lawful)
    {T : List (SlotAccumulator × List VersionedTransaction)} (h : Settled env.wincode T acc)
    {c : Call} (hc : c.Parsed) (hpacket : c ≠ .harvest) (clock : Clock)
    (cache : ReedSolomonCache C) (fuel : ℕ) :
    Placed env.wincode T (acc.callHeads env clock fuel cache c) ∧
    ∀ r, acc.call env clock fuel cache c = some r →
      Settled env.wincode (T ++ acc.callHeads env clock fuel cache c) r.acc := by
  have hstep : Placed env.wincode T (acc.callHeads env clock fuel cache c) ∧
      ∀ r, acc.call env clock fuel cache c = some r →
        InStep env.wincode (T ++ acc.callHeads env clock fuel cache c) r.acc := by
    cases c with
    | data a => exact h.inStep.pushData hw h.consistent h.clear h.parsed hc
    | code a => exact h.inStep.pushCode hw h.consistent h.clear h.parsed
    | harvest => exact absurd rfl hpacket
  refine ⟨hstep.1, fun r hr => ⟨(h.consistent.call h.parsed hc hr).1,
    h.clear.call h.consistent h.parsed hc hpacket hr, h.parsed.call hc hr, hstep.2 r hr⟩⟩

/-- A run. -/
theorem Settled.placed {T : List (SlotAccumulator × List VersionedTransaction)} {s : CallState C}
    (h : Settled env.wincode T s.acc) (hw : env.wincode.Lawful) {fuel : ℕ}
    {calls : List (Clock × Call)} (hcalls : ∀ c ∈ calls, c.2.Parsed ∧ c.2 ≠ .harvest) :
    Placed env.wincode T (runHeads env fuel s calls) := by
  induction calls generalizing T s with
  | nil => exact placed_nil
  | cons c calls ih =>
    obtain ⟨⟨hc, hpacket⟩, hrest⟩ := List.forall_mem_cons.mp hcalls
    obtain ⟨hplaced, hnext⟩ := h.call hw hc hpacket c.1 s.cache fuel
    refine hplaced.append ?_
    cases hr : s.acc.call env c.1 fuel s.cache c.2 with
    | none => exact placed_nil
    | some r => exact ih (hnext r hr) hrest

/-- In every run of `push_data` and `push_code`, each iteration of `advance_streaming` emits
    transactions of entries which are read from the first byte of the batch on, provided
    that no iteration before it has lost the place in that batch. -/
theorem streams_from_batch_start (hw : env.wincode.Lawful) {cfg : AccumulatorConfig}
    {cache : ReedSolomonCache C} {fuel : ℕ} {calls : List (Clock × Call)}
    (hcalls : ∀ c ∈ calls, c.2.Parsed ∧ c.2 ≠ .harvest) {n : ℕ}
    {s : SlotAccumulator × List VersionedTransaction}
    (hs : (runHeads env fuel (.fresh cfg cache) calls)[n]? = some s)
    (hplace : ∀ t ∈ (runHeads env fuel (.fresh cfg cache) calls).take n,
      t.1.batchStart = s.1.batchStart → t.1.losesPlace env.wincode = false) :
    EmitsFromStart env fuel s := by
  have hfresh : Settled env.wincode [] (CallState.fresh cfg cache).acc := settled_withConfig _ cfg
  obtain ⟨hc, hp, h⟩ := hfresh.placed hw hcalls n s hs
  exact emits_of_scanned hw (h hplace) hc hp

/-! ## Two shreds -/

/-- The call for a data packet with this payload. -/
def streamCall (index : ℕ) (payload : Bytes) : Clock × Call :=
  (FecSet.stillClock, .data ((FecSet.merkleShred index 0 0 payload).args
    ⟨index, FecSet.merkleData index 0 0 payload⟩))

/-- The packet parses. -/
def Parses (index : ℕ) (payload : Bytes) : Prop :=
  parseKind (FecSet.merkleData index 0 0 payload) =
      .ok (.data (FecSet.merkleShred index 0 0 payload)) ∧
    (FecSet.merkleData index 0 0 payload).length ≤ bufSize

instance (index : ℕ) (payload : Bytes) : Decidable (Parses index payload) :=
  inferInstanceAs (Decidable (_ ∧ _))

theorem Parses.parsed {index : ℕ} {payload : Bytes} (h : Parses index payload) :
    (streamCall index payload).2.Parsed ∧ (streamCall index payload).2 ≠ .harvest := by
  refine ⟨?_, nofun⟩
  rintro a ⟨⟩
  exact ⟨_, DataShred.holds_args h.1 h.2⟩

/-- A transaction, and a batch that holds just that one. -/
def soleTx : VersionedTransaction := LegacyWire.signedTx 2 []
def soleBatch : Bytes := LegacyWire.encodeBatch [[soleTx]]

/-- An iteration in the run of two shreds with these payloads. -/
def headOfTwo (first second : Bytes) (n : ℕ) :
    Option (SlotAccumulator × List VersionedTransaction) :=
  (runHeads FecSet.copyEnv (2 ^ 32 + 1) (.fresh {} {})
    [streamCall 0 first, streamCall 1 second])[n]?

/-- What an iteration has emitted in the end. -/
def emitted (s : SlotAccumulator × List VersionedTransaction) :
    Option (List VersionedTransaction) :=
  (advanceStreamingBody FecSet.copyEnv (2 ^ 32 + 1) s).map fun r => (r.elim id id).2

/-- The batch in two shreds: the third iteration is at the second shred. -/
theorem streams_from_batch_start_two :
    ∃ s, headOfTwo (soleBatch.take 30) (soleBatch.drop 30) 2 = some s ∧
      emitted s = some [soleTx] ∧ EmitsFromStart FecSet.copyEnv (2 ^ 32 + 1) s := by
  have hrun : (headOfTwo (soleBatch.take 30) (soleBatch.drop 30) 2).map emitted =
      some (some [soleTx]) := by decide +kernel
  have hplace : ((runHeads FecSet.copyEnv (2 ^ 32 + 1) (.fresh {} {})
      [streamCall 0 (soleBatch.take 30), streamCall 1 (soleBatch.drop 30)]).take 2).all
        (fun t => !t.1.losesPlace FecSet.copyEnv.wincode) = true := by decide +kernel
  obtain ⟨s, hs, hemitted⟩ := Option.map_eq_some_iff.mp hrun
  refine ⟨s, hs, hemitted, streams_from_batch_start LegacyWire.wincode_lawful ?_ hs fun t ht _ => ?_⟩
  · have h₀ : Parses 0 (soleBatch.take 30) := by decide +kernel
    have h₁ : Parses 1 (soleBatch.drop 30) := by decide +kernel
    simp only [List.mem_cons, List.not_mem_nil, or_false, forall_eq_or_imp, forall_eq]
    exact ⟨h₀.parsed, h₁.parsed⟩
  · simpa using List.all_eq_true.mp hplace t ht

/-- A count and then no entry: the decoder returns an error at the first shred of the batch,
    and reads the second as a batch of its own. -/
theorem rest_read_as_batch :
    ¬∀ (env : Env Unit) (cfg : AccumulatorConfig) (cache : ReedSolomonCache Unit) (fuel : ℕ)
      (calls : List (Clock × Call)) (n : ℕ) (s : SlotAccumulator × List VersionedTransaction),
      env.wincode.Lawful → (∀ c ∈ calls, ∃ a, c.2 = .data a ∧ c.2.Parsed) →
      (runHeads env fuel (.fresh cfg cache) calls)[n]? = some s → EmitsFromStart env fuel s := by
  intro h
  have hrun : (headOfTwo (leBytes 8 1 ++ LostWithErr.badEntry) soleBatch 1).map (fun s =>
      (s.2, emitted s, (scanned LegacyWire.wincode
        (payloads s.1.payloadAt s.1.batchStart (s.1.streamingCursor + 1))).1)) =
      some ([], some [soleTx], []) := by decide +kernel
  obtain ⟨s, hs, heq⟩ := Option.map_eq_some_iff.mp hrun
  simp only [Prod.mk.injEq] at heq
  obtain ⟨hnone, hemitted, hread⟩ := heq
  obtain ⟨r, hbody, hout⟩ := Option.map_eq_some_iff.mp hemitted
  have h₀ : Parses 0 (leBytes 8 1 ++ LostWithErr.badEntry) := by decide +kernel
  have h₁ : Parses 1 soleBatch := by decide +kernel
  obtain ⟨new, hnew, hmem⟩ := h FecSet.copyEnv {} {} (2 ^ 32 + 1) _ 1 s LegacyWire.wincode_lawful
    (by
      simp only [List.mem_cons, List.not_mem_nil, or_false, forall_eq_or_imp, forall_eq]
      exact ⟨⟨_, rfl, h₀.parsed.1⟩, ⟨_, rfl, h₁.parsed.1⟩⟩) hs r hbody
  rw [hout, hnone, List.nil_append] at hnew
  obtain ⟨e, he, -⟩ := hmem soleTx (by rw [← hnew]; exact List.mem_singleton_self _)
  have hread' : (scanned FecSet.copyEnv.wincode
      (payloads s.1.payloadAt s.1.batchStart (s.1.streamingCursor + 1))).1 = [] := hread
  rw [hread'] at he
  cases he

end ShredStream.SlotAccumulator
