import ShredStream.Accumulator.Bounded
import ShredStream.Listener.Moves
import ShredStream.Slot.Build

/-!
# Calls that return, and one that does not

Nothing bounds the shred index a packet carries, and every loop of the
accumulator advances by `saturating_add(1)`. As long as no accumulator is handed a
shred at index `u32::MAX` every call returns (`calls_return_below_max`); a single
flagged shred at `u32::MAX` keeps `try_flush_batches` busy for ever
(`flagged_max_never_returns`).
-/

namespace ShredStream

open SlotAccumulator (Call)

/-- Nothing the call carries, or lets the accumulator recover, is at index
    `u32::MAX`. -/
def SlotAccumulator.Call.InRange : Call → Prop
  | .data a => a.InRange
  | .code a => a.InRange
  | .harvest => True

namespace ShredListener

variable {C : Type} {env : Env C} {l : ShredListener C}

/-- What the packet of the call hands to an accumulator stays below index
    `u32::MAX`. -/
def StaysBelow (l : ShredListener C) (q : Request) : Prop :=
  ∀ slot c acc, l.MayHand q slot c acc → c.InRange

/-- Every live accumulator is bounded. -/
def Bounded (l : ShredListener C) : Prop :=
  ∀ (s : ℕ) (acc : SlotAccumulator), l.slots[s]? = some acc → acc.Bounded

namespace Bounded

theorem fromSocket (opts : ListenerOptions) :
    (ShredListener.fromSocket opts : ShredListener C).Bounded := by
  intro s acc h
  simp [ShredListener.fromSocket] at h

theorem slotEntry (h : l.Bounded) (s : ℕ) : (l.slotEntry s).Bounded := by
  unfold ShredListener.slotEntry
  cases hacc : l.slots[s]? with
  | none => exact SlotAccumulator.bounded_withConfig _
  | some acc => exact h s acc hacc

theorem finishCall (h : l.Bounded) (s : ℕ) {r : SlotAccumulator.CallState C} (hr : r.acc.Bounded) :
    (l.finishCall s r).1.Bounded := by
  intro s' acc hacc
  simp only [ShredListener.finishCall, BTreeMap.getElem?_insert_eq] at hacc
  split_ifs at hacc
  · cases hacc
    exact { hr with }
  · exact h s' acc hacc

/-! ## Evictions return -/

theorem retireSlot (env : Env C) (h : l.Bounded) (clock : Clock) {fuel : ℕ}
    (hfuel : 2 ^ 32 < fuel) (s : ℕ) :
    ∃ l', l.retireSlot env clock fuel s = some l' ∧ l'.Bounded := by
  unfold ShredListener.retireSlot
  cases hacc : l.slots[s]? with
  | none => exact ⟨l, rfl, h⟩
  | some acc =>
    obtain ⟨r, hr⟩ := SlotAccumulator.Bounded.tryHarvestTail env (h s acc hacc) clock hfuel l.rsCache
    simp only [hr, Option.bind_eq_bind, Option.bind_some]
    refine ⟨_, rfl, fun s' acc' hacc' => ?_⟩
    rw [Std.ExtTreeMap.getElem?_erase] at hacc'
    split_ifs at hacc'
    exact h s' acc' hacc'

theorem retireSlots (env : Env C) (h : l.Bounded) (clock : Clock) {fuel : ℕ}
    (hfuel : 2 ^ 32 < fuel) (ss : List ℕ) :
    ∃ l', ShredListener.retireSlots env clock fuel l ss = some l' ∧ l'.Bounded := by
  induction ss generalizing l with
  | nil => exact ⟨l, rfl, h⟩
  | cons s ss ih =>
    obtain ⟨l₁, h₁, hb⟩ := h.retireSlot env clock hfuel s
    simp only [ShredListener.retireSlots, h₁, Option.bind_eq_bind, Option.bind_some]
    exact ih hb

theorem evictOldSlots (env : Env C) (h : l.Bounded) (sur : Surroundings) {fuel : ℕ}
    (hfuel : 2 ^ 32 < fuel) :
    ∃ l', l.evictOldSlots env sur fuel = some l' ∧ l'.Bounded := by
  obtain ⟨l₁, h₁, hb⟩ := h.retireSlots env sur.clock hfuel (sur.hashOrder l.toEvict)
  simp only [ShredListener.evictOldSlots, h₁, Option.bind_eq_bind, Option.bind_some]
  exact ⟨_, rfl, hb⟩

theorem forceEvictOldestSlot (env : Env C) (h : l.Bounded) (sur : Surroundings) {fuel : ℕ}
    (hfuel : 2 ^ 32 < fuel) :
    ∃ l', l.forceEvictOldestSlot env sur fuel = some l' ∧ l'.Bounded := by
  unfold ShredListener.forceEvictOldestSlot
  cases l.slots.keys.head? with
  | none => exact ⟨l, rfl, h⟩
  | some s => exact h.retireSlot env sur.clock hfuel s

theorem acquireBufferWithFallback (env : Env C) (h : l.Bounded) (sur : Surroundings) {fuel : ℕ}
    (hfuel : 2 ^ 32 < fuel) :
    ∃ l' buffer, l.acquireBufferWithFallback env sur fuel = some (l', buffer) ∧ l'.Bounded := by
  unfold ShredListener.acquireBufferWithFallback
  cases l.pool.acquire with
  | some b => exact ⟨_, _, rfl, h⟩
  | none =>
    obtain ⟨l₁, h₁, hb₁⟩ := h.evictOldSlots env sur hfuel
    simp only [h₁, Option.bind_eq_bind, Option.bind_some]
    cases l₁.pool.acquire with
    | some b => exact ⟨_, _, rfl, hb₁⟩
    | none =>
      obtain ⟨l₂, h₂, hb₂⟩ := hb₁.forceEvictOldestSlot env sur hfuel
      simp only [h₂, Option.bind_some]
      cases l₂.pool.acquire with
      | some b => exact ⟨_, _, rfl, hb₂⟩
      | none => exact ⟨_, _, rfl, hb₂⟩

theorem advanceSlot (env : Env C) (h : l.Bounded) (sur : Surroundings) {fuel : ℕ}
    (hfuel : 2 ^ 32 < fuel) (s : ℕ) :
    ∃ l', l.advanceSlot env sur fuel s = some l' ∧ l'.Bounded := by
  unfold ShredListener.advanceSlot
  split_ifs
  · exact evictOldSlots env (show ({ l with lastSlot := s } : ShredListener C).Bounded from h) sur
      hfuel
  · exact ⟨l, rfl, h⟩

/-! ## Packets return -/

theorem handleData (h : l.Bounded) (hw : env.wincode.Lawful) (sur : Surroundings) {fuel : ℕ}
    (hfuel : 2 ^ 32 < fuel) (handle : BufferHandle) {d : DataShred}
    (hd : l.slotOutOfRange d.slot = false → d.slot ∉ l.recentlySeenSlots →
      (d.args handle).InRange) :
    ∃ l' out, l.handleData env sur fuel handle d = some (l', out) ∧ l'.Bounded := by
  unfold ShredListener.handleData
  split_ifs with hrange hseen
  · exact ⟨_, _, rfl, h⟩
  · exact ⟨_, _, rfl, h⟩
  obtain ⟨l₁, h₁, hb⟩ := advanceSlot env
    (show ({ l with counters := { l.counters with
      dataShredCount := wrapAdd64 l.counters.dataShredCount 1 } } : ShredListener C).Bounded from h)
    sur hfuel d.slot
  simp only [h₁, Option.bind_eq_bind, Option.bind_some]
  obtain ⟨r, hr, hbr⟩ := (hb.slotEntry d.slot).pushData hw sur.clock hfuel l₁.rsCache
    (hd ((Bool.not_eq_true _).mp hrange) hseen)
  simp only [DataShred.args] at hr
  simp only [hr, Option.bind_some]
  exact ⟨_, _, rfl, hb.finishCall d.slot hbr⟩

theorem handleCode (h : l.Bounded) (hw : env.wincode.Lawful) (sur : Surroundings) {fuel : ℕ}
    (hfuel : 2 ^ 32 < fuel) (handle : BufferHandle) {c : CodeShred}
    (hc : l.slotOutOfRange c.slot = false → c.slot ∉ l.recentlySeenSlots → l.enableFec = true →
      c.args.InRange) :
    ∃ l' out, l.handleCode env sur fuel handle c = some (l', out) ∧ l'.Bounded := by
  unfold ShredListener.handleCode
  simp only
  split_ifs with hrange hseen hfec
  · exact ⟨_, _, rfl, h⟩
  · exact ⟨_, _, rfl, h⟩
  · exact ⟨_, _, rfl, h⟩
  obtain ⟨l₁, h₁, hb⟩ := advanceSlot env
    (show ({ l with counters := { l.counters with
      codeShredCount := wrapAdd64 l.counters.codeShredCount 1 } } : ShredListener C).Bounded from h)
    sur hfuel c.slot
  simp only [h₁, Option.bind_eq_bind, Option.bind_some]
  obtain ⟨r, hr, hbr⟩ := (hb.slotEntry c.slot).pushCode env hw sur.clock hfuel l₁.rsCache
    (hc ((Bool.not_eq_true _).mp hrange) hseen (by simpa using hfec))
  simp only [CodeShred.args] at hr
  simp only [hr, Option.bind_some]
  exact ⟨_, _, rfl, hb.finishCall c.slot hbr⟩

theorem handlePacketOwned (h : l.Bounded) (hw : env.wincode.Lawful) (sur : Surroundings)
    {fuel : ℕ} (hfuel : 2 ^ 32 < fuel) {handle : BufferHandle}
    (hraw : ∀ slot c, packetSlot l.enableFec handle.bytes = some slot →
      l.slotOutOfRange slot = false → slot ∉ l.recentlySeenSlots →
      packetCall handle = some (slot, c) → c.InRange) :
    ∃ l' out, l.handlePacketOwned env sur fuel handle = some (l', out) ∧ l'.Bounded := by
  unfold ShredListener.handlePacketOwned
  unfold packetSlot packetCall at hraw
  simp only
  cases hparse : parseKind handle.bytes with
  | error e => exact ⟨_, _, rfl, h⟩
  | ok kind =>
    rw [hparse] at hraw
    cases kind with
    | data d =>
      refine handleData ?_ hw sur hfuel handle ?_
      · exact h
      · exact fun hrange hseen => hraw d.slot _ rfl hrange hseen rfl
    | code c =>
      refine handleCode ?_ hw sur hfuel handle ?_
      · exact h
      · exact fun hrange hseen hfec => hraw c.slot _ (if_pos hfec) hrange hseen rfl

/-- A packet that got a buffer. -/
theorem handle (h : l.Bounded) (hw : env.wincode.Lawful) {sur : Surroundings} {fuel : ℕ}
    (hfuel : 2 ^ 32 < fuel) {q : Request} (hq : l.StaysBelow q) {l₀ : ShredListener C} {idx : ℕ}
    (h₀ : l.acquireBufferWithFallback env sur fuel = some (l₀, some idx)) {raw : Bytes}
    (hraw : raw ∈ l.incoming q) :
    ∃ l' out, l₀.handlePacketOwned env sur fuel ⟨idx, raw⟩ = some (l', out) ∧ l'.Bounded := by
  obtain ⟨l₁, buffer, h₁, hb⟩ := h.acquireBufferWithFallback env sur hfuel
  rw [h₀] at h₁
  cases h₁
  exact hb.handlePacketOwned hw sur hfuel fun slot c haccepted hrange hseen hpacket =>
    hq slot c _ (mayHand_of_accepted h₀ hraw haccepted hrange hseen hpacket)

theorem request (h : l.Bounded) (hw : env.wincode.Lawful) (sur : Surroundings) {fuel : ℕ}
    (hfuel : 2 ^ 32 < fuel) {q : Request} (hq : l.StaysBelow q) :
    ∃ l' reply, l.request env sur fuel q = some (l', reply) ∧ l'.Bounded := by
  obtain ⟨l₁, buffer, h₁, hb⟩ := h.acquireBufferWithFallback env sur hfuel
  cases q with
  | handlePacket raw =>
    simp only [ShredListener.request, ShredListener.handlePacket, h₁, Option.bind_eq_bind,
      Option.bind_some]
    cases buffer with
    | none => exact ⟨_, _, rfl, hb⟩
    | some idx =>
      obtain ⟨l₂, out, h₂, hb₂⟩ := h.handle hw hfuel hq h₁ rfl
      simp only [h₂, Option.bind_some]
      exact ⟨_, _, rfl, hb₂⟩
  | recvOne datagram =>
    unfold ShredListener.request ShredListener.recvOne
    cases hpend : l.pendingBatches with
    | cons batch rest => exact ⟨_, _, rfl, h⟩
    | nil =>
      simp only [h₁, Option.bind_eq_bind, Option.bind_some]
      cases buffer with
      | none => cases datagram <;> exact ⟨_, _, rfl, hb⟩
      | some idx =>
        cases datagram with
        | error e => exact ⟨_, _, rfl, hb⟩
        | ok bytes =>
          have hraw : bytes.take bufSize ∈ l.incoming (.recvOne (.ok bytes)) := by
            simp [incoming, hpend, Request.packet]
          obtain ⟨l₂, out, h₂, hb₂⟩ := h.handle hw hfuel hq h₁ hraw
          simp only [h₂, Option.bind_some]
          cases out <;> exact ⟨_, _, rfl, hb₂⟩

end Bounded

/-! ## All calls return -/

/-- After any calls whose packets stay below index `u32::MAX`, every call with
    such a packet returns, every call on a live accumulator returns, and no
    iteration of a loop stands still. -/
theorem calls_return_below_max (hw : env.wincode.Lawful) {fuel : ℕ} (hfuel : 2 ^ 32 < fuel)
    (opts : ListenerOptions) (qs : List (Surroundings × Request))
    (hqs : Throughout env fuel StaysBelow (fromSocket opts) qs) :
    ∃ l replies, runRequests env fuel (fromSocket opts) qs = some (l, replies) ∧
      (∀ sur q, l.StaysBelow q → ∃ l' reply, l.request env sur fuel q = some (l', reply)) ∧
      (∀ (s : ℕ) (acc : SlotAccumulator), l.slots[s]? = some acc → acc.Bounded ∧
        (∀ clock cache a, a.InRange → ∃ r, acc.pushData env clock fuel cache a = some r) ∧
        (∀ clock cache a, a.InRange → ∃ r, acc.pushCode env clock fuel cache a = some r) ∧
        ∀ clock cache, ∃ r, acc.tryHarvestTail env clock fuel cache = some r) ∧
      ∀ acc : SlotAccumulator, acc.Bounded → acc.Advances env fuel := by
  obtain ⟨l, replies, hrun, hb⟩ := runRequests_total Bounded StaysBelow
    (fun sur l q hl hq => by
      obtain ⟨l', reply, h, hb⟩ := hl.request hw sur hfuel hq
      exact ⟨l', reply, h, hb⟩) qs (fromSocket opts) (Bounded.fromSocket opts) hqs
  refine ⟨l, replies, hrun, ?_, ?_, fun acc hacc => hacc.advances hw hfuel⟩
  · intro sur q hq
    obtain ⟨l', reply, h, -⟩ := hb.request hw sur hfuel hq
    exact ⟨l', reply, h⟩
  · intro s acc hacc
    have h := hb s acc hacc
    refine ⟨h, ?_, ?_, ?_⟩
    · intro clock cache a ha
      obtain ⟨r, hr, -⟩ := h.pushData hw clock hfuel cache ha
      exact ⟨r, hr⟩
    · intro clock cache a ha
      obtain ⟨r, hr, -⟩ := h.pushCode env hw clock hfuel cache ha
      exact ⟨r, hr⟩
    · intro clock cache
      exact h.tryHarvestTail env clock hfuel cache

/-- A data packet below index `u32::MAX` stays below it. -/
theorem staysBelow_of_parse {raw : Bytes} {d : DataShred}
    (hparse : parseKind (raw.take bufSize) = .ok (.data d))
    (hd : d.lastInSlot = true ∨ d.index < u32Max) : l.StaysBelow (.handlePacket raw) := by
  rintro slot c acc ⟨⟨raw', hraw, -, idx, hpacket⟩, -, -, -⟩
  cases hraw
  unfold packetCall at hpacket
  simp only [hparse] at hpacket
  cases hpacket
  exact hd

/-- A packet whose slot is out of range reaches no accumulator. -/
theorem staysBelow_of_outOfRange {raw : Bytes} (hrange : ∀ slot,
      packetSlot l.enableFec (raw.take bufSize) = some slot → l.slotOutOfRange slot = true) :
    l.StaysBelow (.handlePacket raw) := by
  rintro slot c acc ⟨⟨raw', hraw, hslot, -⟩, hin, -, -⟩
  cases hraw
  rw [hrange slot hslot] at hin
  cases hin

/-- A shred at index `u32::MAX - 1` that ends its batch is still harmless, and so is
    one at `u32::MAX` of a slot that is out of range. -/
theorem calls_return_below_max_lastButOne :
    ∃ l replies, runRequests legacyEnv (2 ^ 32 + 1) (fromSocket {})
        [(quiet, .handlePacket (legacyPacket (2 ^ 40 + 1) (2 ^ 32 - 1) 0x40 [])),
          (quiet, .handlePacket (legacyPacket 1 (2 ^ 32 - 2) 0x40 []))] = some (l, replies) ∧
      (∀ sur q, l.StaysBelow q →
        ∃ l' reply, l.request legacyEnv sur (2 ^ 32 + 1) q = some (l', reply)) ∧
      (∀ (s : ℕ) (acc : SlotAccumulator), l.slots[s]? = some acc → acc.Bounded ∧
        (∀ clock cache a, a.InRange →
          ∃ r, acc.pushData legacyEnv clock (2 ^ 32 + 1) cache a = some r) ∧
        (∀ clock cache a, a.InRange →
          ∃ r, acc.pushCode legacyEnv clock (2 ^ 32 + 1) cache a = some r) ∧
        ∀ clock cache, ∃ r, acc.tryHarvestTail legacyEnv clock (2 ^ 32 + 1) cache = some r) ∧
      ∀ acc : SlotAccumulator, acc.Bounded → acc.Advances legacyEnv (2 ^ 32 + 1) := by
  have hfar : packetSlot true ((legacyPacket (2 ^ 40 + 1) (2 ^ 32 - 1) 0x40 []).take bufSize) =
      some (2 ^ 40 + 1) := by decide +kernel
  have hnear : parseKind ((legacyPacket 1 (2 ^ 32 - 2) 0x40 []).take bufSize) = .ok (.data {
      slot := 1, index := u32Max - 1, version := 0, fecSetIndex := 0, parentOffset := 0
      payload := [], batchComplete := true, lastInSlot := false, variant := .dataLegacy
      rawLen := 88 }) := by decide +kernel
  apply calls_return_below_max LegacyWire.wincode_lawful (by decide) {}
  refine ⟨staysBelow_of_outOfRange fun slot hslot => ?_, fun r _ => ⟨?_, fun _ _ => trivial⟩⟩
  · rw [show (fromSocket {} : ShredListener Unit).enableFec = true from rfl, hfar] at hslot
    cases hslot
    decide
  · exact staysBelow_of_parse hnear (.inr (by decide))

/-! ## A call that does not return -/

section NeverReturns

open SlotAccumulator

/-- A flagged shred at `u32::MAX` and nothing else, with the batch start at
    either end of the index range. -/
structure Stuck (acc : SlotAccumulator) : Prop where
  pending : ∀ i, i ∈ acc.pending ↔ i = u32Max
  boundary : ∀ i, i ∈ acc.batchCompleteIndices ↔ i = u32Max
  fecSets : acc.fecSets = ∅
  batchStart : acc.batchStart = 0 ∨ acc.batchStart = u32Max

/-- The flush finalises the batch, which leaves its last shred in place. -/
theorem Stuck.flushBody {s : CallState C} (h : Stuck s.acc) (clock : Clock) (fuel : ℕ) :
    ∃ s', flushBody env clock fuel s = some (.inl s') ∧ Stuck s'.acc := by
  have hle : s.acc.batchStart ≤ u32Max := by rcases h.batchStart with h | h <;> rw [h]; decide
  cases hfirst : s.acc.batchCompleteIndices.firstFrom s.acc.batchStart with
  | none =>
    have := (BTreeMap.firstFrom_eq_none _).mp hfirst u32Max ((h.boundary _).mpr rfl)
    omega
  | some e =>
    obtain ⟨bcIdx, firstSeen⟩ := e
    obtain ⟨hbc, -, -⟩ := BTreeMap.firstFrom_spec _ hfirst
    have hbc : bcIdx = u32Max :=
      (h.boundary _).mp ((BTreeMap.mem_iff_getElem? _).mpr ⟨_, hbc⟩)
    subst hbc
    -- `bc_idx - start + 1` is 0 (it overflows) or 1
    have hexp : expectedCount s.acc.batchStart u32Max ≤ 1 := by
      rcases h.batchStart with h | h <;> rw [h] <;> decide
    have hcount : ¬s.acc.pending.countIn s.acc.batchStart u32Max <
        expectedCount s.acc.batchStart u32Max := by
      have hmem : u32Max ∈ (List.range' s.acc.batchStart (u32Max + 1 - s.acc.batchStart)).filter
          (· ∈ s.acc.pending) := by
        rw [List.mem_filter, List.mem_range'_1]
        exact ⟨by omega, by simpa using (h.pending u32Max).mpr rfl⟩
      have := List.length_pos_of_mem hmem
      rw [BTreeMap.countIn_eq]
      omega
    obtain ⟨counters, hdec⟩ := s.acc.decodeCombined_eq env s.acc.batchStart u32Max
    unfold SlotAccumulator.flushBody
    simp only [hfirst, flushFill_of_empty env h.fecSets, if_neg hcount, hdec]
    refine ⟨_, rfl, fun i => ?_, fun i => ?_, ?_, .inr rfl⟩
    · rw [mem_completeBatch_pending]
      show i ∈ s.acc.pending ∧ _ ↔ _
      rw [h.pending]
      exact ⟨And.left, fun hi => ⟨hi, by rw [hi]; decide⟩⟩
    · rw [mem_completeBatch_boundaries]
      show i ∈ s.acc.batchCompleteIndices ∧ _ ↔ _
      rw [h.boundary]
      exact ⟨And.left, fun hi => ⟨hi, by rw [hi]; decide⟩⟩
    · show s.acc.fecSets.filter _ = ∅
      rw [h.fecSets]
      rfl

theorem Stuck.tryFlushBatches {acc : SlotAccumulator} (h : Stuck acc) (clock : Clock) (fuel : ℕ)
    (cache : ReedSolomonCache C) (out : List VersionedTransaction) :
    acc.tryFlushBatches env clock fuel cache out = none := by
  refine FuelLoop.run_eq_none (fun s : CallState C => Stuck s.acc) ?_ fuel ⟨acc, cache, out⟩ h
  intro s hs
  exact .inr (hs.flushBody clock fuel)

/-- A flagged shred at `u32::MAX` is one too many for a fresh accumulator. -/
theorem pushData_max_eq_none (cfg : AccumulatorConfig) (clock : Clock) (fuel : ℕ)
    (cache : ReedSolomonCache C) {a : DataArgs} (hidx : a.index = u32Max)
    (hb : a.batchComplete = true) (hlast : a.lastInSlot = false) :
    (withConfig cfg).pushData env clock fuel cache a = none := by
  have hstuck : Stuck ((withConfig cfg).insertData clock a) := by
    refine ⟨fun i => ?_, fun i => ?_, rfl, .inl rfl⟩
    · show i ∈ (∅ : BTreeMap PendingShred).insert a.index a.shred ↔ _
      rw [Std.ExtTreeMap.mem_insert, Nat.compare_eq_eq, hidx]
      simp [eq_comm]
    · unfold insertData
      rw [if_pos hb]
      show i ∈ (∅ : BTreeMap ℕ).insertIfNew a.index _ ↔ _
      rw [Std.ExtTreeMap.mem_insertIfNew, Nat.compare_eq_eq, hidx]
      simp [eq_comm]
  unfold pushData
  rw [if_neg (by simp [hlast]), if_neg (by simp [withConfig]), if_neg (by simp [withConfig])]
  cases fuel with
  | zero => rfl
  | succ fuel =>
    -- the cursor is at index 0, where there is nothing to stream
    have hstream : ((withConfig cfg).insertData clock a).advanceStreaming env (fuel + 1) [] =
        some ((withConfig cfg).insertData clock a, []) := by
      refine FuelLoop.run_done ?_ fuel
      have hnone : ((withConfig cfg).insertData clock a).pending[(0 : ℕ)]? = none := by
        apply Std.ExtTreeMap.getElem?_eq_none
        rw [hstuck.pending]
        decide
      have hcur : ((withConfig cfg).insertData clock a).streamingCursor = 0 := rfl
      rw [advanceStreamingBody, hcur, hnone]
    simp only [hstream, Option.bind_eq_bind, Option.bind_some, tryFecFill_of_empty env hstuck.fecSets,
      hstuck.tryFlushBatches]
    split_ifs <;> rfl

end NeverReturns

theorem advanceSlot_of_empty (h : l.slots = ∅) (sur : Surroundings) (fuel : ℕ) (slot : ℕ) :
    ∃ l', l.advanceSlot env sur fuel slot = some l' ∧ l'.slots = ∅ := by
  unfold advanceSlot
  split_ifs
  · have hnone : ({ l with lastSlot := slot } : ShredListener C).toEvict = [] := by
      simp [toEvict, h]
    unfold evictOldSlots
    rw [hnone, (sur.hashOrder_perm []).eq_nil]
    exact ⟨_, rfl, h⟩
  · exact ⟨l, rfl, h⟩

/-- An accepted packet with a flagged shred at `u32::MAX` for a listener without
    live slots. -/
theorem handleData_max_eq_none (h : l.slots = ∅) (sur : Surroundings) (fuel : ℕ)
    (handle : BufferHandle) {d : DataShred} (hrange : l.slotOutOfRange d.slot = false)
    (hseen : d.slot ∉ l.recentlySeenSlots) (hidx : d.index = u32Max)
    (hb : d.batchComplete = true) (hlast : d.lastInSlot = false) :
    l.handleData env sur fuel handle d = none := by
  unfold handleData
  rw [if_neg (by simp [hrange]), if_neg hseen]
  obtain ⟨l', hl', hempty⟩ := @advanceSlot_of_empty _ env { l with counters := { l.counters with
    dataShredCount := wrapAdd64 l.counters.dataShredCount 1 } } h sur fuel d.slot
  have hentry : l'.slotEntry d.slot = SlotAccumulator.withConfig l'.accumulatorCfg := by
    simp [slotEntry, hempty]
  simp only [hl', hentry, Option.bind_eq_bind, Option.bind_some]
  rw [pushData_max_eq_none]
  · rfl
  · exact hidx
  · exact hb
  · exact hlast

/-- The very first packet can be the one. -/
theorem flagged_max_never_returns :
    ¬∃ fuel r, (fromSocket {} : ShredListener Unit).handlePacket legacyEnv quiet fuel
      (legacyPacket 1 (2 ^ 32 - 1) 0x40 []) = some r := by
  rintro ⟨fuel, r, h⟩
  have hparse : parseKind ((legacyPacket 1 (2 ^ 32 - 1) 0x40 []).take bufSize) = .ok (.data {
      slot := 1, index := u32Max, version := 0, fecSetIndex := 0, parentOffset := 0, payload := []
      batchComplete := true, lastInSlot := false, variant := .dataLegacy, rawLen := 88 }) := by
    decide +kernel
  have hacquire := ShredPool.acquire_new (show 0 < 4096 by decide)
  simp only [handlePacket, acquireBufferWithFallback, fromSocket, hacquire, Option.bind_eq_bind,
    Option.bind_some, handlePacketOwned, hparse] at h
  rw [handleData_max_eq_none rfl quiet fuel _ rfl (Finset.notMem_empty _) rfl rfl rfl] at h
  cases h

end ShredListener

end ShredStream
