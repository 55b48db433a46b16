import ShredStream.Accumulator.Represents
import ShredStream.Listener.Moves
import ShredStream.Slot.Build

/-!
# The accumulators of a running listener

Every accumulator of a listener is one that was made fresh and then handed
packets of its slot (`runRequests_live`), so what holds of these holds in every
state of the listener.

* `shreds_decodable`: every pending shred gives back the payload the parser found,
  and no batch is ever finalised because of a corrupted shred.
-/

namespace ShredStream

open SlotAccumulator

namespace ShredListener

variable {C : Type} {env : Env C} {fuel : ℕ} {l l' : ShredListener C}

/-- The live accumulators are in states that packets lead to, and the retired
    ones are these after a harvest. -/
structure AllLive (env : Env C) (fuel : ℕ) (cfg : AccumulatorConfig) (l : ShredListener C) :
    Prop where
  cfg_eq : l.accumulatorCfg = cfg
  slots : ∀ (s : ℕ) (acc : SlotAccumulator), l.slots[s]? = some acc → Live env fuel cfg s acc
  retired : ∀ e ∈ l.retired, ∃ acc clock cache r, Live env fuel cfg e.1 acc ∧
    acc.tryHarvestTail env clock fuel cache = some r ∧ r.acc = e.2

theorem AllLive.slotEntry {cfg : AccumulatorConfig} (h : AllLive env fuel cfg l) (s : ℕ) :
    Live env fuel cfg s (l.slotEntry s) := by
  unfold ShredListener.slotEntry
  cases hacc : l.slots[s]? with
  | none =>
    rw [h.cfg_eq]
    exact .fresh
  | some acc => exact h.slots s acc hacc

/-- The entry of a slot is a term of any sum that gives nothing for a fresh
    accumulator. -/
theorem sumOver_slotEntry {M : Type} [AddCommMonoid M] (l : ShredListener C)
    (f : ℕ → SlotAccumulator → M) (slot : ℕ) (hfresh : f slot (withConfig l.accumulatorCfg) = 0) :
    l.slots.sumOver f = f slot (l.slotEntry slot) + BTreeMap.sumOver (l.slots.erase slot) f := by
  unfold slotEntry
  cases hacc : l.slots[slot]? with
  | some acc => exact BTreeMap.sumOver_erase _ _ hacc
  | none =>
    rw [BTreeMap.erase_of_not_mem]
    · show _ = f slot (withConfig l.accumulatorCfg) + _
      rw [hfresh, zero_add]
    · rw [BTreeMap.mem_iff_getElem?, hacc]
      rintro ⟨acc, ⟨⟩⟩

theorem allLive_fromSocket (opts : ListenerOptions) :
    AllLive env fuel opts.accumulator (fromSocket opts) where
  cfg_eq := rfl
  slots s acc h := by simp [fromSocket] at h
  retired e he := by simp [fromSocket] at he

theorem AllLive.move {cfg : AccumulatorConfig} {clock : Clock}
    {m m' : ShredListener C × List ℕ} (h : AllLive env fuel cfg m.1)
    (hmove : Move env clock fuel m m') : AllLive env fuel cfg m'.1 := by
  cases hmove with
  | keep hsame =>
    exact ⟨hsame.cfg.trans h.cfg_eq, by rw [hsame.slots]; exact h.slots,
      by rw [hsame.retired]; exact h.retired⟩
  | @retire l l' hand s hretire =>
    rcases retireSlot_cases hretire with rfl | ⟨acc, r, hacc, hr, hl'⟩
    · exact h
    · refine ⟨hl'.cfg.trans h.cfg_eq, fun s' acc' hacc' => ?_, fun e he => ?_⟩
      · rw [hl'.slots, Std.ExtTreeMap.getElem?_erase] at hacc'
        split_ifs at hacc'
        exact h.slots s' acc' hacc'
      · rw [hl'.retired] at he
        rcases List.mem_append.mp he with he | he
        · exact h.retired e he
        · cases List.mem_singleton.mp he
          exact ⟨acc, clock, _, r, h.slots s acc hacc, hr, rfl⟩
  | acquire => exact ⟨h.cfg_eq, h.slots, h.retired⟩
  | free => exact ⟨h.cfg_eq, h.slots, h.retired⟩

theorem AllLive.finishCall {cfg : AccumulatorConfig} (h : AllLive env fuel cfg l) {clock : Clock}
    {slot : ℕ} {c : Call} (hc : c.Made slot) {r : CallState C}
    (hr : (l.slotEntry slot).call env clock fuel l.rsCache c = some r) :
    AllLive env fuel cfg (l.finishCall slot r).1 where
  cfg_eq := h.cfg_eq
  slots s acc hacc := by
    replace hacc : (l.slots.insert slot { r.acc with dropped := [] })[s]? = some acc := hacc
    rw [BTreeMap.getElem?_insert_eq] at hacc
    split_ifs at hacc with hs
    · subst hs
      cases hacc
      exact .call (h.slotEntry slot) hc hr
    · exact h.slots s acc hacc
  retired := h.retired

/-- Every run leaves accumulators that packets lead to. -/
theorem runRequests_live (opts : ListenerOptions) {qs : List (Surroundings × Request)}
    {replies : List Reply} (h : runRequests env fuel (fromSocket opts) qs = some (l, replies)) :
    AllLive env fuel opts.accumulator l :=
  runRequests_moves (I := fun m => AllLive env fuel opts.accumulator m.1)
    (fun _ _ _ hm hmove => hm.move hmove)
    (fun _ _ _ _ _ _ _ hl hlen hpacket hr => hl.finishCall (made_of_packetCall hpacket hlen) hr)
    (allLive_fromSocket opts) h

/-- `runRequests_moves_throughout` for accumulators that packets lead to. -/
theorem runRequests_moves_live_throughout {cfg : AccumulatorConfig}
    {I : ShredListener C × List ℕ → Prop} {P : ShredListener C → Request → Prop}
    (hmove : ∀ clock m m', AllLive env fuel cfg m.1 → I m → Move env clock fuel m m' → I m')
    (hcall : ∀ l₀ q clock l idx raw slot c r, P l₀ q → l₀.MayHand q slot c (l.slotEntry slot) →
      AllLive env fuel cfg l → I (l, [idx]) → raw.length ≤ bufSize →
      packetCall ⟨idx, raw⟩ = some (slot, c) →
      (l.slotEntry slot).call env clock fuel l.rsCache c = some r →
      I ((l.finishCall slot r).1, c.unstored idx))
    {qs : List (Surroundings × Request)} {replies : List Reply} (hlive : AllLive env fuel cfg l)
    (hl : I (l, [])) (hP : Throughout env fuel P l qs)
    (h : runRequests env fuel l qs = some (l', replies)) : I (l', []) := by
  have hI : AllLive env fuel cfg (l', ([] : List ℕ)).1 ∧ I (l', []) := by
    refine runRequests_moves_throughout (I := fun m => AllLive env fuel cfg m.1 ∧ I m) ?_ ?_
      ⟨hlive, hl⟩ hP h
    · intro clock m m' hm hmove'
      exact ⟨hm.1.move hmove', hmove clock m m' hm.1 hm.2 hmove'⟩
    · intro l₀ q clock l idx raw slot c r hP hmay hm hlen hpacket hr
      exact ⟨hm.1.finishCall (made_of_packetCall hpacket hlen) hr,
        hcall l₀ q clock l idx raw slot c r hP hmay hm.1 hm.2 hlen hpacket hr⟩
  exact hI.2

theorem runRequests_moves_live {cfg : AccumulatorConfig} {I : ShredListener C × List ℕ → Prop}
    (hmove : ∀ clock m m', AllLive env fuel cfg m.1 → I m → Move env clock fuel m m' → I m')
    (hcall : ∀ clock l idx raw slot c r, AllLive env fuel cfg l → I (l, [idx]) →
      raw.length ≤ bufSize → packetCall ⟨idx, raw⟩ = some (slot, c) →
      (l.slotEntry slot).call env clock fuel l.rsCache c = some r →
      I ((l.finishCall slot r).1, c.unstored idx))
    {qs : List (Surroundings × Request)} {replies : List Reply} (hlive : AllLive env fuel cfg l)
    (hl : I (l, [])) (h : runRequests env fuel l qs = some (l', replies)) : I (l', []) :=
  runRequests_moves_live_throughout hmove
    (fun _ _ clock l idx raw slot c r _ _ hlive hl hlen hpacket hr =>
      hcall clock l idx raw slot c r hlive hl hlen hpacket hr)
    hlive hl (throughout_of_forall (P := fun _ => True) (fun _ _ => trivial) l) h

/-! ## The representation invariant -/

/-- In every state of the listener the accumulator of a slot represents it. Every
    call for a packet of the slot that returns keeps that and moves neither
    `batch_start` nor `streaming_cursor` back; and wherever it streams, the cursor
    is at or behind the batch start and was moved past no boundary. -/
theorem accumulators_represent (opts : ListenerOptions) {qs : List (Surroundings × Request)}
    {replies : List Reply} (h : runRequests env fuel (fromSocket opts) qs = some (l, replies))
    (s : ℕ) :
    (l.slotEntry s).Represents ∧ ∀ clock cache c, c.Made s →
      (∀ r, (l.slotEntry s).call env clock fuel cache c = some r →
        r.acc.Represents ∧ (l.slotEntry s).Forward r.acc) ∧
      ∀ t, StreamsAt env clock fuel (l.slotEntry s) cache c t →
        t.1.batchStart ≤ t.1.streamingCursor ∧ t.1.Unpassed :=
  represents_between_calls ((runRequests_live opts h).slotEntry s)

/-- Shred 0 is streamed and shred 3 ends the batch behind a gap. -/
theorem accumulators_represent_gap :
    let batch := LegacyWire.encodeBatch [[LegacyWire.signedTx 1 []]]
    ∃ (l : ShredListener Unit) (replies : List Reply),
      runRequests legacyEnv (2 ^ 32 + 1) (fromSocket {})
        [(quiet, .handlePacket (legacyPacket 1 0 0 (batch.take 60))),
          (quiet, .handlePacket (legacyPacket 1 3 0x40 [7]))] = some (l, replies) ∧
      (l.slotEntry 1).pending.keys = [0, 3] ∧ (l.slotEntry 1).batchCompleteIndices.keys = [3] ∧
      (l.slotEntry 1).streamingCursor = 1 ∧ (l.slotEntry 1).Represents := by
  intro batch
  obtain ⟨⟨l, replies⟩, hrun, heq⟩ := Option.map_eq_some_iff.mp
    (show (runRequests legacyEnv (2 ^ 32 + 1) (fromSocket {} : ShredListener Unit)
      [(quiet, .handlePacket (legacyPacket 1 0 0 (batch.take 60))),
        (quiet, .handlePacket (legacyPacket 1 3 0x40 [7]))]).map (fun r =>
          ((r.1.slotEntry 1).pending.keys, (r.1.slotEntry 1).batchCompleteIndices.keys,
            (r.1.slotEntry 1).streamingCursor)) = some ([0, 3], [3], 1) by decide +kernel)
  simp only [Prod.mk.injEq] at heq
  obtain ⟨hpending, hboundary, hcursor⟩ := heq
  exact ⟨l, replies, hrun, hpending, hboundary, hcursor, (accumulators_represent {} hrun 1).1⟩

/-! ## Payloads -/

/-- The rolled-up counters are those of the retired accumulators. -/
def RolledUp (l : ShredListener C) : Prop :=
  l.totals = (l.retired.map fun e => e.2.counters).foldl rollup {}

theorem runRequests_rolledUp (opts : ListenerOptions) {qs : List (Surroundings × Request)}
    {replies : List Reply} (h : runRequests env fuel (fromSocket opts) qs = some (l, replies)) :
    l.RolledUp := by
  have hnew : (fromSocket opts : ShredListener C).RolledUp := rfl
  refine runRequests_moves (I := fun m => m.1.RolledUp) ?_ ?_ hnew h
  · intro clock m m' hm hmove
    cases hmove with
    | keep hsame =>
      show _ = _
      rw [hsame.totals, hsame.retired]
      exact hm
    | @retire l l' hand s hretire =>
      rcases retireSlot_cases hretire with rfl | ⟨acc, r, -, -, hl'⟩
      · exact hm
      · show _ = _
        rw [hl'.totals, hl'.retired, List.map_append, List.foldl_append, ← hm]
        rfl
    | acquire => exact hm
    | free => exact hm
  · intro clock l idx raw slot c r hm _ _ _
    exact hm

end ShredListener

namespace SlotAccumulator

variable {C : Type} {env : Env C} {clock : Clock} {acc : SlotAccumulator}

/-- No batch was finalised because of a corrupted shred. -/
def Uncorrupted (acc : SlotAccumulator) : Prop := acc.counters.batchesForceFinalizedCorrupted = 0

theorem Uncorrupted.step {s s' : CallState C} (h : s.acc.Uncorrupted) (hs : Step env clock s s') :
    s'.acc.Uncorrupted := by
  cases hs with
  | fill hint =>
    have hcounts := tryFecFill_counts env clock s.acc s.cache hint
    show Counters.batchesForceFinalizedCorrupted _ = 0
    generalize (s.acc.tryFecFill env clock s.cache hint).1.counters = counters at hcounts
    cases hcounts with
    | _ => exact h
  | @finalise bcIdx txs counters hb hcounts =>
    show counters.batchesForceFinalizedCorrupted = 0
    cases hcounts with
    | _ => exact h
  | stream => exact h
  | streamError => exact h
  | record => exact h
  | tally => exact h

theorem Uncorrupted.call (h : acc.Uncorrupted) (hp : acc.Parsed) {cache : ReedSolomonCache C}
    {fuel : ℕ} {c : Call} (hc : c.Parsed) {r : CallState C}
    (hr : acc.call env clock fuel cache c = some r) : r.acc.Uncorrupted := by
  refine call_invariant (fun _ _ _ hs hstep => hs.step hstep) (fun _ _ hs => hs) ?_ hp h hc hr
  intro acc₀ ho
  cases ho with
  | @code a =>
    obtain ⟨fecSets, counters, heq, rfl | rfl⟩ := acc.recordCode_eq a
    · rw [heq]
      exact h
    · rw [heq]
      exact h
  | last => exact h
  | data => exact h
  | harvest => exact h

theorem Live.uncorrupted {fuel : ℕ} {cfg : AccumulatorConfig} {slot : ℕ}
    (h : Live env fuel cfg slot acc) : acc.Uncorrupted := by
  induction h with
  | fresh => rfl
  | call hlive hc hr ih => exact ih.call hlive.parsed hc.parsed hr

/-- Every pending shred gives back the payload the parser finds in its packet. -/
def Decodable (acc : SlotAccumulator) : Prop :=
  ∀ (i : ℕ) (ps : PendingShred), acc.pending[i]? = some ps →
    ∃ d, parseKind ps.source.slice = .ok (.data d) ∧ ps.payload = some d.payload

theorem Parsed.decodable (h : acc.Parsed) : acc.Decodable := by
  intro i ps hps
  obtain ⟨d, hd⟩ := h.pending i ps hps
  exact ⟨d, hd.parse, hd.payload_eq⟩

end SlotAccumulator

namespace ShredListener

variable {C : Type} {env : Env C} {fuel : ℕ} {l : ShredListener C}

theorem foldl_wrapAdd64_zero {ns : List ℕ} (h : ∀ n ∈ ns, n = 0) : ns.foldl wrapAdd64 0 = 0 := by
  induction ns with
  | nil => rfl
  | cons n ns ih =>
    rw [List.forall_mem_cons] at h
    obtain ⟨rfl, hns⟩ := h
    exact ih hns

theorem rollup_corrupted_zero {cs : List Counters}
    (h : ∀ c ∈ cs, c.batchesForceFinalizedCorrupted = 0) (t : Counters)
    (ht : t.batchesForceFinalizedCorrupted = 0) :
    (cs.foldl rollup t).batchesForceFinalizedCorrupted = 0 := by
  induction cs generalizing t with
  | nil => exact ht
  | cons c cs ih =>
    rw [List.forall_mem_cons] at h
    apply ih h.2
    show wrapAdd64 t.batchesForceFinalizedCorrupted c.batchesForceFinalizedCorrupted = 0
    rw [ht, h.1]
    rfl

theorem corruptedTotal_eq_zero {cfg : AccumulatorConfig} (hlive : AllLive env fuel cfg l)
    (hroll : l.RolledUp) : l.batchesForceFinalizedCorruptedTotal = 0 := by
  have htotals : l.totals.batchesForceFinalizedCorrupted = 0 := by
    rw [hroll]
    refine rollup_corrupted_zero ?_ {} rfl
    intro c hc
    obtain ⟨e, he, rfl⟩ := List.mem_map.mp hc
    obtain ⟨acc, clock, cache, r, hacc, hr, heq⟩ := hlive.retired e he
    rw [← heq]
    exact hacc.uncorrupted.call hacc.parsed Call.parsed_harvest (c := .harvest) hr
  have hsum : l.sumLive Counters.batchesForceFinalizedCorrupted = 0 := by
    apply foldl_wrapAdd64_zero
    intro n hn
    obtain ⟨⟨s, acc⟩, he, rfl⟩ := List.mem_map.mp hn
    exact (hlive.slots s acc (l.slots.mem_toList.mp he)).uncorrupted
  show wrapAdd64 _ _ = 0
  rw [htotals, hsum]
  rfl

/-- The parser's payload is the payload that is decoded: for every packet the
    parser accepts, for every shred pending between calls, and for every shred
    pending inside a call for a packet or a harvest, recovered ones included.
    Wherever a call streams, the shred at the cursor has a payload, and no batch
    was ever finalised because of a corrupted shred. -/
theorem shreds_decodable (opts : ListenerOptions) {qs : List (Surroundings × Request)}
    {replies : List Reply} (h : runRequests env fuel (fromSocket opts) qs = some (l, replies)) :
    (∀ (idx : ℕ) (raw : Bytes) d, parseKind (raw.take bufSize) = .ok (.data d) →
      (d.args ⟨idx, raw.take bufSize⟩).shred.payload = some d.payload) ∧
    (∀ (s : ℕ) (acc : SlotAccumulator), l.slots[s]? = some acc → acc.Decodable) ∧
    (∀ s clock cache c, c.Made s ∨ c = .harvest →
      (∀ acc₀ t, Opens clock (l.slotEntry s) c acc₀ → Steps env clock ⟨acc₀, cache, []⟩ t →
        t.acc.Decodable) ∧
      (∀ r, (l.slotEntry s).call env clock fuel cache c = some r → r.acc.Decodable) ∧
      ∀ t, StreamsAt env clock fuel (l.slotEntry s) cache c t →
        ∀ ps, t.1.pending[t.1.streamingCursor]? = some ps → ps.payload ≠ none) ∧
    l.batchesForceFinalizedCorruptedTotal = 0 := by
  have hall := runRequests_live opts h
  refine ⟨fun idx raw d hparse => ?_, fun s acc hacc => (hall.slots s acc hacc).parsed.decodable,
    fun s clock cache c hc => ?_, corruptedTotal_eq_zero hall (runRequests_rolledUp opts h)⟩
  · exact (DataShred.holds_args hparse (List.length_take_le _ _)).payload_eq
  · have hlive := hall.slotEntry s
    have hp := hlive.parsed
    have hcp : c.Parsed := by
      rcases hc with hc | rfl
      · exact hc.parsed
      · exact Call.parsed_harvest
    refine ⟨fun acc₀ t ho ht => (Steps.parsed ht (ho.parsed hp hcp)).decodable,
      fun r hr => (hp.call hcp hr).decodable, fun t ht ps hps => ?_⟩
    obtain ⟨hcons, hclear⟩ := hlive.consistent
    obtain ⟨payload, hpay⟩ := (ht.unpassed hcons hclear hp hcp).2.1.payload hps
    rw [hpay]
    exact Option.some_ne_none payload

/-- A packet whose payload is one byte. -/
theorem shreds_decodable_oneByte :
    ∃ l replies, runRequests legacyEnv (2 ^ 32 + 1) (fromSocket {})
        [(quiet, .handlePacket (legacyPacket 1 0 0 [7]))] = some (l, replies) ∧
      (l.slotEntry 1).pending.keys = [0] ∧
      (∀ acc, l.slots[1]? = some acc → acc.Decodable) ∧
      l.batchesForceFinalizedCorruptedTotal = 0 := by
  obtain ⟨⟨l, replies⟩, hrun⟩ := Option.isSome_iff_exists.mp
    (show (runRequests legacyEnv (2 ^ 32 + 1) (fromSocket {})
      [(quiet, .handlePacket (legacyPacket 1 0 0 [7]))]).isSome = true by decide +kernel)
  have hkeys : ((runRequests legacyEnv (2 ^ 32 + 1) (fromSocket {})
      [(quiet, .handlePacket (legacyPacket 1 0 0 [7]))]).map fun r =>
        (r.1.slotEntry 1).pending.keys) = some [0] := by decide +kernel
  rw [hrun] at hkeys
  obtain ⟨-, hslots, -, htotal⟩ := shreds_decodable {} hrun
  exact ⟨l, replies, hrun, Option.some.inj hkeys, hslots 1, htotal⟩

end ShredListener

end ShredStream
