import ShredStream.Accumulator.AnyCache
import ShredStream.Library.Keyed
import ShredStream.Listener.Moves
import ShredStream.Slot.Build

/-!
# Slots do not influence each other

`slotStep` is the accumulator of one slot on its own: it is made by the first
packet, handed the packets of the slot with no codec cached, and harvested and
thrown away when the slot is retired. A listener is such machines side by side,
one for every slot, and a queue: `Emulates` says so of a piece of a run, with the
events of the slots in it and what the slots gave.

* `runRequests_emulates`: every run is one of the machines side by side.
* `slots_isolated`: so the accumulator of a slot, the batches returned for it and
  the tails queued for it are what the slot alone makes of its own events, and
  these bring the packets of the slot in the order of their arrival.
-/

namespace ShredStream

open SlotAccumulator Keyed

/-- What happens to the accumulator of a slot. -/
inductive SlotEvent
  | packet (clock : Clock) (c : Call)
  | retire (clock : Clock)

/-- What the accumulator of a slot gives: what the call for a packet returned, or
    what the harvest found. -/
inductive SlotOutput
  | batch (txs : List VersionedTransaction)
  | tail (txs : List VersionedTransaction)

/-- A nonempty list of transactions, as an output. -/
def SlotOutput.ofTxs (f : List VersionedTransaction → SlotOutput)
    (txs : List VersionedTransaction) : List SlotOutput :=
  if txs = [] then [] else [f txs]

/-- The packet that is handed over. -/
def SlotEvent.packet? : SlotEvent → Option (Clock × Call)
  | packet clock c => some (clock, c)
  | retire _ => none

/-- What the call for a packet returned. -/
def SlotOutput.batch? : SlotOutput → Option (List VersionedTransaction)
  | batch txs => some txs
  | tail _ => none

/-- What the harvest found. -/
def SlotOutput.tail? : SlotOutput → Option (List VersionedTransaction)
  | tail txs => some txs
  | batch _ => none

variable {C : Type}

/-- The accumulator of a slot, if it has one, on its own. -/
def slotStep (env : Env C) (fuel : ℕ) (cfg : AccumulatorConfig) (acc : Option SlotAccumulator) :
    SlotEvent → Option (Option SlotAccumulator × List SlotOutput)
  | .packet clock c => do
    let r ← (acc.getD (withConfig cfg)).call env clock fuel {} c
    return (some { r.acc with dropped := [] }, SlotOutput.ofTxs .batch r.out)
  | .retire clock =>
    match acc with
    | none => some (none, [])
    | some acc => do
      let r ← acc.tryHarvestTail env clock fuel {}
      return (none, SlotOutput.ofTxs .tail r.out)

/-- What is handed over comes from the packet of a call, with its clock. -/
def Brings (p : ℕ × Clock × Call) (q : Surroundings × Request) : Prop :=
  p.2.1 = q.1.clock ∧ ∃ raw ∈ q.2.packet, ∃ idx, packetCall ⟨idx, raw⟩ = some (p.1, p.2.2)

/-- What is handed over came with one of the calls. -/
theorem exists_brings {ps : List (ℕ × Clock × Call)} {qs : List (Surroundings × Request)}
    (h : List.SublistForall₂ Brings ps qs) {p : ℕ × Clock × Call} (hp : p ∈ ps) :
    ∃ q ∈ qs, Brings p q := by
  induction h with
  | nil => cases hp
  | cons hbrings _ ih =>
    rcases List.mem_cons.mp hp with rfl | hp
    · exact ⟨_, List.mem_cons_self, hbrings⟩
    · obtain ⟨q, hq, hpq⟩ := ih hp
      exact ⟨q, List.mem_cons_of_mem _ hq, hpq⟩
  | cons_right _ ih =>
    obtain ⟨q, hq, hpq⟩ := ih hp
    exact ⟨q, List.mem_cons_of_mem _ hq, hpq⟩

theorem length_packet {q : Request} {raw : Bytes} (h : q.packet = some raw) :
    raw.length ≤ bufSize := by
  cases q with
  | handlePacket bytes =>
    cases h
    exact List.length_take_le _ _
  | recvOne datagram =>
    cases datagram with
    | error kind => cases h
    | ok bytes =>
      cases h
      exact List.length_take_le _ _

/-- The slot the packet of a call is for. -/
def Request.slot (enableFec : Bool) (q : Request) : Option ℕ :=
  q.packet.bind (packetSlot enableFec)

/-- What the packet of the call itself completed. -/
def Reply.returned : Reply → Option TxBatch
  | own batch => batch
  | _ => none

namespace ShredListener

variable {env : Env C} {fuel : ℕ} {l l' l'' : ShredListener C}

/-- The accumulators of all slots. -/
def live (l : ShredListener C) (s : ℕ) : Option SlotAccumulator := l.slots[s]?

/-- The tails that are queued. -/
def delivered (l : ShredListener C) (outs : List (ℕ × SlotOutput)) : List TxBatch :=
  if l.disableSalvageDelivery then [] else collect SlotOutput.tail? outs

theorem delivered_append (l : ShredListener C) (outs outs' : List (ℕ × SlotOutput)) :
    l.delivered (outs ++ outs') = l.delivered outs ++ l.delivered outs' := by
  unfold delivered
  split_ifs
  · rfl
  · exact collect_append _ outs outs'

/-- From `l` to `l'` the slots saw `es` and gave `outs`, and `taken` was taken from
    the queue. -/
structure Emulates (env : Env C) (fuel : ℕ) (l l' : ShredListener C) (es : List (ℕ × SlotEvent))
    (outs : List (ℕ × SlotOutput)) (taken : List TxBatch) : Prop where
  run : runAll (slotStep env fuel l.accumulatorCfg) l.live es = some (l'.live, outs)
  queue : taken ++ l'.pendingBatches = l.pendingBatches ++ l.delivered outs
  cache : l'.rsCache.Valid env.reedSolomon
  cfg : l'.accumulatorCfg = l.accumulatorCfg
  fec : l'.enableFec = l.enableFec
  salvage : l'.disableSalvageDelivery = l.disableSalvageDelivery
  retired : ∀ s, s ∈ l.retired.map Prod.fst ∨ (∃ clock, (s, .retire clock) ∈ es) →
    s ∈ l'.retired.map Prod.fst

namespace Emulates

variable {es es' : List (ℕ × SlotEvent)} {outs outs' : List (ℕ × SlotOutput)}
  {taken taken' : List TxBatch}

theorem trans (h : Emulates env fuel l l' es outs taken)
    (h' : Emulates env fuel l' l'' es' outs' taken') :
    Emulates env fuel l l'' (es ++ es') (outs ++ outs') (taken ++ taken') where
  run := by
    have hrun := h'.run
    rw [h.cfg] at hrun
    exact run_append h.run hrun
  queue := by
    have hdel : l'.delivered outs' = l.delivered outs' := by rw [delivered, delivered, h.salvage]
    rw [List.append_assoc, h'.queue, ← List.append_assoc, h.queue, delivered_append, hdel,
      List.append_assoc]
  cache := h'.cache
  cfg := h'.cfg.trans h.cfg
  fec := h'.fec.trans h.fec
  salvage := h'.salvage.trans h.salvage
  retired s hs := by
    apply h'.retired
    rcases hs with hs | ⟨clock, hs⟩
    · exact .inl (h.retired s (.inl hs))
    · rcases List.mem_append.mp hs with hs | hs
      · exact .inl (h.retired s (.inr ⟨clock, hs⟩))
      · exact .inr ⟨clock, hs⟩

/-- Whatever else changes in the listener does not concern its slots. -/
theorem of_same (hv : l.rsCache.Valid env.reedSolomon) (hs : l'.slots = l.slots)
    (hq : l'.pendingBatches = l.pendingBatches) (hc : l'.rsCache = l.rsCache)
    (hcfg : l'.accumulatorCfg = l.accumulatorCfg) (hfec : l'.enableFec = l.enableFec)
    (hsal : l'.disableSalvageDelivery = l.disableSalvageDelivery) (hret : l'.retired = l.retired) :
    Emulates env fuel l l' [] [] [] where
  run := by
    show some (l.live, _) = some (l'.live, _)
    unfold live
    rw [hs]
  queue := by
    rw [hq]
    unfold delivered
    split_ifs <;> simp [collect]
  cache := hc ▸ hv
  cfg := hcfg
  fec := hfec
  salvage := hsal
  retired s h := by
    rw [hret]
    simpa using h

end Emulates

/-! ## Evictions -/

/-- The slots from `l` to `l'` were only retired. -/
def Evicting (env : Env C) (fuel : ℕ) (l l' : ShredListener C) : Prop :=
  ∃ es outs, Emulates env fuel l l' es outs [] ∧ collect SlotEvent.packet? es = [] ∧
    collect SlotOutput.batch? outs = []

theorem Evicting.trans (h : Evicting env fuel l l') (h' : Evicting env fuel l' l'') :
    Evicting env fuel l l'' := by
  obtain ⟨es, outs, he, hp, hb⟩ := h
  obtain ⟨es', outs', he', hp', hb'⟩ := h'
  refine ⟨_, _, he.trans he', ?_, ?_⟩
  · rw [collect_append, hp, hp', List.append_nil]
  · rw [collect_append, hb, hb', List.append_nil]

theorem Evicting.cache (h : Evicting env fuel l l') : l'.rsCache.Valid env.reedSolomon := by
  obtain ⟨es, outs, he, -⟩ := h
  exact he.cache

theorem evicting_same (hv : l.rsCache.Valid env.reedSolomon) (hs : l'.slots = l.slots)
    (hq : l'.pendingBatches = l.pendingBatches) (hc : l'.rsCache = l.rsCache)
    (hcfg : l'.accumulatorCfg = l.accumulatorCfg) (hfec : l'.enableFec = l.enableFec)
    (hsal : l'.disableSalvageDelivery = l.disableSalvageDelivery) (hret : l'.retired = l.retired) :
    Evicting env fuel l l' :=
  ⟨[], [], .of_same hv hs hq hc hcfg hfec hsal hret, rfl, rfl⟩

theorem retireSlot_evicting (hv : l.rsCache.Valid env.reedSolomon) {clock : Clock} {s : ℕ}
    (h : l.retireSlot env clock fuel s = some l') : Evicting env fuel l l' := by
  unfold retireSlot at h
  split at h
  · cases h
    exact evicting_same hv rfl rfl rfl rfl rfl rfl rfl
  · rename_i acc hacc
    obtain ⟨r, hr, h⟩ := Option.bind_eq_some_iff.mp h
    obtain ⟨hvalid, r', hr', -, hout⟩ :=
      call_withCache (c := .harvest) hv (ReedSolomonCache.valid_empty _) hr
    replace hr' : acc.tryHarvestTail env clock fuel {} = some r' := hr'
    cases h
    refine ⟨[(s, .retire clock)], (SlotOutput.ofTxs .tail r.out).map (s, ·), ?_, rfl, ?_⟩
    · refine ⟨?_, ?_, hvalid, rfl, rfl, rfl, ?_⟩
      · have hstep : slotStep env fuel l.accumulatorCfg (l.live s) (.retire clock) =
            some (none, SlotOutput.ofTxs .tail r.out) := by
          unfold live slotStep
          rw [hacc]
          simp only [hr', hout, Option.bind_eq_bind, Option.bind_some]
          rfl
        rw [runAll, run_singleton, stepAll, hstep, Option.map_some]
        congr 2
        funext s'
        show _ = (l.slots.erase s)[s']?
        rw [BTreeMap.getElem?_erase_eq, Function.update_apply]
        by_cases hs : s' = s
        · rw [if_pos hs, if_pos hs.symm]
        · rw [if_neg hs, if_neg (Ne.symm hs)]
          rfl
      · show (if r.out ≠ [] ∧ !l.disableSalvageDelivery then l.pendingBatches ++ [(s, r.out)]
          else l.pendingBatches) = _
        unfold delivered SlotOutput.ofTxs
        cases l.disableSalvageDelivery <;> by_cases hnil : r.out = [] <;>
          simp [hnil, collect, SlotOutput.tail?]
      · intro s' hs'
        show s' ∈ (l.retired ++ [(s, r.acc)]).map Prod.fst
        rw [List.map_append, List.mem_append]
        refine hs'.imp id ?_
        rintro ⟨clock', hmem⟩
        cases List.mem_singleton.mp hmem
        exact List.mem_singleton.mpr rfl
    · unfold SlotOutput.ofTxs collect
      split_ifs <;> rfl

theorem retireSlots_evicting {clock : Clock} {ss : List ℕ} (hv : l.rsCache.Valid env.reedSolomon)
    (h : retireSlots env clock fuel l ss = some l') : Evicting env fuel l l' := by
  induction ss generalizing l with
  | nil =>
    cases h
    exact evicting_same hv rfl rfl rfl rfl rfl rfl rfl
  | cons s ss ih =>
    obtain ⟨l₁, h₁, h₂⟩ := Option.bind_eq_some_iff.mp h
    have he := retireSlot_evicting hv h₁
    exact he.trans (ih he.cache h₂)

theorem evictOldSlots_evicting {sur : Surroundings} (hv : l.rsCache.Valid env.reedSolomon)
    (h : l.evictOldSlots env sur fuel = some l') : Evicting env fuel l l' := by
  obtain ⟨l₁, h₁, h₂⟩ := Option.bind_eq_some_iff.mp h
  cases h₂
  have he := retireSlots_evicting hv h₁
  exact he.trans (evicting_same he.cache rfl rfl rfl rfl rfl rfl rfl)

theorem acquire_evicting {sur : Surroundings} {buffer : Option ℕ}
    (hv : l.rsCache.Valid env.reedSolomon)
    (h : l.acquireBufferWithFallback env sur fuel = some (l', buffer)) :
    Evicting env fuel l l' := by
  unfold acquireBufferWithFallback at h
  split at h
  · cases h
    exact evicting_same hv rfl rfl rfl rfl rfl rfl rfl
  · obtain ⟨l₁, h₁, h⟩ := Option.bind_eq_some_iff.mp h
    have he := evictOldSlots_evicting hv h₁
    refine he.trans ?_
    split at h
    · cases h
      exact evicting_same he.cache rfl rfl rfl rfl rfl rfl rfl
    · obtain ⟨l₂, h₂, h⟩ := Option.bind_eq_some_iff.mp h
      have he' : Evicting env fuel l₁ l₂ := by
        unfold forceEvictOldestSlot at h₂
        split at h₂
        · cases h₂
          exact evicting_same he.cache rfl rfl rfl rfl rfl rfl rfl
        · exact retireSlot_evicting he.cache h₂
      refine he'.trans ?_
      split at h
      · cases h
        exact evicting_same he'.cache rfl rfl rfl rfl rfl rfl rfl
      · cases h
        exact evicting_same he'.cache rfl rfl rfl rfl rfl rfl rfl

theorem advanceSlot_evicting {sur : Surroundings} {slot : ℕ} {counters : PacketCounters}
    (hv : l.rsCache.Valid env.reedSolomon)
    (h : { l with counters }.advanceSlot env sur fuel slot = some l') : Evicting env fuel l l' := by
  unfold advanceSlot at h
  split_ifs at h
  · have hsame : Evicting env fuel l { l with counters, lastSlot := slot } :=
      evicting_same hv rfl rfl rfl rfl rfl rfl rfl
    exact hsame.trans (evictOldSlots_evicting hsame.cache h)
  · cases h
    exact evicting_same hv rfl rfl rfl rfl rfl rfl rfl

/-! ## Packets -/

/-- A packet that does not reach an accumulator, when there is a buffer for it. -/
def Refuses (l : ShredListener C) (raw : Bytes) : Prop :=
  ∀ slot, packetSlot l.enableFec raw = some slot →
    l.slotOutOfRange slot = true ∨ slot ∈ l.recentlySeenSlots

theorem packetSlot_code {enableFec : Bool} {raw : Bytes} {c : CodeShred} {slot : ℕ}
    (hparse : parseKind raw = .ok (.code c)) (h : packetSlot enableFec raw = some slot) :
    c.slot = slot := by
  unfold packetSlot at h
  simp only [hparse] at h
  split_ifs at h
  exact Option.some.inj h

/-- What a call for a packet does to the slots. -/
theorem finishCall_emulates (hv : l.rsCache.Valid env.reedSolomon) {clock : Clock} {slot : ℕ}
    {c : Call} {r : CallState C}
    (hr : (l.slotEntry slot).call env clock fuel l.rsCache c = some r) :
    ∃ outs, Emulates env fuel l (l.finishCall slot r).1 [(slot, .packet clock c)] outs [] ∧
      collect SlotOutput.batch? outs = (l.finishCall slot r).2.toList := by
  obtain ⟨hvalid, r', hr', hacc, hout⟩ :=
    call_withCache hv (ReedSolomonCache.valid_empty env.reedSolomon) hr
  refine ⟨(SlotOutput.ofTxs .batch r.out).map (slot, ·),
    ⟨?_, ?_, hvalid, rfl, rfl, rfl, fun s hs => ?_⟩, ?_⟩
  · have hstep : slotStep env fuel l.accumulatorCfg (l.live slot) (.packet clock c) =
        some (some { r.acc with dropped := [] }, SlotOutput.ofTxs .batch r.out) := by
      replace hr' : ((l.live slot).getD (withConfig l.accumulatorCfg)).call env clock fuel {} c =
        some r' := hr'
      simp only [slotStep, hr', ← hacc, ← hout, Option.bind_eq_bind, Option.bind_some]
      rfl
    rw [runAll, run_singleton, stepAll, hstep, Option.map_some]
    congr 2
    funext s
    show _ = (l.slots.insert slot { r.acc with dropped := [] })[s]?
    rw [BTreeMap.getElem?_insert_eq, Function.update_apply]
    by_cases hs : s = slot
    · rw [if_pos hs, if_pos hs.symm]
    · rw [if_neg hs, if_neg (Ne.symm hs)]
      rfl
  · show l.pendingBatches = _
    unfold delivered SlotOutput.ofTxs
    cases l.disableSalvageDelivery <;> by_cases hnil : r.out = [] <;>
      simp [hnil, collect, SlotOutput.tail?]
  · rcases hs with hs | ⟨clock', hs⟩
    · exact hs
    · cases List.mem_singleton.mp hs
  · unfold finishCall SlotOutput.ofTxs
    by_cases hnil : r.out = [] <;> simp [hnil, collect, SlotOutput.batch?]

/-- What handling a packet does to the slots: nothing, or they see the packet. -/
def SeesPacket (env : Env C) (sur : Surroundings) (fuel : ℕ) (l l' : ShredListener C)
    (handle : BufferHandle) (out : Option TxBatch) : Prop :=
  ∃ es outs, Emulates env fuel l l' es outs [] ∧
    collect SlotOutput.batch? outs = out.toList ∧
    ((collect SlotEvent.packet? es = [] ∧ l.Refuses handle.bytes) ∨
      ∃ slot c, collect SlotEvent.packet? es = [(slot, sur.clock, c)] ∧
        packetCall handle = some (slot, c) ∧ packetSlot l.enableFec handle.bytes = some slot)

theorem seesPacket_refused {sur : Surroundings} {handle : BufferHandle}
    (hkeep : Evicting env fuel l l') (href : l.Refuses handle.bytes) :
    SeesPacket env sur fuel l l' handle none := by
  obtain ⟨es, outs, he, hp, hb⟩ := hkeep
  exact ⟨es, outs, he, hb, .inl ⟨hp, href⟩⟩

/-- The packet is handed over once the slots that became too old are retired. -/
theorem seesPacket_handed {sur : Surroundings} {handle : BufferHandle} {l₁ : ShredListener C}
    {slot : ℕ} {c : Call} {r : CallState C} (hadvance : Evicting env fuel l l₁)
    (hr : (l₁.slotEntry slot).call env sur.clock fuel l₁.rsCache c = some r)
    (hkeep : r.cache.Valid env.reedSolomon → Evicting env fuel (l₁.finishCall slot r).1 l')
    (hpacket : packetCall handle = some (slot, c))
    (hslot : packetSlot l.enableFec handle.bytes = some slot) :
    SeesPacket env sur fuel l l' handle (l₁.finishCall slot r).2 := by
  obtain ⟨es, outs, he, hp, hb⟩ := hadvance
  obtain ⟨outs', he', hb'⟩ := finishCall_emulates he.cache hr
  obtain ⟨es'', outs'', he'', hp'', hb''⟩ := hkeep he'.cache
  refine ⟨_, _, he.trans (he'.trans he''), ?_, .inr ⟨slot, c, ?_, hpacket, hslot⟩⟩
  · rw [collect_append, collect_append, hb, hb', hb'', List.append_nil, List.nil_append]
  · rw [collect_append, collect_append, hp, hp'']
    rfl

theorem handlePacketOwned_sees {sur : Surroundings} {handle : BufferHandle}
    {out : Option TxBatch} (hv : l.rsCache.Valid env.reedSolomon)
    (h : l.handlePacketOwned env sur fuel handle = some (l', out)) :
    SeesPacket env sur fuel l l' handle out := by
  have hsame {counters : PacketCounters} {pool : ShredPool} :
      Evicting env fuel l { l with counters, pool } := evicting_same hv rfl rfl rfl rfl rfl rfl rfl
  unfold handlePacketOwned at h
  simp only at h
  split at h
  · rename_i e hparse
    cases h
    refine seesPacket_refused hsame fun slot hslot => ?_
    simp [packetSlot, hparse] at hslot
  · rename_i d hparse
    have hslot : packetSlot l.enableFec handle.bytes = some d.slot := by
      simp [packetSlot, hparse]
    have hpacket : packetCall handle = some (d.slot, .data (d.args handle)) := by
      simp [packetCall, hparse]
    unfold handleData at h
    split_ifs at h with hrange hseen
    · cases h
      refine seesPacket_refused hsame fun slot hslot' => ?_
      cases hslot.symm.trans hslot'
      exact .inl hrange
    · cases h
      refine seesPacket_refused hsame fun slot hslot' => ?_
      cases hslot.symm.trans hslot'
      exact .inr hseen
    · obtain ⟨l₁, h₁, h⟩ := Option.bind_eq_some_iff.mp h
      obtain ⟨r, hr, h⟩ := Option.bind_eq_some_iff.mp h
      cases h
      exact seesPacket_handed (c := .data (d.args handle)) (advanceSlot_evicting hv h₁) hr
        (fun hv => evicting_same hv rfl rfl rfl rfl rfl rfl rfl) hpacket hslot
  · rename_i c hparse
    unfold handleCode at h
    simp only at h
    split_ifs at h with hrange hseen hfec
    · cases h
      refine seesPacket_refused hsame fun slot hslot => ?_
      cases packetSlot_code hparse hslot
      exact .inl hrange
    · cases h
      refine seesPacket_refused hsame fun slot hslot => ?_
      cases packetSlot_code hparse hslot
      exact .inr hseen
    · cases h
      refine seesPacket_refused hsame fun slot hslot => ?_
      have hoff : l.enableFec = false := by simpa using hfec
      simp [packetSlot, hparse, hoff] at hslot
    · obtain ⟨l₁, h₁, h⟩ := Option.bind_eq_some_iff.mp h
      obtain ⟨r, hr, h⟩ := Option.bind_eq_some_iff.mp h
      cases h
      have hon : l.enableFec = true := by simpa using hfec
      have hpacket : packetCall handle = some (c.slot, .code c.args) := by
        simp [packetCall, hparse]
      exact seesPacket_handed (c := .code c.args) (advanceSlot_evicting hv h₁) hr
        (fun hv => evicting_same hv rfl rfl rfl rfl rfl rfl rfl) hpacket
        (by simp [packetSlot, hparse, hon])

/-! ## Calls -/

/-- The packet of a call reaches the accumulator of `slot`, if it is one for `slot`. -/
def Takes (slot : ℕ) (l : ShredListener C) (q : Request) : Prop :=
  ∀ raw ∈ q.packet, packetSlot l.enableFec raw = some slot →
    raw ∈ l.incoming q ∧ l.pool.free ≠ [] ∧ l.slotOutOfRange slot = false ∧
      slot ∉ l.recentlySeenSlots

instance (slot : ℕ) (l : ShredListener C) (q : Request) : Decidable (l.Takes slot q) :=
  inferInstanceAs (Decidable (∀ raw ∈ q.packet, _ → _ ∧ _ ∧ _ ∧ _))

/-- What a call does to the slots: `es`, `outs`, and at most one packet. -/
def Sees (env : Env C) (fuel : ℕ) (l l' : ShredListener C) (q : Surroundings × Request)
    (reply : Reply) : Prop :=
  ∃ es outs, Emulates env fuel l l' es outs reply.fromQueue.toList ∧
    collect SlotOutput.batch? outs = reply.returned.toList ∧
    ((collect SlotEvent.packet? es = [] ∧
        ∀ slot, l.Takes slot q.2 → q.2.slot l.enableFec ≠ some slot) ∨
      ∃ p, collect SlotEvent.packet? es = [p] ∧ Brings p q ∧ q.2.slot l.enableFec = some p.1)

theorem packet_of_incoming {q : Request} {raw : Bytes} (h : raw ∈ l.incoming q) :
    q.packet = some raw := by
  cases q with
  | handlePacket => exact h
  | recvOne datagram =>
    unfold incoming at h
    simp only at h
    split_ifs at h
    · exact h
    · cases h

theorem sees_handled {sur : Surroundings} {q : Request} {l₀ : ShredListener C} {idx : ℕ}
    {raw : Bytes} {out : Option TxBatch} (hv : l.rsCache.Valid env.reedSolomon)
    (h₀ : l.acquireBufferWithFallback env sur fuel = some (l₀, some idx))
    (hraw : raw ∈ l.incoming q)
    (h₁ : l₀.handlePacketOwned env sur fuel ⟨idx, raw⟩ = some (l', out)) :
    Sees env fuel l l' (sur, q) (.own out) := by
  obtain ⟨es, outs, he, hp, hb⟩ := acquire_evicting hv h₀
  obtain ⟨es', outs', he', hb', hcases⟩ := handlePacketOwned_sees he.cache h₁
  have hpacket : q.packet = some raw := packet_of_incoming hraw
  refine ⟨_, _, he.trans he', ?_, ?_⟩
  · rw [collect_append, hb, hb']
    rfl
  · rw [collect_append, hp, List.nil_append]
    refine hcases.imp ?_ ?_
    · rintro ⟨hnone, href⟩
      refine ⟨hnone, fun slot htakes hslot => ?_⟩
      unfold Request.slot at hslot
      rw [hpacket, Option.bind_some] at hslot
      obtain ⟨-, hfree, hrange, hseen⟩ := htakes raw hpacket hslot
      -- with a free buffer nothing was evicted
      obtain ⟨gone, queued, hev, hsame⟩ := acquire_evicts h₀
      rw [← he.fec] at hslot
      rcases href slot hslot with hout | hknown
      · unfold slotOutOfRange at hout hrange
        rw [hev.lastSlot, hrange] at hout
        cases hout
      · rw [(hsame hfree).2] at hknown
        exact hseen hknown
    · rintro ⟨slot, c, hes, hcall, hslot⟩
      refine ⟨(slot, sur.clock, c), hes, ⟨rfl, raw, hpacket, idx, hcall⟩, ?_⟩
      unfold Request.slot
      rw [hpacket, ← he.fec]
      exact hslot

theorem sees_nothing {l₁ : ShredListener C} {q : Surroundings × Request} {reply : Reply}
    (he : Evicting env fuel l l₁) (hkeep : Evicting env fuel l₁ l') (hreply : reply.batch = none)
    (hnone : ∀ slot, l.Takes slot q.2 → q.2.slot l.enableFec ≠ some slot) :
    Sees env fuel l l' q reply := by
  obtain ⟨es, outs, he, hp, hb⟩ := he.trans hkeep
  obtain ⟨hfrom, hown⟩ : reply.fromQueue = none ∧ reply.returned = none := by
    cases reply with
    | own batch => exact ⟨rfl, hreply⟩
    | queued batch => cases hreply
    | ioError kind => exact ⟨rfl, rfl⟩
  refine ⟨es, outs, ?_, ?_, .inl ⟨hp, hnone⟩⟩
  · rw [hfrom]
    exact he
  · rw [hown, hb]
    rfl

/-- A packet that is taken is handled. -/
theorem handled_of_takes {sur : Surroundings} {q : Request} {reply : Reply} {slot : ℕ}
    (htakes : l.Takes slot q) (hslot : q.slot l.enableFec = some slot)
    (h : l.request env sur fuel q = some (l', reply)) :
    ∃ l₀ idx raw out, l.acquireBufferWithFallback env sur fuel = some (l₀, some idx) ∧
      raw ∈ l.incoming q ∧ l₀.handlePacketOwned env sur fuel ⟨idx, raw⟩ = some (l', out) ∧
      reply = .own out := by
  obtain ⟨raw, hraw, hslot⟩ := Option.bind_eq_some_iff.mp hslot
  obtain ⟨hin, hfree, -⟩ := htakes raw hraw hslot
  obtain ⟨idx, free, hidx⟩ := List.exists_cons_of_ne_nil hfree
  have hacq : l.acquireBufferWithFallback env sur fuel =
      some ({ l with pool := { l.pool with free } }, some idx) := by
    simp [acquireBufferWithFallback, ShredPool.acquire, hidx]
  cases q with
  | handlePacket bytes =>
    cases hraw
    obtain ⟨⟨l₂, out⟩, h₂, h⟩ := Option.bind_eq_some_iff.mp h
    cases h
    unfold handlePacket at h₂
    rw [hacq] at h₂
    exact ⟨_, idx, _, out, hacq, hin, h₂, rfl⟩
  | recvOne datagram =>
    have hempty : l.pendingBatches = [] := by
      by_contra hne
      simp [incoming, hne] at hin
    cases datagram with
    | error kind => cases hraw
    | ok bytes =>
      cases hraw
      unfold request recvOne at h
      rw [hempty] at h
      obtain ⟨⟨l₂, result, readSocket⟩, h₂, h⟩ := Option.bind_eq_some_iff.mp h
      obtain ⟨⟨l₁, buffer⟩, h₁, h₂⟩ := Option.bind_eq_some_iff.mp h₂
      rw [hacq] at h₁
      cases h₁
      obtain ⟨⟨l₃, out⟩, h₃, h₂⟩ := Option.bind_eq_some_iff.mp h₂
      cases h₂
      refine ⟨_, idx, _, out, hacq, hin, ?_⟩
      cases out with
      | none =>
        cases h
        exact ⟨h₃, rfl⟩
      | some batch =>
        cases h
        exact ⟨h₃, rfl⟩

/-- Every call on a listener that returns, as the slots see it. -/
theorem request_sees {sur : Surroundings} {q : Request} {reply : Reply}
    (hv : l.rsCache.Valid env.reedSolomon) (h : l.request env sur fuel q = some (l', reply)) :
    Sees env fuel l l' (sur, q) reply := by
  by_cases htaken : ∃ slot, l.Takes slot q ∧ q.slot l.enableFec = some slot
  · obtain ⟨slot, htakes, hslot⟩ := htaken
    obtain ⟨l₀, idx, raw, out, h₀, hraw, h₁, rfl⟩ := handled_of_takes htakes hslot h
    exact sees_handled hv h₀ hraw h₁
  have hnone : ∀ slot, l.Takes slot q → q.slot l.enableFec ≠ some slot :=
    fun slot htakes hslot => htaken ⟨slot, htakes, hslot⟩
  cases request_serves h with
  | popped datagram batch rest hq hpend hl' hreply =>
    subst hl' hreply
    refine ⟨[], [], ⟨rfl, ?_, hv, rfl, rfl, rfl, fun s hs => by simpa using hs⟩, rfl,
      .inl ⟨rfl, hnone⟩⟩
    rw [hpend]
    unfold delivered
    split_ifs <;> simp [collect, Reply.fromQueue]
  | exhausted l₁ h₁ hl' hreply =>
    subst hl'
    have he := acquire_evicting hv h₁
    exact sees_nothing he (evicting_same he.cache rfl rfl rfl rfl rfl rfl rfl) hreply hnone
  | failed l₁ idx h₁ hl' hreply =>
    subst hl'
    have he := acquire_evicting hv h₁
    exact sees_nothing he (evicting_same he.cache rfl rfl rfl rfl rfl rfl rfl) hreply hnone
  | handled l₀ idx raw out h₀ hraw h₁ hreply =>
    subst hreply
    exact sees_handled hv h₀ hraw h₁

/-! ## Runs -/

/-- Every run, as the slots see it. The packets handed over are some of those that
    arrived, in their order; and all packets of a slot are, if each is taken. -/
theorem runRequests_emulates (hv : l.rsCache.Valid env.reedSolomon)
    {qs : List (Surroundings × Request)} {replies : List Reply}
    (h : runRequests env fuel l qs = some (l', replies)) :
    ∃ es outs, Emulates env fuel l l' es outs (replies.filterMap Reply.fromQueue) ∧
      collect SlotOutput.batch? outs = replies.filterMap Reply.returned ∧
      List.SublistForall₂ Brings (collect SlotEvent.packet? es) qs ∧
      ∀ slot, Throughout env fuel (Takes slot) l qs →
        List.Forall₂ (fun p q => Brings (slot, p) q) (project slot (collect SlotEvent.packet? es))
          (qs.filter fun q => q.2.slot l.enableFec = some slot) := by
  induction qs generalizing l replies with
  | nil =>
    cases h
    exact ⟨[], [], .of_same hv rfl rfl rfl rfl rfl rfl rfl, rfl, .nil, fun _ _ => .nil⟩
  | cons q qs ih =>
    obtain ⟨sur, q⟩ := q
    simp only [runRequests, Option.bind_eq_bind, Option.bind_eq_some_iff] at h
    obtain ⟨⟨l₁, reply⟩, hq, ⟨l₂, rest⟩, hrest, heq⟩ := h
    cases heq
    obtain ⟨es, outs, he, hown, hcases⟩ := request_sees hv hq
    obtain ⟨es', outs', he', hown', hsub, hall⟩ := ih he.cache hrest
    refine ⟨es ++ es', outs ++ outs', ?_, ?_, ?_, fun slot hthrough => ?_⟩
    · have htrans := he.trans he'
      cases reply with
      | queued batch => exact htrans
      | own batch => exact htrans
      | ioError kind => exact htrans
    · rw [collect_append, hown, hown']
      cases reply with
      | queued batch => rfl
      | own batch => cases batch <;> rfl
      | ioError kind => rfl
    · rw [collect_append]
      rcases hcases with ⟨hnone, -⟩ | ⟨p, hp, hbrings, -⟩
      · rw [hnone]
        exact .cons_right hsub
      · rw [hp]
        exact .cons hbrings hsub
    · obtain ⟨htakes, hthrough⟩ := hthrough
      have hall' := hall slot (hthrough _ hq)
      rw [he.fec] at hall'
      rw [collect_append, project_append]
      rcases hcases with ⟨hnone, hnot⟩ | ⟨p, hp, hbrings, hslot⟩
      · rw [hnone, List.filter_cons_of_neg (by simpa using hnot slot htakes)]
        exact hall'
      · rw [hp]
        by_cases hs : p.1 = slot
        · subst hs
          rw [List.filter_cons_of_pos (by simpa using hslot), project_cons_self]
          exact .cons hbrings hall'
        · have hne : q.slot l.enableFec ≠ some slot := by
            rw [hslot]
            exact fun heq => hs (Option.some.inj heq)
          rw [List.filter_cons_of_neg (by simpa using hne), project_cons_ne hs]
          exact hall'

end ShredListener

end ShredStream
