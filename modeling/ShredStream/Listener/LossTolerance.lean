import ShredStream.Listener.Filed
import ShredStream.Listener.Honest
import ShredStream.Slot.LossTolerance

/-!
# A protected slot on a listener

The packets of a slot that is protected by FEC sets arrive at a listener among
others, and not all of them do. When the slot is retired, what is missing is
recovered, and the rest is decoded and queued.

* `Serving.call`: what holds of the accumulator of the slot alone between two of its
  packets (`Serving`), each of which may find another codec cache.
* `slotRun_serves`: so it holds after all of them.
* `protected_slot_delivered`: what the calls return for the slot and what they queue
  for it begins with the ledger of the batches that arrived or are made up for.
-/

namespace ShredStream

open SlotAccumulator Keyed

/-! ## Calls but for their buffers -/

/-- The call with its packet in buffer 0. -/
def SlotAccumulator.Call.unbuffered : Call → Call
  | .data a => .data { a with handle := { a.handle with idx := 0 } }
  | .code a => .code a
  | .harvest => .harvest

/-- The calls that the packets of slot `n` lead to, but for their buffers. -/
def handedOver (n : ℕ) (qs : List (Surroundings × Request)) : List (Clock × Call) :=
  (qs.filter fun q => q.2.slot true = some n).filterMap fun q =>
    (q.2.packet.bind fun raw => packetCall ⟨0, raw⟩).map fun r => (q.1.clock, r.2)

theorem packetCall_unbuffered {idx n : ℕ} {raw : Bytes} {c : Call}
    (h : packetCall ⟨idx, raw⟩ = some (n, c)) : packetCall ⟨0, raw⟩ = some (n, c.unbuffered) := by
  unfold packetCall at h ⊢
  simp only at h ⊢
  split at h
  · cases h
    rfl
  · cases h
    rfl
  · cases h

/-- What is handed to the slot alone is what its packets lead to. -/
theorem handedOver_eq {n : ℕ} {packets : List (Clock × Call)} {qs : List (Surroundings × Request)}
    (h : List.Forall₂ (fun p q => Brings (n, p) q) packets
      (qs.filter fun q => q.2.slot true = some n)) :
    handedOver n qs = packets.map fun c => (c.1, c.2.unbuffered) := by
  unfold handedOver
  generalize (qs.filter fun q => q.2.slot true = some n) = qs at h
  induction h with
  | nil => rfl
  | @cons p q packets qs hbrings _ ih =>
    obtain ⟨hclock, raw, hraw, idx, hcall⟩ := hbrings
    have hsome : q.2.packet = some raw := hraw
    have hc := packetCall_unbuffered hcall
    rw [List.map_cons, ← ih, List.filterMap_cons_some (b := (p.1, p.2.unbuffered))]
    rw [hsome, Option.bind_some, hc, Option.map_some, ← show p.1 = q.1.clock from hclock]

section unbuffered

variable (calls : List (Clock × Call))

theorem pushed_unbuffered :
    Slot.pushed (calls.map fun c => (c.1, c.2.unbuffered)) = Slot.pushed calls := by
  unfold Slot.pushed
  rw [List.filterMap_map]
  refine List.filterMap_congr fun c _ => ?_
  rcases c with ⟨clock, a | a | _⟩ <;> rfl

theorem codePositions_unbuffered (i : ℕ) :
    Slot.codePositions (calls.map fun c => (c.1, c.2.unbuffered)) i =
      Slot.codePositions calls i := by
  unfold Slot.codePositions
  rw [List.filterMap_map]
  refine List.filterMap_congr fun c _ => ?_
  rcases c with ⟨clock, a | a | _⟩ <;> rfl

theorem codeSets_unbuffered :
    Slot.codeSets (calls.map fun c => (c.1, c.2.unbuffered)) = Slot.codeSets calls := by
  unfold Slot.codeSets
  rw [List.filterMap_map]
  refine List.filterMap_congr fun c _ => ?_
  rcases c with ⟨clock, a | a | _⟩ <;> rfl

theorem dataFirst_unbuffered :
    Slot.DataFirst (calls.map fun c => (c.1, c.2.unbuffered)) ↔ Slot.DataFirst calls := by
  unfold Slot.DataFirst
  rw [List.pairwise_map]
  refine iff_of_eq (congrArg (List.Pairwise · calls) ?_)
  funext ⟨clock, c⟩ ⟨clock', c'⟩
  cases c <;> cases c' <;> rfl

variable {C : Type} {env : Env C} {parity : ℕ → ℕ → List Bytes → List Bytes}

theorem available_unbuffered (S : Slot env.wincode) (sets : FecSets env.reedSolomon parity)
    (i : ℕ) :
    Slot.Available S sets (calls.map fun c => (c.1, c.2.unbuffered)) i ↔
      Slot.Available S sets calls i := by
  simp only [Slot.Available, Slot.MadeUpFor, Slot.dataPositions, pushed_unbuffered,
    codePositions_unbuffered]

end unbuffered

namespace Slot

variable {C : Type} {env : Env C} {parity : ℕ → ℕ → List Bytes → List Bytes}
  {S : Slot env.wincode} {sets : FecSets env.reedSolomon parity} {cfg : AccumulatorConfig}
  {pre calls : List (Clock × Call)} {c : Clock × Call} {k m : ℕ} {acc : SlotAccumulator}
  {out : List VersionedTransaction} {s : CallState C} {fuel : ℕ}

/-! ## The slot alone -/

/-- Another call may find no codec cached, and the buffers given back. -/
theorem Between.forget (h : Between S sets k s) :
    Between S sets k (⟨{ s.acc with dropped := [] }, {}, s.out⟩ : CallState C) where
  toTracks := { h.toTracks with }
  fromSets := ⟨h.fromSets.recorded, h.fromSets.data, h.fromSets.boundary⟩
  cache := ReedSolomonCache.valid_empty env.reedSolomon
  streamed_mem := h.streamed_mem
  consistent := { h.consistent with }
  clear := h.clear
  parsed := ⟨h.parsed.pending, h.parsed.fecSets⟩

/-- What holds between two packets of the slot, after the packets `pre`; `out` was
    returned for them. -/
structure Serving (S : Slot env.wincode) (sets : FecSets env.reedSolomon parity)
    (cfg : AccumulatorConfig) (pre : List (Clock × Call)) (k : ℕ) (acc : SlotAccumulator)
    (out : List VersionedTransaction) : Prop where
  between : Between S sets k (⟨acc, {}, out⟩ : CallState C)
  inOrder : S.InOrder k acc out
  retains : Retains S sets pre acc
  exhausted : Exhausted sets pre acc
  keeps : Keeps cfg pre acc

theorem serving_withConfig (S : Slot env.wincode) (sets : FecSets env.reedSolomon parity)
    (cfg : AccumulatorConfig) : Serving S sets cfg [] 0 (withConfig cfg) [] where
  between := between_fresh cfg (ReedSolomonCache.valid_empty env.reedSolomon)
  inOrder := S.inOrder_withConfig cfg
  retains := retains_fresh S sets cfg
  exhausted := .fresh sets cfg
  keeps := ⟨rfl, fun i hi => by simp [withConfig] at hi, rfl⟩

/-- An honest packet that comes in time, not behind a code shred of its set, and there
    are no more sets than may be recorded. -/
structure Admits (S : Slot env.wincode) (sets : FecSets env.reedSolomon parity)
    (cfg : AccumulatorConfig) (pre : List (Clock × Call)) (c : Clock × Call) : Prop where
  sends : Sends S sets c.2
  owned : Owned sets c.2
  timely : ∀ b t, c.1.elapsed b t < cfg.stuckBatchTimeout
  first : ∀ a, c.2 = .data a → a.fecSetIndex ∉ codeSets pre
  few : (codeSets (pre ++ [c])).dedup.length ≤ cfg.maxFecSetsPerSlot

/-- What such a packet leads to. -/
theorem Serving.call (h : Serving S sets cfg pre k acc out) (hc : Admits S sets cfg pre c)
    (hw : env.wincode.Lawful) (hp : Protects S sets) (hdiv : Divides S sets)
    (hrs : env.reedSolomon.Rebuilds parity) (hfuel : 2 ^ 32 < fuel) :
    ∃ r, acc.call env c.1 fuel {} c.2 = some r ∧
      ∃ j, Serving S sets cfg (pre ++ [c]) j { r.acc with dropped := [] } (out ++ r.out) := by
  have hb := h.between
  have hs : SetState sets (⟨acc, {}, []⟩ : CallState C) := hb.toSetState
  have hone : OneAtATime env c.1 fuel S acc {} c.2 :=
    h.exhausted.oneAtATime hp hrs hs hb.parsed hb.consistent hc.sends.sent hc.first
  obtain ⟨r, hr, -, j, hnext, hin⟩ := hb.call_inOrder h.inOrder hw hp hrs hc.sends
    (by rw [h.keeps.cfg_eq]; exact hc.timely) hfuel hone
  have hr' : acc.call env c.1 fuel {} c.2 = some r := hr
  have hkeeps := h.keeps.call hb.parsed hc.sends.sent.parsed hc.few hr'
  have hretains := Retains.call (fun _ => h.retains) hp hdiv hrs hs hb.parsed hb.consistent
    hc.sends hc.owned hr' hkeeps.evictedEarly
  have hexhausted := h.exhausted.call hrs hs hb.parsed hb.consistent hc.sends.sent hc.first hr'
  exact ⟨r, hr', j, hnext.forget, hin, ⟨hretains.data, hretains.owned, hretains.code⟩,
    ⟨hexhausted.filled, hexhausted.sent⟩, ⟨hkeeps.cfg_eq, hkeeps.sent, hkeeps.evictedEarly⟩⟩

/-- What the packets of the slot alone lead to. -/
theorem slotRun_serves (hw : env.wincode.Lawful) (hp : Protects S sets) (hdiv : Divides S sets)
    (hrs : env.reedSolomon.Rebuilds parity) (hfuel : 2 ^ 32 < fuel)
    (hcalls : ∀ pre c post, calls = pre ++ c :: post → Admits S sets cfg pre c) :
    ∃ acc outs, run (slotStep env fuel cfg) none (calls.map fun c => .packet c.1 c.2) =
        some (acc, outs) ∧
      outs.filterMap SlotOutput.tail? = [] ∧
      ∃ k, Serving S sets cfg calls k (acc.getD (withConfig cfg)) (txsOf outs) := by
  induction calls using List.reverseRecOn with
  | nil => exact ⟨none, [], rfl, rfl, 0, serving_withConfig S sets cfg⟩
  | append_singleton calls c ih =>
    obtain ⟨acc, outs, hrun, htails, k, hserving⟩ := ih fun pre c' post hsplit =>
      hcalls pre c' (post ++ [c]) (by rw [hsplit, List.append_assoc, List.cons_append])
    obtain ⟨r, hr, j, hnext⟩ := hserving.call (hcalls calls c [] rfl) hw hp hdiv hrs hfuel
    have hstep : slotStep env fuel cfg acc (.packet c.1 c.2) =
        some (some { r.acc with dropped := [] }, SlotOutput.ofTxs .batch r.out) := by
      simp only [slotStep, hr, Option.bind_eq_bind, Option.bind_some]
      rfl
    refine ⟨some { r.acc with dropped := [] }, outs ++ SlotOutput.ofTxs .batch r.out, ?_, ?_, j, ?_⟩
    · rw [List.map_append, List.map_singleton]
      exact run_append hrun ((run_singleton _ _).trans hstep)
    · rw [List.filterMap_append, htails, List.nil_append, SlotOutput.ofTxs]
      split_ifs <;> rfl
    · rw [txsOf_append, txsOf_ofTxs]
      exact hnext

theorem admits_of_dataFirst (hcalls : ∀ c ∈ calls, Sends S sets c.2 ∧ Owned sets c.2 ∧
      ∀ b t, c.1.elapsed b t < cfg.stuckBatchTimeout) (hfirst : DataFirst calls)
    (hfew : (codeSets calls).dedup.length ≤ cfg.maxFecSetsPerSlot) {post : List (Clock × Call)}
    (hsplit : calls = pre ++ c :: post) : Admits S sets cfg pre c := by
  rw [hsplit] at hcalls hfirst hfew
  obtain ⟨hsends, howned, htime⟩ := hcalls c (List.mem_append_right _ List.mem_cons_self)
  refine ⟨hsends, howned, htime, fun a ha => hfirst.not_mem ha, le_trans ?_ hfew⟩
  have hle := dedup_codeSets_le (pre ++ [c]) post
  rwa [List.append_assoc, List.singleton_append] at hle

/-- A slot that sees no packet and loses its accumulator is harvested once. -/
theorem slotRun_retired {es : List SlotEvent} {outs : List SlotOutput}
    (hes : es.filterMap SlotEvent.packet? = [])
    (h : run (slotStep env fuel cfg) (some acc) es = some (none, outs)) :
    ∃ clock r, acc.tryHarvestTail env clock fuel {} = some r ∧
      outs = SlotOutput.ofTxs .tail r.out := by
  have hgone (es : List SlotEvent) (hes : es.filterMap SlotEvent.packet? = []) :
      run (slotStep env fuel cfg) none es = some (none, []) := by
    induction es with
    | nil => rfl
    | cons e es ih =>
      cases e with
      | packet clock c => cases hes
      | retire clock =>
        rw [run_cons rfl, ih hes]
        rfl
  cases es with
  | nil => cases h
  | cons e es =>
    cases e with
    | packet clock c => cases hes
    | retire clock =>
      cases hr : acc.tryHarvestTail env clock fuel {} with
      | none => simp [run, slotStep, hr] at h
      | some r =>
        have hstep : slotStep env fuel cfg (some acc) (.retire clock) =
            some (none, SlotOutput.ofTxs .tail r.out) := by
          simp only [slotStep, hr, Option.bind_eq_bind, Option.bind_some]
          rfl
        rw [run_cons hstep, hgone es hes] at h
        cases h
        exact ⟨clock, r, hr, by simp⟩

/-! ## Honest packets -/

/-- A packet of one of the sets, or a data packet of the slot that none of them covers. -/
inductive Honest (S : Slot env.wincode) (sets : FecSets env.reedSolomon parity) : Bytes → Prop
  | data {F : FecSet parity} {p : ℕ} : sets.set F.fecSetIndex = some F → p < F.numData →
      Honest S sets (F.data p)
  | code {F : FecSet parity} {q : ℕ} : sets.set F.fecSetIndex = some F → q < F.numCoding →
      Honest S sets (F.code q)
  | other {raw : Bytes} {d : DataShred} : parseKind raw = .ok (.data d) → S.Carries d →
      sets.set d.fecSetIndex = none →
      (∀ F, sets.set F.fecSetIndex = some F → ¬F.Covers d.index) → Honest S sets raw

theorem packetCall_data (F : FecSet parity) {p : ℕ} (hp : p < F.numData) (idx : ℕ) :
    packetCall ⟨idx, F.data p⟩ = some (F.slot, .data (F.dataArgs idx p)) := by
  unfold packetCall
  rw [F.data_parse p hp, ← F.data_slot p hp]
  rfl

theorem Honest.sends {raw : Bytes} (h : Honest S sets raw) (hp : Protects S sets)
    (hdiv : Divides S sets) (hlen : raw.length ≤ bufSize) {idx n : ℕ} {c : Call}
    (hcall : packetCall ⟨idx, raw⟩ = some (n, c)) : Sends S sets c ∧ Owned sets c := by
  cases h with
  | @data F p hF hlt =>
    rw [packetCall_data F hlt idx] at hcall
    cases hcall
    refine ⟨hp.sends_data hF hlt idx, ?_⟩
    rintro a ⟨⟩ F' hF' hcovers
    have hidx : (F.dataArgs idx p).index = F.fecSetIndex + p := F.data_index p hlt
    have hset : (F.dataArgs idx p).fecSetIndex = F.fecSetIndex := F.data_fecSetIndex p hlt
    rw [hset]
    refine hdiv.apart F F' hF hF' _ ?_ hcovers
    rw [hidx]
    exact ⟨by omega, by omega⟩
  | @code F q hF hlt =>
    rw [ShredListener.packetCall_code F hlt idx] at hcall
    cases hcall
    exact ⟨sends_code hF hlt, by rintro a ⟨⟩⟩
  | @other raw d hparse hcarries hnone hfree =>
    have hdata : packetCall ⟨idx, raw⟩ = some (d.slot, .data (d.args ⟨idx, raw⟩)) := by
      unfold packetCall
      rw [hparse]
    rw [hdata] at hcall
    cases hcall
    have hgen : S.Genuine (d.args ⟨idx, raw⟩) := hcarries.genuine hparse hlen
    refine ⟨⟨.other hnone (DataShred.holds_args hparse hlen) (index_le_of_parseKind hparse), ?_⟩,
      ?_⟩
    · rintro a ⟨⟩
      exact hgen
    · rintro a ⟨⟩ F hF hcovers
      exact absurd hcovers (hfree F hF)

end Slot

namespace ShredListener

variable {C : Type} {env : Env C} {fuel : ℕ} {l₁ l₂ : ShredListener C} {n m : ℕ}
  {parity : ℕ → ℕ → List Bytes → List Bytes}

/-! ## The slot on the listener -/

theorem batches_tail (txs : List VersionedTransaction) :
    (SlotOutput.ofTxs .tail txs).filterMap SlotOutput.batch? = [] := by
  unfold SlotOutput.ofTxs
  split_ifs <;> rfl

theorem tails_tail (txs : List VersionedTransaction) :
    ((SlotOutput.ofTxs .tail txs).filterMap SlotOutput.tail?).flatten = txs := by
  unfold SlotOutput.ofTxs
  by_cases h : txs = [] <;> simp [h, SlotOutput.tail?]

/-- A packet that is handed over is one of the slot. -/
theorem packetSlot_of_packetCall {handle : BufferHandle} {c : Call}
    (h : packetCall handle = some (n, c)) : packetSlot true handle.bytes = some n := by
  unfold packetCall at h
  unfold packetSlot
  split at h <;> simp_all

/-- Of a slot of which no packet arrives, nothing is handed over. -/
theorem project_of_silent {es : List (ℕ × SlotEvent)} {qs : List (Surroundings × Request)}
    (hsub : List.SublistForall₂ Brings (collect SlotEvent.packet? es) qs)
    (hqs : ∀ q ∈ qs, q.2.slot true ≠ some n) :
    (project n es).filterMap SlotEvent.packet? = [] := by
  rw [← project_collect, List.eq_nil_iff_forall_not_mem]
  intro p hp
  obtain ⟨q, hq, -, raw, hraw, idx, hcall⟩ := exists_brings hsub (mem_project.mp hp)
  apply hqs q hq
  have hsome : q.2.packet = some raw := hraw
  unfold Request.slot
  rw [hsome, Option.bind_some]
  exact packetSlot_of_packetCall hcall

/-- What is handed over of the slot is honest and in time if its packets are. -/
theorem sends_of_brings {S : Slot env.wincode} {sets : FecSets env.reedSolomon parity}
    (hp : S.Protects sets) (hdiv : S.Divides sets) {timeout : ℕ} {packets : List (Clock × Call)}
    {qs : List (Surroundings × Request)}
    (h : List.Forall₂ (fun p q => Brings (n, p) q) packets
      (qs.filter fun q => q.2.slot true = some n))
    (hqs : ∀ q ∈ qs, ∀ raw ∈ q.2.packet, packetSlot true raw = some n →
      S.Honest sets raw ∧ ∀ b t, q.1.clock.elapsed b t < timeout) :
    ∀ c ∈ packets, S.Sends sets c.2 ∧ Slot.Owned sets c.2 ∧ ∀ b t, c.1.elapsed b t < timeout := by
  have hqs' : ∀ q ∈ qs.filter fun q => q.2.slot true = some n, q ∈ qs :=
    fun q hq => (List.mem_filter.mp hq).1
  generalize (qs.filter fun q => q.2.slot true = some n) = qs' at h hqs'
  induction h with
  | nil => exact fun c hc => by cases hc
  | @cons p q packets qs' hbrings _ ih =>
    rw [List.forall_mem_cons] at hqs'
    refine List.forall_mem_cons.mpr ⟨?_, ih hqs'.2⟩
    obtain ⟨hclock, raw, hraw, idx, hcall⟩ := hbrings
    obtain ⟨hhonest, htime⟩ := hqs q hqs'.1 raw hraw (packetSlot_of_packetCall hcall)
    obtain ⟨hsends, howned⟩ := hhonest.sends hp hdiv (length_packet hraw) hcall
    refine ⟨hsends, howned, fun b t => ?_⟩
    rw [show p.1 = q.1.clock from hclock]
    exact htime b t

/-- A slot that is protected by FEC sets is delivered in full in spite of losses. While
    it is live, the listener handles its packets among any others; then it is retired.
    If every data shred of the first `m` batches arrived or is made up for, what is
    returned for the slot and what is queued for it are together the ledger of these
    batches, and something behind it. The shreds of a set come in front of its code
    shreds, there are no more sets than may be recorded, and no batch counts as
    stuck. -/
theorem protected_slot_delivered (hw : env.wincode.Lawful) (hrs : env.reedSolomon.Rebuilds parity)
    (hfuel : 2 ^ 32 < fuel) (opts : ListenerOptions) (hfec : opts.enableFec = true)
    (hsalvage : opts.disableSalvageDelivery = false) {S : Slot env.wincode}
    {sets : FecSets env.reedSolomon parity} (hp : S.Protects sets) (hdiv : S.Divides sets)
    {qs₁ qs₂ : List (Surroundings × Request)} {replies₁ replies₂ : List Reply}
    (h₁ : runRequests env fuel (fromSocket opts) qs₁ = some (l₁, replies₁))
    (h₂ : runRequests env fuel l₁ qs₂ = some (l₂, replies₂))
    (hqs₁ : ∀ q ∈ qs₁, ∀ raw ∈ q.2.packet, packetSlot true raw = some n →
      S.Honest sets raw ∧ ∀ b t, q.1.clock.elapsed b t < opts.accumulator.stuckBatchTimeout)
    (htakes : Throughout env fuel (Takes n) (fromSocket opts) qs₁)
    (hlive : n ∈ l₁.slots) (hnever : n ∉ l₁.retired.map Prod.fst)
    (hqs₂ : ∀ q ∈ qs₂, q.2.slot true ≠ some n) (hgone : n ∉ l₂.slots)
    (hfirst : Slot.DataFirst (handedOver n qs₁))
    (hfew : (Slot.codeSets (handedOver n qs₁)).dedup.length ≤ opts.accumulator.maxFecSetsPerSlot)
    (hm : m ≤ S.batches)
    (havail : ∀ i < S.start m, S.Stored i ∧ S.Available sets (handedOver n qs₁) i) :
    S.txsBefore m <+:
      (project n ((replies₁ ++ replies₂).filterMap Reply.returned)).flatten ++
        (project n ((replies₁ ++ replies₂).filterMap Reply.fromQueue ++
          l₂.pendingBatches)).flatten := by
  obtain ⟨es₁, outs₁, he₁, hown₁, -, hall⟩ :=
    runRequests_emulates (ReedSolomonCache.valid_empty env.reedSolomon) h₁
  obtain ⟨es₂, outs₂, he₂, hown₂, hsub, -⟩ := runRequests_emulates he₁.cache h₂
  -- while the slot is live
  have hbrings := hall n htakes
  have hon : (fromSocket opts : ShredListener C).enableFec = true := hfec
  rw [hon] at hbrings
  have hhanded := handedOver_eq hbrings
  rw [hhanded, dataFirst_unbuffered] at hfirst
  rw [hhanded, codeSets_unbuffered] at hfew
  simp only [hhanded, available_unbuffered] at havail
  have hadmits : ∀ pre c post, project n (collect SlotEvent.packet? es₁) = pre ++ c :: post →
      Slot.Admits S sets opts.accumulator pre c := fun pre c post hsplit =>
    Slot.admits_of_dataFirst (sends_of_brings hp hdiv hbrings hqs₁) hfirst hfew hsplit
  obtain ⟨acc, outs, hrun, htails, k, hserving⟩ := Slot.slotRun_serves hw hp hdiv hrs hfuel hadmits
  have hrun₁ := run_project he₁.run n
  rw [show (fromSocket opts : ShredListener C).live n = none by simp [live, fromSocket],
    packets_of_live fun clock hmem => hnever (he₁.retired n (.inr ⟨clock, hmem⟩))] at hrun₁
  obtain ⟨hacc, houts⟩ := Prod.mk.inj (Option.some.inj (hrun.symm.trans hrun₁))
  -- when it is retired
  have hrun₂ := run_project he₂.run n
  obtain ⟨acc', hacc'⟩ := l₁.slots.mem_iff_getElem?.mp hlive
  have hnone : l₂.live n = none := Std.ExtTreeMap.getElem?_eq_none hgone
  rw [show l₁.live n = some acc' from hacc', hnone] at hrun₂
  obtain ⟨clock, r, hr, houts₂⟩ := Slot.slotRun_retired (project_of_silent hsub hqs₂) hrun₂
  rw [hacc, show l₁.live n = some acc' from hacc', Option.getD_some] at hserving
  obtain ⟨r', hr', hprefix⟩ := hserving.between.harvest hserving.inOrder hserving.retains hw hp hdiv
    hrs hm havail clock hfuel
  cases hr.symm.trans hr'
  -- what the calls returned and what was queued
  have hreturned : (project n ((replies₁ ++ replies₂).filterMap Reply.returned)).flatten =
      txsOf outs := by
    rw [List.filterMap_append, ← hown₁, ← hown₂, project_append, project_collect, project_collect,
      ← houts, houts₂, batches_tail, List.append_nil]
    rfl
  have hqueued : (project n ((replies₁ ++ replies₂).filterMap Reply.fromQueue ++
      l₂.pendingBatches)).flatten = r.out := by
    rw [List.filterMap_append, (he₁.trans he₂).queue, project_append, delivered_append,
      project_append]
    have hdelivered (outs : List (ℕ × SlotOutput)) :
        project n ((fromSocket opts : ShredListener C).delivered outs) =
          (project n outs).filterMap SlotOutput.tail? := by
      rw [← project_collect, delivered]
      exact congrArg (project n) (if_neg (by simp [fromSocket, hsalvage]))
    rw [hdelivered, hdelivered, ← houts, htails, houts₂]
    exact tails_tail r.out
  rw [hreturned, hqueued]
  exact hprefix

open Slot in
/-- The second shred of the first of two batches is lost, and a packet of another slot
    comes in between. A packet of a much later slot retires the slot. -/
theorem protected_slot_delivered_twoBatches :
    let packet (raw : Bytes) : Surroundings × Request := (quiet, .handlePacket raw)
    let qs₁ := [packet (thirdShred.data 0), packet (firstSet.data 0),
      packet (legacyPacket 1 0 0x40 [9]), packet (firstSet.code 0), packet (fourthShred.data 0)]
    ∃ l₁ l₂ replies₁ replies₂,
      runRequests FecSet.pairEnv (2 ^ 32 + 1) (fromSocket {}) qs₁ = some (l₁, replies₁) ∧
      runRequests FecSet.pairEnv (2 ^ 32 + 1) l₁ [packet (legacyPacket 9 0 0 [1])] =
        some (l₂, replies₂) ∧
      twoBatches.txsBefore 2 <+:
        (project 0 ((replies₁ ++ replies₂).filterMap Reply.returned)).flatten ++
          (project 0 ((replies₁ ++ replies₂).filterMap Reply.fromQueue ++
            l₂.pendingBatches)).flatten := by
  intro packet qs₁
  have hruns : ((runRequests FecSet.pairEnv (2 ^ 32 + 1) (fromSocket {}) qs₁).bind fun r₁ =>
      (runRequests FecSet.pairEnv (2 ^ 32 + 1) r₁.1 [packet (legacyPacket 9 0 0 [1])]).map fun r₂ =>
        (decide (0 ∈ r₁.1.slots), decide (0 ∈ r₁.1.retired.map Prod.fst),
          decide (0 ∈ r₂.1.slots))) =
      some (true, false, false) := by decide +kernel
  obtain ⟨⟨l₁, replies₁⟩, h₁, hruns⟩ := Option.bind_eq_some_iff.mp hruns
  obtain ⟨⟨l₂, replies₂⟩, h₂, hslots⟩ := Option.map_eq_some_iff.mp hruns
  obtain ⟨hlive, hslots⟩ := Prod.mk.inj hslots
  obtain ⟨hnever, hgone⟩ := Prod.mk.inj hslots
  have htakes : Throughout FecSet.pairEnv (2 ^ 32 + 1) (Takes 0) (fromSocket {}) qs₁ := by
    decide +kernel
  have hfirst : DataFirst (handedOver 0 qs₁) := by decide +kernel
  have hfew : (codeSets (handedOver 0 qs₁)).dedup.length ≤
      ({} : AccumulatorConfig).maxFecSetsPerSlot := by decide +kernel
  have hpushed : ∀ i < 4, twoBatches.Stored i ∧ (i ≠ 1 → i ∈ pushed (handedOver 0 qs₁)) := by
    decide +kernel
  have hmade : MadeUpFor twoBatches firstSet (handedOver 0 qs₁) := by decide +kernel
  have havail : ∀ i < twoBatches.start 2, twoBatches.Stored i ∧
      Available twoBatches firstSets (handedOver 0 qs₁) i := by
    intro i hi
    refine ⟨(hpushed i hi).1, ?_⟩
    by_cases hlost : i = 1
    · exact .inr ⟨firstSet, rfl, by rw [hlost]; decide, hmade⟩
    · exact .inl ((hpushed i hi).2 hlost)
  have hhonest : ∀ q ∈ qs₁, ∀ raw ∈ q.2.packet, packetSlot true raw = some 0 →
      Honest twoBatches firstSets raw := by
    have hcovers (i : ℕ) (hi : 2 ≤ i) (F : FecSet pairParity)
        (hF : firstSets.set F.fecSetIndex = some F) : ¬F.Covers i := by
      rw [← firstSets_eq hF]
      rintro ⟨-, hlt⟩
      exact absurd hi (not_le.mpr hlt)
    have hbytes (bytes : Bytes) (hlen : bytes.length ≤ bufSize) (raw : Bytes)
        (hraw : raw ∈ (packet bytes).2.packet) : bytes = raw :=
      (List.take_of_length_le hlen).symm.trans (Option.some.inj hraw)
    intro q hq raw hraw hslot
    simp only [qs₁, List.mem_cons, List.not_mem_nil, or_false] at hq
    rcases hq with rfl | rfl | rfl | rfl | rfl
    · rw [← hbytes _ (by decide +kernel) raw hraw]
      exact .other (thirdShred.data_parse 0 Nat.one_pos) (by decide +kernel) rfl (hcovers 2 le_rfl)
    · rw [← hbytes _ (by decide +kernel) raw hraw]
      exact .data rfl (show 0 < 2 by decide)
    · rw [← hbytes _ (by decide +kernel) raw hraw] at hslot
      exact absurd hslot (by decide +kernel)
    · rw [← hbytes _ (by decide +kernel) raw hraw]
      exact .code rfl Nat.one_pos
    · rw [← hbytes _ (by decide +kernel) raw hraw]
      exact .other (fourthShred.data_parse 0 Nat.one_pos) (by decide +kernel) rfl
        (hcovers 3 (by decide))
  have hclock : ∀ q ∈ qs₁, q.1 = quiet := by
    simp [qs₁, packet]
  exact ⟨l₁, l₂, replies₁, replies₂, h₁, h₂, protected_slot_delivered LegacyWire.wincode_lawful
    pairCrate_rebuilds (by decide) {} rfl rfl protects_twoBatches divides_twoBatches h₁ h₂
    (fun q hq raw hraw hslot => ⟨hhonest q hq raw hraw hslot, fun b t => by
      rw [hclock q hq]
      show 0 < 50000000
      omega⟩) htakes (of_decide_eq_true hlive) (of_decide_eq_false hnever) (by decide +kernel)
    (of_decide_eq_false hgone) hfirst hfew le_rfl havail⟩

end ShredListener

end ShredStream
