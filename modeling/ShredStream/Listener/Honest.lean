import ShredStream.Listener.Isolation
import ShredStream.Slot.LedgerOrder

/-!
# An honest slot on a listener

A slot whose packets are those its leader made is delivered in ledger order by a
listener that handles any other packets in between. Its accumulator is the slot
alone (`runRequests_emulates`), and the slot alone keeps to the ledger
(`slotRun_follows`).

* `honest_slot_in_order`: what is returned for the slot is its ledger, up to a
  beginning of the first batch of which a shred is missing.
-/

namespace ShredStream

open SlotAccumulator Keyed

/-- The data shred in a packet. -/
def dataShred (raw : Bytes) : Option DataShred :=
  match parseKind raw with
  | .ok (.data d) => some d
  | _ => none

theorem dataShred_eq_some {raw : Bytes} {d : DataShred} :
    dataShred raw = some d ↔ parseKind raw = .ok (.data d) := by
  unfold dataShred
  split <;> simp_all

/-- The indices of the data packets of slot `n`, in the order of their arrival. -/
def arrivedIndices (enableFec : Bool) (n : ℕ) (qs : List (Surroundings × Request)) : List ℕ :=
  (qs.filter fun q => q.2.slot enableFec = some n).filterMap fun q =>
    (q.2.packet.bind dataShred).map DataShred.index

/-- The transactions of the batches in a list. -/
def txsOf (outs : List SlotOutput) : List VersionedTransaction :=
  (outs.filterMap SlotOutput.batch?).flatten

theorem txsOf_append (outs outs' : List SlotOutput) :
    txsOf (outs ++ outs') = txsOf outs ++ txsOf outs' := by
  simp [txsOf]

theorem txsOf_ofTxs (txs : List VersionedTransaction) :
    txsOf (SlotOutput.ofTxs .batch txs) = txs := by
  unfold SlotOutput.ofTxs
  by_cases h : txs = [] <;> simp [h, txsOf, SlotOutput.batch?]

namespace Slot

variable {C : Type} {env : Env C} {fuel : ℕ}

/-- A data shred of the slot, as the parser finds it. -/
def Carries {w : Wincode} (S : Slot w) (d : DataShred) : Prop :=
  d.index < S.shreds ∧ d.payload = S.payload d.index ∧
    (d.batchComplete = true ↔ S.EndsBatch d.index) ∧ (d.lastInSlot = true ↔ S.IsLast d.index)

instance {w : Wincode} (S : Slot w) (d : DataShred) : Decidable (S.Carries d) :=
  inferInstanceAs (Decidable (_ ∧ _))

/-- If a call brings a packet for slot `n`, it is a data shred of `S`, and no batch
    counts as stuck. -/
def Undisturbed {w : Wincode} (S : Slot w) (cfg : AccumulatorConfig) (enableFec : Bool) (n : ℕ)
    (q : Surroundings × Request) : Prop :=
  ∀ raw ∈ q.2.packet, packetSlot enableFec raw = some n →
    (∃ d ∈ dataShred raw, S.Carries d) ∧
      ∀ b t, q.1.clock.elapsed b t < cfg.stuckBatchTimeout

theorem Carries.genuine {w : Wincode} {S : Slot w} {handle : BufferHandle} {d : DataShred}
    (h : S.Carries d) (hparse : parseKind handle.bytes = .ok (.data d))
    (hlen : handle.bytes.length ≤ bufSize) : S.Genuine (d.args handle) where
  index_lt := h.1
  payload := by
    rw [(DataShred.holds_args hparse hlen).payload_eq, h.2.1]
    rfl
  batchComplete := h.2.2.1
  lastInSlot := h.2.2.2

/-- What is handed to the slot is pushed, in the order of arrival. -/
theorem pushes_of_brings {S : Slot env.wincode} {cfg : AccumulatorConfig} {enableFec : Bool} {n : ℕ}
    {packets : List (Clock × Call)} {qs : List (Surroundings × Request)}
    (h : List.Forall₂ (fun p q => Brings (n, p) q) packets qs)
    (hqs : ∀ q ∈ qs, q.2.slot enableFec = some n ∧ S.Undisturbed cfg enableFec n q) :
    (∀ c ∈ packets, S.Pushes cfg c) ∧
      pushed packets = qs.filterMap fun q => (q.2.packet.bind dataShred).map DataShred.index := by
  induction h with
  | nil => simp [pushed]
  | @cons p q packets qs hbrings _ ih =>
    rw [List.forall_mem_cons] at hqs
    obtain ⟨⟨hslot, hundisturbed⟩, hqs⟩ := hqs
    obtain ⟨hpushes, hpushed⟩ := ih hqs
    obtain ⟨hclock, raw, hraw, idx, hcall⟩ := hbrings
    have hsome : q.2.packet = some raw := hraw
    unfold Request.slot at hslot
    rw [hsome, Option.bind_some] at hslot
    obtain ⟨⟨d, hdata, hcarries⟩, htime⟩ := hundisturbed raw hraw hslot
    have hparse := dataShred_eq_some.mp hdata
    have hlen : raw.length ≤ bufSize := length_packet hsome
    have hc : p.2 = .data (d.args ⟨idx, raw⟩) := by
      have hcall' : some (d.slot, Call.data (d.args ⟨idx, raw⟩)) = some (n, p.2) := by
        rw [← hcall]
        simp [packetCall, hparse]
      exact (Prod.mk.inj (Option.some.inj hcall')).2.symm
    have hp : S.Pushes cfg p := by
      refine ⟨⟨_, hc, hcarries.genuine hparse hlen⟩, fun b t => ?_⟩
      rw [show p.1 = q.1.clock from hclock]
      exact htime b t
    refine ⟨List.forall_mem_cons.mpr ⟨hp, hpushes⟩, ?_⟩
    rw [show p :: packets = [p] ++ packets from rfl, pushed_append, pushed_data p hc, hpushed]
    simp [hsome, dataShred, hparse, DataShred.args]

/-- The slot alone keeps to the ledger. -/
theorem slotRun_follows (hw : env.wincode.Lawful) (hfuel : 2 ^ 32 < fuel) (S : Slot env.wincode)
    (cfg : AccumulatorConfig) {packets : List (Clock × Call)}
    (hpackets : ∀ c ∈ packets, S.Pushes cfg c) :
    ∃ acc outs, run (slotStep env fuel cfg) none (packets.map fun c => .packet c.1 c.2) =
        some (acc, outs) ∧
      ∃ k, S.Follows cfg (· ∈ pushed packets) k (acc.getD (withConfig cfg)) (txsOf outs) ∧
        S.Waiting k (acc.getD (withConfig cfg)) := by
  induction packets using List.reverseRecOn with
  | nil =>
    refine ⟨none, [], rfl, 0, ?_, S.waiting_withConfig cfg⟩
    simpa [pushed, txsOf] using S.follows_withConfig cfg
  | append_singleton packets c ih =>
    rw [List.forall_mem_append] at hpackets
    obtain ⟨acc, outs, hrun, k, hfollows, hwait⟩ := ih hpackets.1
    obtain ⟨⟨a, hc, ha⟩, htime⟩ := hpackets.2 c (List.mem_singleton.mpr rfl)
    obtain ⟨r, hr, j, -, hnext, hwait', -⟩ := hfollows.pushData hw hwait ha c.1 htime hfuel {}
    have hstep : slotStep env fuel cfg acc (.packet c.1 c.2) =
        some (some { r.acc with dropped := [] }, SlotOutput.ofTxs .batch r.out) := by
      simp only [slotStep, hc, call, hr, Option.bind_eq_bind, Option.bind_some]
      rfl
    have hD : (· ∈ pushed (packets ++ [c])) = fun i => i ∈ pushed packets ∨ i = a.index := by
      funext i
      simp [pushed_append, pushed_data c hc]
    refine ⟨some { r.acc with dropped := [] }, outs ++ SlotOutput.ofTxs .batch r.out, ?_, j, ?_,
      hwait'⟩
    · rw [List.map_append, List.map_singleton]
      exact run_append hrun ((run_singleton _ _).trans hstep)
    · rw [hD, txsOf_append, txsOf_ofTxs]
      exact { hnext with }

/-- Behind the complete batches there is a beginning of the next one. -/
theorem Follows.ledger {S : Slot env.wincode} {cfg : AccumulatorConfig} {D : ℕ → Prop} {k : ℕ}
    {acc : SlotAccumulator} {out : List VersionedTransaction} (hw : env.wincode.Lawful)
    (h : S.Follows cfg D k acc out) : ∃ p, p <+: S.txs k ∧ out = S.txsBefore k ++ p := by
  refine ⟨S.streamed k acc.streamingCursor, ?_, h.out_eq⟩
  rcases Nat.lt_or_eq_of_le h.k_le with hlt | heq
  · exact S.streamed_isPrefix hw hlt _
  · -- behind the last batch nothing can be streamed
    have hcur : acc.streamingCursor = S.start k := by
      have h1 := h.cursor_ge
      have h2 := h.cursor_le
      rw [heq, S.stop_batches] at h2
      rw [heq] at h1 ⊢
      omega
    rw [hcur, streamed_start]
    exact List.nil_prefix

end Slot

namespace ShredListener

variable {C : Type} {env : Env C} {fuel : ℕ} {l : ShredListener C}

/-- A slot that is not retired saw packets only. -/
theorem packets_of_live {es : List (ℕ × SlotEvent)} {n : ℕ}
    (h : ∀ clock, (n, SlotEvent.retire clock) ∉ es) :
    project n es =
      (project n (collect SlotEvent.packet? es)).map fun p => .packet p.1 p.2 := by
  rw [project_collect]
  have hall : ∀ e ∈ project n es, ∃ p : Clock × Call, e = .packet p.1 p.2 := by
    intro e he
    cases e with
    | packet clock c => exact ⟨(clock, c), rfl⟩
    | retire clock => exact absurd (mem_project.mp he) (h clock)
  generalize project n es = events at hall
  induction events with
  | nil => rfl
  | cons e events ih =>
    rw [List.forall_mem_cons] at hall
    obtain ⟨⟨p, rfl⟩, hall⟩ := hall
    show _ = SlotEvent.packet p.1 p.2 :: (events.filterMap SlotEvent.packet?).map _
    rw [← ih hall]

/-- However the packets of other slots, forged ones among them, come in between: as
    long as slot `n` is live and its packets are handled, what is returned for it is
    its ledger up to the first batch of which a shred has not arrived, and then a
    beginning of that batch. -/
theorem honest_slot_in_order (hw : env.wincode.Lawful) (hfuel : 2 ^ 32 < fuel)
    (opts : ListenerOptions) (n : ℕ) (S : Slot env.wincode)
    {qs : List (Surroundings × Request)} {replies : List Reply}
    (h : runRequests env fuel (fromSocket opts) qs = some (l, replies))
    (hqs : ∀ q ∈ qs, S.Undisturbed opts.accumulator opts.enableFec n q)
    (htakes : Throughout env fuel (Takes n) (fromSocket opts) qs)
    (hlive : n ∉ l.retired.map Prod.fst) :
    let k := S.completeBatches ((arrivedIndices opts.enableFec n qs).filter fun i => S.Stored i)
    ∃ p, p <+: S.txs k ∧
      (project n (replies.filterMap Reply.returned)).flatten = S.txsBefore k ++ p := by
  intro k
  obtain ⟨es, outs, he, hown, -, hall⟩ :=
    runRequests_emulates (ReedSolomonCache.valid_empty env.reedSolomon) h
  have hpackets := packets_of_live fun clock hmem =>
    hlive (he.retired n (.inr ⟨clock, hmem⟩))
  obtain ⟨hpushes, hpushed⟩ := Slot.pushes_of_brings (hall n htakes) fun q hq => by
    obtain ⟨hmem, hslot⟩ := List.mem_filter.mp hq
    exact ⟨of_decide_eq_true hslot, hqs q hmem⟩
  obtain ⟨acc, outs', hrun', k', hfollows, hwait⟩ :=
    Slot.slotRun_follows hw hfuel S opts.accumulator hpushes
  have hrun := run_project he.run n
  rw [show (fromSocket opts : ShredListener C).live n = none by simp [live, fromSocket], hpackets]
    at hrun
  cases hrun'.symm.trans hrun
  have hk : k' = k := hfollows.eq_completeBatches hwait fun i => by
    rw [List.mem_filter, decide_eq_true_eq, hpushed]
    rfl
  obtain ⟨p, hp, hout⟩ := hfollows.ledger hw
  rw [hk] at hp hout
  refine ⟨p, hp, ?_⟩
  rw [← hown, project_collect]
  exact hout

/-- The shreds of slot 5 arrive with the last batch first, among packets of slot 6
    that do not decode. -/
theorem honest_slot_in_order_among_others :
    let packet (i : ℕ) (flags : UInt8) : Surroundings × Request :=
      (quiet, .handlePacket (legacyPacket 5 i flags (Slot.threeShreds.payload i)))
    let noise (i : ℕ) : Surroundings × Request :=
      (quiet, .handlePacket (legacyPacket 6 i 0x40 [9]))
    ∃ l replies, runRequests legacyEnv (2 ^ 32 + 1) (fromSocket {})
        [packet 2 0x40, noise 0, packet 0 0, noise 1, packet 1 0x40] = some (l, replies) ∧
      ∃ p, p <+: Slot.threeShreds.txs 2 ∧
        (project 5 (replies.filterMap Reply.returned)).flatten =
          Slot.threeShreds.txsBefore 2 ++ p := by
  intro packet noise
  obtain ⟨⟨l, replies⟩, hrun, hlive⟩ := Option.map_eq_some_iff.mp
    (show ((runRequests legacyEnv (2 ^ 32 + 1) (fromSocket {})
      [packet 2 0x40, noise 0, packet 0 0, noise 1, packet 1 0x40]).map fun r =>
        decide (5 ∈ r.1.retired.map Prod.fst)) = some false by decide +kernel)
  have hcarries : ∀ q ∈ [packet 2 0x40, noise 0, packet 0 0, noise 1, packet 1 0x40],
      ∀ raw ∈ q.2.packet, packetSlot true raw = some 5 →
        ∃ d ∈ dataShred raw, Slot.threeShreds.Carries d := by
    decide +kernel
  have htakes : Throughout legacyEnv (2 ^ 32 + 1) (Takes 5) (fromSocket {})
      [packet 2 0x40, noise 0, packet 0 0, noise 1, packet 1 0x40] := by
    decide +kernel
  have hclock : ∀ q ∈ [packet 2 0x40, noise 0, packet 0 0, noise 1, packet 1 0x40],
      q.1 = quiet := by
    simp [packet, noise]
  have hprefix := honest_slot_in_order LegacyWire.wincode_lawful (by decide) {} 5 Slot.threeShreds
    hrun (fun q hq raw hraw hslot => ⟨hcarries q hq raw hraw hslot, fun b t => by
      rw [hclock q hq]
      show 0 < 50000000
      omega⟩) htakes (of_decide_eq_false hlive)
  rw [show Slot.threeShreds.completeBatches ((arrivedIndices true 5
    [packet 2 0x40, noise 0, packet 0 0, noise 1, packet 1 0x40]).filter
      fun i => Slot.threeShreds.Stored i) = 2 by decide +kernel] at hprefix
  exact ⟨l, replies, hrun, hprefix⟩

end ShredListener

end ShredStream
