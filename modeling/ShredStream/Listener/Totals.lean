import ShredStream.Listener.Live

/-!
# Batches and counters across slots

The counters of an accumulator only grow, and as long as none of them is at its
maximum the batches counted as streamed, decoded or skipped are the executions of
`complete_batch` (`Tallied`). Retiring an accumulator moves its counters from the
live sum to the rolled-up one, so a total is the sum over all accumulators there
ever were.

* `totals_conserved`: the accounting identity, the totals as sums, and that no
  total decreases.
-/

namespace ShredStream

namespace Counters

/-- The eleven counters. -/
def all : List (Counters → ℕ) :=
  [decodeErrors, recoveriesDone, recoveryFailures, batchesDecodedStreaming,
    batchesDecodedFallback, batchesSkipped, fecSetsDiscardedUnused, fecSetsEvictedEarly,
    salvagedTailTx, batchesForceFinalizedCorrupted, batchesForceFinalizedTimeout]

/-- The batches counted. -/
def batches (c : Counters) : ℕ :=
  c.batchesDecodedStreaming + c.batchesDecodedFallback + c.batchesSkipped

/-- Every counter fits its type. -/
def InRange (c : Counters) : Prop := c.decodeErrors ≤ u32Max ∧ ∀ f ∈ all, f c ≤ u64Max

/-- No counter is smaller in `c'`. -/
def Grows (c c' : Counters) : Prop := ∀ f ∈ all, f c ≤ f c'

theorem Grows.refl (c : Counters) : c.Grows c := fun _ _ => le_rfl

theorem Grows.trans {c c' c'' : Counters} (h : c.Grows c') (h' : c'.Grows c'') : c.Grows c'' :=
  fun f hf => (h f hf).trans (h' f hf)

theorem inRange_zero : InRange {} := by
  simp [InRange, all]

theorem u32Max_le_u64Max : u32Max ≤ u64Max := by decide

/-- Counting a batch keeps the ranges, and unless a counter of batches ends at its
    maximum the batches counted are one more. -/
theorem CountsBatch.grows {c c' : Counters} (h : c.CountsBatch c') (hc : c.InRange) :
    c'.InRange ∧ c.Grows c' ∧
      (c'.batchesDecodedStreaming < u64Max → c'.batchesDecodedFallback < u64Max →
        c'.batchesSkipped < u64Max → c'.batches = c.batches + 1) := by
  have hmax := u32Max_le_u64Max
  simp only [InRange, Grows, all, List.forall_mem_cons, List.not_mem_nil, false_imp_iff,
    implies_true, and_true, batches] at hc ⊢
  cases h with
  | _ =>
    simp only [satAdd32, satAdd64] at hc ⊢
    generalize u32Max = m at *
    generalize u64Max = n at *
    omega

theorem CountsFill.grows {c c' : Counters} (h : c.CountsFill c') (hc : c.InRange) :
    c'.InRange ∧ c.Grows c' ∧ c'.batches = c.batches := by
  have hmax := u32Max_le_u64Max
  simp only [InRange, Grows, all, List.forall_mem_cons, List.not_mem_nil, false_imp_iff,
    implies_true, and_true, batches] at hc ⊢
  cases h with
  | _ =>
    simp only [satAdd64, and_true] at hc ⊢
    generalize u64Max = n at *
    omega

/-- Other counters that are added to. -/
theorem grows_decodeErrors {c : Counters} (hc : c.InRange) :
    InRange { c with decodeErrors := satAdd32 c.decodeErrors 1 } ∧
      c.Grows { c with decodeErrors := satAdd32 c.decodeErrors 1 } := by
  have hmax := u32Max_le_u64Max
  simp only [InRange, Grows, all, List.forall_mem_cons, List.not_mem_nil, false_imp_iff,
    implies_true, and_true, satAdd32] at hc ⊢
  generalize u64Max = n at *
  generalize u32Max = m at *
  omega

theorem grows_evictedEarly {c : Counters} (hc : c.InRange) :
    InRange { c with fecSetsEvictedEarly := satAdd64 c.fecSetsEvictedEarly 1 } ∧
      c.Grows { c with fecSetsEvictedEarly := satAdd64 c.fecSetsEvictedEarly 1 } := by
  simp only [InRange, Grows, all, List.forall_mem_cons, List.not_mem_nil, false_imp_iff,
    implies_true, and_true, satAdd64] at hc ⊢
  generalize u64Max = n at *
  omega

theorem grows_tally {c : Counters} (hc : c.InRange) (discarded salvaged : ℕ) :
    InRange { c with
        fecSetsDiscardedUnused := satAdd64 c.fecSetsDiscardedUnused discarded
        salvagedTailTx := satAdd64 c.salvagedTailTx salvaged } ∧
      c.Grows { c with
        fecSetsDiscardedUnused := satAdd64 c.fecSetsDiscardedUnused discarded
        salvagedTailTx := satAdd64 c.salvagedTailTx salvaged } := by
  simp only [InRange, Grows, all, List.forall_mem_cons, List.not_mem_nil, false_imp_iff,
    implies_true, and_true, satAdd64] at hc ⊢
  generalize u64Max = n at *
  omega

end Counters

namespace SlotAccumulator

variable {C : Type} {env : Env C} {clock : Clock} {acc acc' : SlotAccumulator}

/-- Unless a counter of batches is at its maximum, the batches counted are the
    executions of `complete_batch`. -/
structure Tallied (acc : SlotAccumulator) : Prop where
  inRange : acc.counters.InRange
  batches : (∀ f ∈ Counters.all, f acc.counters < u64Max) →
    acc.finalized.length = acc.counters.batches

theorem tallied_withConfig (cfg : AccumulatorConfig) : (withConfig cfg).Tallied :=
  ⟨Counters.inRange_zero, fun _ => rfl⟩

/-- Counting something else than a batch. -/
theorem Tallied.count (h : acc.Tallied)
    (hcounters : acc'.counters.InRange ∧ acc.counters.Grows acc'.counters)
    (hbatches : acc'.counters.batches = acc.counters.batches)
    (hfinalized : acc'.finalized = acc.finalized) :
    acc'.Tallied ∧ acc.counters.Grows acc'.counters := by
  refine ⟨⟨hcounters.1, fun hmax => ?_⟩, hcounters.2⟩
  rw [hfinalized, hbatches]
  exact h.batches fun f hf => (hcounters.2 f hf).trans_lt (hmax f hf)

theorem Step.tallied {s s' : CallState C} (h : Step env clock s s') (hs : s.acc.Tallied) :
    s'.acc.Tallied ∧ s.acc.counters.Grows s'.acc.counters := by
  cases h with
  | fill hint =>
    obtain ⟨h1, h2, h3⟩ := (tryFecFill_counts env clock s.acc s.cache hint).grows
      hs.inRange
    exact hs.count ⟨h1, h2⟩ h3 (refilled_tryFecFill env s.acc clock s.cache hint).finalized
  | stream => exact hs.count ⟨hs.inRange, .refl _⟩ rfl rfl
  | streamError => exact hs.count (Counters.grows_decodeErrors hs.inRange) rfl rfl
  | @finalise bcIdx txs counters hb hcounts =>
    obtain ⟨h1, h2, h3⟩ := hcounts.grows hs.inRange
    refine ⟨⟨h1, fun hmax => ?_⟩, h2⟩
    have hcount : counters.batches = s.acc.counters.batches + 1 := by
      apply h3
      · exact hmax Counters.batchesDecodedStreaming (by simp [Counters.all])
      · exact hmax Counters.batchesDecodedFallback (by simp [Counters.all])
      · exact hmax Counters.batchesSkipped (by simp [Counters.all])
    show (s.acc.finalized ++ [_]).length = counters.batches
    rw [List.length_append, hs.batches fun f hf => (h2 f hf).trans_lt (hmax f hf), hcount]
    rfl
  | record => exact hs.count ⟨hs.inRange, .refl _⟩ rfl rfl
  | tally discarded salvaged =>
    exact hs.count (Counters.grows_tally hs.inRange discarded salvaged) rfl rfl

theorem Opens.tallied {acc₀ : SlotAccumulator} {c : Call} (h : Opens clock acc c acc₀)
    (hacc : acc.Tallied) : acc₀.Tallied ∧ acc.counters.Grows acc₀.counters := by
  cases h with
  | last => exact hacc.count ⟨hacc.inRange, .refl _⟩ rfl rfl
  | data => exact hacc.count ⟨hacc.inRange, .refl _⟩ rfl rfl
  | @code a =>
    obtain ⟨fecSets, counters, heq, rfl | rfl⟩ := acc.recordCode_eq a
    · rw [heq]
      exact hacc.count ⟨hacc.inRange, .refl _⟩ rfl rfl
    · rw [heq]
      exact hacc.count (Counters.grows_evictedEarly hacc.inRange) rfl rfl
  | harvest => exact ⟨hacc, .refl _⟩

/-- A call keeps the tally, and no counter decreases. -/
theorem Tallied.call (h : acc.Tallied) (hp : acc.Parsed) {cache : ReedSolomonCache C}
    {fuel : ℕ} {c : Call} (hc : c.Parsed) {r : CallState C}
    (hr : acc.call env clock fuel cache c = some r) :
    r.acc.Tallied ∧ acc.counters.Grows r.acc.counters :=
  call_invariant (I := fun acc' => acc'.Tallied ∧ acc.counters.Grows acc'.counters)
    (fun _ _ _ hs hstep =>
      ⟨(hstep.tallied hs.1).1, hs.2.trans (hstep.tallied hs.1).2⟩)
    (fun _ _ hs => ⟨⟨hs.1.inRange, hs.1.batches⟩, hs.2⟩)
    (fun _ ho => ho.tallied h) hp ⟨h, .refl _⟩ hc hr

theorem Live.tallied {fuel : ℕ} {cfg : AccumulatorConfig} {slot : ℕ}
    (h : Live env fuel cfg slot acc) : acc.Tallied := by
  induction h with
  | fresh => exact tallied_withConfig cfg
  | call hlive hc hr ih =>
    have hcall := (ih.call hlive.parsed hc.parsed hr).1
    exact ⟨hcall.inRange, hcall.batches⟩

end SlotAccumulator

namespace ShredListener

open SlotAccumulator

variable {C : Type} {env : Env C} {fuel : ℕ} {l l' : ShredListener C}

/-- All accumulators there ever were, the retired ones as their tail harvest left
    them. -/
def everCreated (l : ShredListener C) : List SlotAccumulator :=
  l.retired.map Prod.snd ++ l.slots.toList.map Prod.snd

/-- A counter over all accumulators there ever were. -/
def overall (l : ShredListener C) (f : Counters → ℕ) : ℕ :=
  (l.everCreated.map fun acc => f acc.counters).sum

/-- The executions of `complete_batch` in all of them. -/
def completions (l : ShredListener C) : ℕ :=
  (l.everCreated.map fun acc => acc.finalized.length).sum

/-- The eleven getters of totals, each with its counter. -/
def totalGetters : List ((ShredListener C → ℕ) × (Counters → ℕ)) :=
  [(decodeErrorsTotal, Counters.decodeErrors),
    (fecRecoveriesTotal, Counters.recoveriesDone),
    (fecRecoveryFailuresTotal, Counters.recoveryFailures),
    (batchesDecodedStreamingTotal, Counters.batchesDecodedStreaming),
    (batchesDecodedFallbackTotal, Counters.batchesDecodedFallback),
    (batchesSkippedTotal, Counters.batchesSkipped),
    (fecSetsDiscardedUnusedTotal, Counters.fecSetsDiscardedUnused),
    (fecSetsEvictedEarlyTotal, Counters.fecSetsEvictedEarly),
    (salvagedTailTxTotal, Counters.salvagedTailTx),
    (batchesForceFinalizedCorruptedTotal, Counters.batchesForceFinalizedCorrupted),
    (batchesForceFinalizedTimeoutTotal, Counters.batchesForceFinalizedTimeout)]

theorem totalOf_of_getter {g : (ShredListener C → ℕ) × (Counters → ℕ)} (h : g ∈ totalGetters) :
    g.1 l = l.totalOf g.2 ∧ g.2 ∈ Counters.all := by
  simp only [totalGetters, List.mem_cons, List.not_mem_nil, or_false] at h
  rcases h with rfl | rfl | rfl | rfl | rfl | rfl | rfl | rfl | rfl | rfl | rfl
  all_goals exact ⟨rfl, by simp [Counters.all]⟩

/-! ## Totals as sums -/

theorem rollup_counter {f : Counters → ℕ} (hf : f ∈ Counters.all) (t c : Counters) :
    f (rollup t c) = wrapAdd64 (f t) (f c) := by
  simp only [Counters.all, List.mem_cons, List.not_mem_nil, or_false] at hf
  rcases hf with rfl | rfl | rfl | rfl | rfl | rfl | rfl | rfl | rfl | rfl | rfl
  all_goals rfl

theorem foldl_wrapAdd64 (ns : List ℕ) (n : ℕ) :
    ns.foldl wrapAdd64 (n % 2 ^ 64) = (n + ns.sum) % 2 ^ 64 := by
  induction ns generalizing n with
  | nil => rfl
  | cons k ns ih =>
    rw [List.foldl_cons, wrapAdd64, Nat.mod_add_mod, ih, List.sum_cons, Nat.add_assoc]

theorem foldl_rollup {f : Counters → ℕ} (hf : f ∈ Counters.all) (cs : List Counters) (t : Counters) :
    f (cs.foldl rollup t) = (cs.map f).foldl wrapAdd64 (f t) := by
  induction cs generalizing t with
  | nil => rfl
  | cons c cs ih => rw [List.foldl_cons, ih, rollup_counter hf, List.map_cons, List.foldl_cons]

theorem overall_eq (l : ShredListener C) (f : Counters → ℕ) :
    l.overall f = (l.retired.map fun e => f e.2.counters).sum +
      l.slots.sumOver fun _ acc => f acc.counters := by
  rw [overall, everCreated, List.map_append, List.sum_append, List.map_map, List.map_map]
  rfl

/-- A total is the sum over all accumulators there ever were, up to wrapping. -/
theorem totalOf_eq (h : l.RolledUp) {f : Counters → ℕ} (hf : f ∈ Counters.all) :
    l.totalOf f = l.overall f % 2 ^ 64 := by
  have hretired : f l.totals = (l.retired.map fun e => f e.2.counters).sum % 2 ^ 64 := by
    have hzero : f {} = 0 % 2 ^ 64 := by
      simp only [Counters.all, List.mem_cons, List.not_mem_nil, or_false] at hf
      rcases hf with rfl | rfl | rfl | rfl | rfl | rfl | rfl | rfl | rfl | rfl | rfl
      all_goals rfl
    rw [h, foldl_rollup hf, hzero, foldl_wrapAdd64, Nat.zero_add, List.map_map]
    rfl
  have hlive : l.sumLive f = (l.slots.sumOver fun _ acc => f acc.counters) % 2 ^ 64 := by
    have hfold := foldl_wrapAdd64 (l.slots.toList.map fun e => f e.2.counters) 0
    rw [Nat.zero_add] at hfold
    exact hfold
  rw [totalOf, hretired, hlive, wrapAdd64, overall_eq, ← Nat.add_mod]

/-! ## Totals only grow -/

theorem AllLive.tallied {cfg : AccumulatorConfig} (h : AllLive env fuel cfg l) :
    ∀ acc ∈ l.everCreated, acc.Tallied := by
  intro acc hacc
  rcases List.mem_append.mp hacc with hacc | hacc
  · obtain ⟨e, he, rfl⟩ := List.mem_map.mp hacc
    obtain ⟨acc, clock, cache, r, hlive, hr, heq⟩ := h.retired e he
    rw [← heq]
    exact (hlive.tallied.call hlive.parsed Call.parsed_harvest (c := .harvest) hr).1
  · obtain ⟨⟨s, acc⟩, he, rfl⟩ := List.mem_map.mp hacc
    exact (h.slots s acc (l.slots.mem_toList.mp he)).tallied

/-- Retiring a slot moves its counters, the harvest's included, from one sum to the
    other. -/
theorem Move.overall_le {cfg : AccumulatorConfig} {clock : Clock} {m m' : ShredListener C × List ℕ}
    (h : Move env clock fuel m m') (hlive : AllLive env fuel cfg m.1) {f : Counters → ℕ}
    (hf : f ∈ Counters.all) : m.1.overall f ≤ m'.1.overall f := by
  cases h with
  | keep hsame => rw [overall_eq, overall_eq, hsame.retired, hsame.slots]
  | @retire l l' hand s hretire =>
    rcases retireSlot_cases hretire with rfl | ⟨acc, r, hacc, hr, hl'⟩
    · exact le_rfl
    · have hacclive := hlive.slots s acc hacc
      have hgrows : f acc.counters ≤ f r.acc.counters :=
        (hacclive.tallied.call hacclive.parsed Call.parsed_harvest (c := .harvest) hr).2 f hf
      rw [overall_eq, overall_eq, hl'.retired, hl'.slots, List.map_append, List.sum_append,
        BTreeMap.sumOver_erase l.slots _ hacc]
      show (l.retired.map fun e => f e.2.counters).sum + (f acc.counters + _) ≤
        (l.retired.map fun e => f e.2.counters).sum + (f r.acc.counters + 0) + _
      omega
  | acquire => exact le_rfl
  | free => exact le_rfl

theorem overall_finishCall {cfg : AccumulatorConfig} {clock : Clock} {slot : ℕ} {c : Call}
    {r : CallState C} (hlive : AllLive env fuel cfg l) (hc : c.Made slot)
    (hr : (l.slotEntry slot).call env clock fuel l.rsCache c = some r) {f : Counters → ℕ}
    (hf : f ∈ Counters.all) : l.overall f ≤ (l.finishCall slot r).1.overall f := by
  have hentry := hlive.slotEntry slot
  have hgrows : f (l.slotEntry slot).counters ≤ f r.acc.counters :=
    (hentry.tallied.call hentry.parsed hc.parsed hr).2 f hf
  have hzero : f (withConfig l.accumulatorCfg).counters = 0 := by
    simp only [Counters.all, List.mem_cons, List.not_mem_nil, or_false] at hf
    rcases hf with rfl | rfl | rfl | rfl | rfl | rfl | rfl | rfl | rfl | rfl | rfl
    all_goals rfl
  rw [overall_eq, overall_eq, l.sumOver_slotEntry (fun _ acc => f acc.counters) slot hzero]
  show _ ≤ (l.retired.map fun e => f e.2.counters).sum +
    BTreeMap.sumOver (l.slots.insert slot { r.acc with dropped := [] }) _
  rw [BTreeMap.sumOver_insert]
  show _ ≤ (l.retired.map fun e => f e.2.counters).sum + (f r.acc.counters + _)
  omega

theorem runRequests_overall {cfg : AccumulatorConfig} (hlive : AllLive env fuel cfg l)
    {qs : List (Surroundings × Request)} {replies : List Reply}
    (h : runRequests env fuel l qs = some (l', replies)) {f : Counters → ℕ}
    (hf : f ∈ Counters.all) : l.overall f ≤ l'.overall f :=
  runRequests_moves_live (I := fun m => l.overall f ≤ m.1.overall f)
    (fun _ _ _ hlive hm hmove => hm.trans (hmove.overall_le hlive hf))
    (fun _ _ _ _ _ _ _ hlive hm hlen hpacket hr =>
      hm.trans (overall_finishCall hlive (made_of_packetCall hpacket hlen) hr hf))
    hlive le_rfl h

/-- As long as no counter reaches its maximum: the batches decoded by streaming,
    decoded by fallback and skipped are the executions of `complete_batch`; every
    total is the sum of its counter over all accumulators there ever were; and no
    total is smaller than it was at any point of the run. -/
theorem totals_conserved (opts : ListenerOptions) {qs qs' : List (Surroundings × Request)}
    {replies replies' : List Reply}
    (h : runRequests env fuel (fromSocket opts) qs = some (l, replies))
    (h' : runRequests env fuel l qs' = some (l', replies'))
    (hmax : ∀ f ∈ Counters.all, l'.overall f < u64Max) :
    l'.batchesDecodedStreamingTotal + l'.batchesDecodedFallbackTotal + l'.batchesSkippedTotal =
        l'.completions ∧
      (∀ g ∈ totalGetters, g.1 l' = l'.overall g.2) ∧
      ∀ g ∈ totalGetters, g.1 l ≤ g.1 l' := by
  have hrun := runRequests_append h h'
  have hlive := runRequests_live opts hrun
  have hroll := runRequests_rolledUp opts hrun
  have hu : u64Max < 2 ^ 64 := by decide
  have htotal {f : Counters → ℕ} (hf : f ∈ Counters.all) : l'.totalOf f = l'.overall f := by
    rw [totalOf_eq hroll hf, Nat.mod_eq_of_lt ((hmax f hf).trans hu)]
  refine ⟨?_, fun g hg => ?_, fun g hg => ?_⟩
  · have hcounters (acc : SlotAccumulator) (hacc : acc ∈ l'.everCreated) :
        acc.finalized.length = acc.counters.batches := by
      apply (hlive.tallied acc hacc).batches
      intro f hf
      refine lt_of_le_of_lt ?_ (hmax f hf)
      exact List.single_le_sum (fun _ _ => Nat.zero_le _) _
        (List.mem_map_of_mem (f := fun acc : SlotAccumulator => f acc.counters) hacc)
    have hsum : l'.completions = l'.overall Counters.batchesDecodedStreaming +
        l'.overall Counters.batchesDecodedFallback + l'.overall Counters.batchesSkipped := by
      rw [completions, List.map_congr_left hcounters]
      unfold Counters.batches overall
      rw [List.sum_map_add, List.sum_map_add]
    rw [hsum, batchesDecodedStreamingTotal, batchesDecodedFallbackTotal, batchesSkippedTotal,
      htotal (by simp [Counters.all]), htotal (by simp [Counters.all]),
      htotal (by simp [Counters.all])]
  · obtain ⟨hget, hf⟩ := totalOf_of_getter (l := l') hg
    rw [hget, htotal hf]
  · obtain ⟨hget, hf⟩ := totalOf_of_getter (l := l) hg
    rw [hget, (totalOf_of_getter (l := l') hg).1, htotal hf,
      totalOf_eq (runRequests_rolledUp opts h) hf]
    exact (Nat.mod_le _ _).trans (runRequests_overall (runRequests_live opts h) h' hf)

/-- A batch of slot 1 is skipped, and a packet of slot 100 evicts the slot. -/
theorem totals_conserved_evicted :
    ∃ l replies l' replies', runRequests legacyEnv (2 ^ 32 + 1) (fromSocket {})
        [(quiet, .handlePacket (legacyPacket 1 0 0x40 [7]))] = some (l, replies) ∧
      runRequests legacyEnv (2 ^ 32 + 1) l
        [(quiet, .handlePacket (legacyPacket 100 0 0 []))] = some (l', replies') ∧
      l'.retired.map Prod.fst = [1] ∧ l.batchesSkippedTotal = 1 ∧ l'.completions = 1 ∧
      l'.batchesDecodedStreamingTotal + l'.batchesDecodedFallbackTotal + l'.batchesSkippedTotal =
        l'.completions := by
  have hrun : ((runRequests legacyEnv (2 ^ 32 + 1) (fromSocket {})
      [(quiet, .handlePacket (legacyPacket 1 0 0x40 [7]))]).bind fun r =>
        (runRequests legacyEnv (2 ^ 32 + 1) r.1
          [(quiet, .handlePacket (legacyPacket 100 0 0 []))]).map fun r' =>
            decide (r'.1.retired.map Prod.fst = [1] ∧ r.1.batchesSkippedTotal = 1 ∧
              r'.1.completions = 1 ∧ ∀ f ∈ Counters.all, r'.1.overall f < u64Max)) = some true := by
    decide +kernel
  obtain ⟨⟨l, replies⟩, h, hrest⟩ := Option.bind_eq_some_iff.mp hrun
  obtain ⟨⟨l', replies'⟩, h', hfacts⟩ := Option.map_eq_some_iff.mp hrest
  obtain ⟨hretired, hskipped, hdone, hmax⟩ := of_decide_eq_true hfacts
  exact ⟨l, replies, l', replies', h, h', hretired, hskipped, hdone,
    (totals_conserved {} h h' hmax).1⟩

end ShredListener

end ShredStream
