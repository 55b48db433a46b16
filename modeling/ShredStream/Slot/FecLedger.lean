import ShredStream.Accumulator.Capacity
import ShredStream.Accumulator.Gaps
import ShredStream.Slot.HeldBack

/-!
# The ledger of a slot protected by FEC sets

What `push_data` and `push_code` (accumulator.rs, lines 157–239) return for an
honest slot, shreds being lost and recovered: `InOrder S k acc out` says that `out`
is the ledger of the slot up to the cursor.

* `InOrder.finalise`: decoding the batch that is waited for keeps to the ledger.
* `Served.flush_inOrder`: so does a flush that never goes over two batches at once
  (`PicksOver`) and finds no batch stuck.
* `recovery_keeps_order`: so do all calls.
* `oneAtATime_of_dataFirst`: a flush never goes over two batches at once if no code
  shred overtakes a data shred of its set.
-/

namespace ShredStream

open FirstByKey SlotAccumulator

namespace SlotAccumulator

/-- A call that stores its shred found that it is not the last one, not late, and not
    there. -/
theorem Opens.stores {acc : SlotAccumulator} {clock : Clock} {a : DataArgs}
    (h : Opens clock acc (.data a) (acc.insertData clock a)) :
    a.lastInSlot = false ∧ acc.batchStart ≤ a.index ∧ a.index ∉ acc.pending := by
  generalize hacc : acc.insertData clock a = acc₀ at h
  cases h with
  | last =>
    have hlen := congrArg (fun acc => acc.completions.length) hacc
    simp [insertData, completeSlot] at hlen
  | data hlast hge hnew => exact ⟨hlast, hge, hnew⟩

theorem Step.cfg {C : Type} {env : Env C} {clock : Clock} {s s' : CallState C}
    (h : Step env clock s s') : s'.acc.cfg = s.acc.cfg := by
  cases h with
  | fill hint => exact (refilled_tryFecFill env s.acc clock s.cache hint).cfg
  | _ => rfl

/-- No step records a set. -/
theorem Step.fecSets_sub {C : Type} {env : Env C} {clock : Clock} {s s' : CallState C}
    (h : Step env clock s s') {i : ℕ} {fec : FecSetBuffer}
    (hfec : s'.acc.fecSets[i]? = some fec) : s.acc.fecSets[i]? = some fec := by
  cases h with
  | fill hint => exact tryFecFill_fecSets env clock s.acc s.cache hint i hfec
  | finalise => exact ((BTreeMap.getElem?_filter_eq _).mp hfec).1
  | _ => exact hfec

theorem Steps.fecSets_sub {C : Type} {env : Env C} {clock : Clock} {s s' : CallState C}
    (h : Steps env clock s s') {i : ℕ} {fec : FecSetBuffer}
    (hfec : s'.acc.fecSets[i]? = some fec) : s.acc.fecSets[i]? = some fec :=
  h.invariant (I := fun s' => s'.acc.fecSets[i]? = some fec → s.acc.fecSets[i]? = some fec)
    (fun _ _ hs hstep hfec => hs (hstep.fecSets_sub hfec)) id hfec

theorem Opens.cfg {clock : Clock} {acc acc₀ : SlotAccumulator} {c : Call}
    (h : Opens clock acc c acc₀) : acc₀.cfg = acc.cfg := by
  cases h with
  | code => exact recordCode_cfg acc _
  | _ => rfl

theorem SetState.call {C : Type} {env : Env C} {clock : Clock} {fuel : ℕ}
    {parity : ℕ → ℕ → List Bytes → List Bytes} {sets : FecSets env.reedSolomon parity}
    {acc : SlotAccumulator} {cache : ReedSolomonCache C} (h : SetState sets ⟨acc, cache, []⟩)
    (hrs : env.reedSolomon.Rebuilds parity) (hp : acc.Parsed) {c : Call} (hsent : c.Sent sets)
    {r : CallState C} (hr : acc.call env clock fuel cache c = some r) :
    SetState sets ⟨r.acc, r.cache, []⟩ := by
  rcases call_cases hp hsent.parsed hr with ⟨a, -, -, rfl⟩ | ⟨acc₀, s, ho, hsteps, hr⟩
  · exact ⟨⟨h.fromSets.recorded, h.fromSets.data, h.fromSets.boundary⟩, h.cache⟩
  · have hs₀ : SetState sets ⟨acc₀, cache, []⟩ := ⟨ho.fromSets h.fromSets hsent, h.cache⟩
    have hs := hsteps.setState hrs hs₀
    rcases hr with ⟨rfl, -⟩ | ⟨a, -, -, rfl⟩
    · exact ⟨hs.fromSets, hs.cache⟩
    · exact ⟨⟨hs.fromSets.recorded, hs.fromSets.data, hs.fromSets.boundary⟩, hs.cache⟩

/-- What holds between calls with packets of the sets. -/
theorem run_setState {C : Type} {env : Env C} {fuel : ℕ}
    {parity : ℕ → ℕ → List Bytes → List Bytes} {sets : FecSets env.reedSolomon parity}
    (hrs : env.reedSolomon.Rebuilds parity) (cfg : AccumulatorConfig) {cache : ReedSolomonCache C}
    (hcache : cache.Valid env.reedSolomon) {calls : List (Clock × Call)} :
    ∀ {s : CallState C}, (∀ c ∈ calls, c.2.Sent sets) →
      runCalls env fuel (.fresh cfg cache) calls = some s →
      SetState sets ⟨s.acc, s.cache, []⟩ ∧ s.acc.Parsed ∧ s.acc.Consistent := by
  induction calls using List.reverseRecOn with
  | nil =>
    rintro s - hrun
    cases hrun
    exact ⟨⟨fromSets_withConfig cfg, hcache⟩, parsed_withConfig cfg, consistent_withConfig cfg⟩
  | append_singleton calls c ih =>
    intro s hcalls hrun
    rw [runCalls_append, Option.bind_eq_some_iff] at hrun
    obtain ⟨s₁, hpre, hlast⟩ := hrun
    obtain ⟨r, hr, hlast⟩ := Option.bind_eq_some_iff.mp hlast
    cases hlast
    rw [List.forall_mem_append] at hcalls
    have hsent := hcalls.2 c (List.mem_singleton.mpr rfl)
    obtain ⟨hs, hp, hc⟩ := ih hcalls.1 hpre
    have hs' := hs.call hrs hp hsent hr
    have hp' := hp.call hsent.parsed hr
    have hc' := (hc.call hp hsent.parsed hr).1
    exact ⟨hs', hp', hc'⟩

/-- The options are those of the listener throughout. -/
theorem EntersFlush.cfg {C : Type} {env : Env C} {clock : Clock} {fuel : ℕ}
    {acc : SlotAccumulator} {cache : ReedSolomonCache C} {c : Call} {s : CallState C}
    (h : EntersFlush env clock fuel acc cache c s) (hp : acc.Parsed) (hc : c.Parsed) :
    s.acc.cfg = acc.cfg := by
  obtain ⟨acc₀, ho, hsteps⟩ := h.steps hp hc
  exact hsteps.invariant (I := fun s => s.acc.cfg = acc.cfg)
    (fun _ _ hs hstep => hstep.cfg.trans hs) ho.cfg

end SlotAccumulator

namespace Slot

variable {C : Type} {env : Env C} {parity : ℕ → ℕ → List Bytes → List Bytes}
  {S : Slot env.wincode} {sets : FecSets env.reedSolomon parity} {clock : Clock} {k : ℕ}
  {base : List VersionedTransaction} {s : CallState C}

/-- The end of a batch that the flush picks lies behind that of another one, whose last
    shred is missing, and all up to it is pending or can be recovered: the flush decodes
    two batches as one. -/
def PicksOver {w : Wincode} (S : Slot w) (acc : SlotAccumulator) : Prop :=
  ∃ bcIdx t, acc.batchCompleteIndices.firstFrom acc.batchStart = some (bcIdx, t) ∧
    S.EndsBatch bcIdx ∧
    (∃ b, S.EndsBatch b ∧ acc.batchStart ≤ b ∧ b < bcIdx ∧ b ∉ acc.pending) ∧
    ∀ i, acc.batchStart ≤ i → i ≤ bcIdx → i ∈ acc.pending ∨ acc.Recoverable i

/-- `out` is the ledger up to the cursor, which stands in batch `k`. -/
def InOrder {w : Wincode} (S : Slot w) (k : ℕ) (acc : SlotAccumulator)
    (out : List VersionedTransaction) : Prop :=
  out = S.txsBefore k ++ S.streamed k acc.streamingCursor

theorem inOrder_withConfig {w : Wincode} (S : Slot w) (cfg : AccumulatorConfig) :
    S.InOrder 0 (withConfig cfg) [] := by
  have h := S.streamed_start 0
  rw [S.start_zero] at h
  show [] = S.txsBefore 0 ++ S.streamed 0 0
  rw [h, txsBefore_zero, List.append_nil]

/-- Recovery moves no cursor. -/
theorem InOrder.refilled {w : Wincode} {S : Slot w} {acc acc' : SlotAccumulator}
    {out : List VersionedTransaction} (h : S.InOrder k acc out) (hr : acc.Refilled acc') :
    S.InOrder k acc' out := by
  unfold InOrder
  rw [hr.cursor]
  exact h

theorem InOrder.advanceStreaming {acc : SlotAccumulator} {out : List VersionedTransaction}
    (h : S.InOrder k acc (base ++ out)) (ht : S.Tracks k acc) (hw : env.wincode.Lawful)
    (hu : acc.Unpassed) {fuel : ℕ} (hfuel : 2 ^ 32 < fuel)
    {t : SlotAccumulator × List VersionedTransaction}
    (hrun : acc.advanceStreaming env fuel out = some t) : S.InOrder k t.1 (base ++ t.2) := by
  obtain ⟨cursor, decoder, new, hrun', -, -, hnew, -⟩ :=
    ht.advanceStreaming hw (ht.before_stop hu) hfuel out
  rw [hrun] at hrun'
  cases hrun'
  show base ++ (out ++ new) = S.txsBefore k ++ S.streamed k cursor
  rw [hnew, ← List.append_assoc, ← List.append_assoc]
  exact congrArg (· ++ new) h

/-- What the decoding of a whole batch adds to what was streamed of it is the rest of
    the batch. -/
theorem InOrder.finalise {acc : SlotAccumulator} {out : List VersionedTransaction}
    (h : S.InOrder k acc out) (ht : S.Tracks k acc) (hw : env.wincode.Lawful)
    (hk : k < S.batches) {bcIdx : ℕ} (hend : bcIdx + 1 = S.start (k + 1))
    (hall : ∀ i, acc.batchStart ≤ i → i ≤ bcIdx → i ∈ acc.pending) :
    out ++ unseen acc.yieldedSigs (batchTxs env.wincode (acc.combined acc.batchStart bcIdx)) =
      S.txsBefore (k + 1) := by
  rw [ht.batchStart] at hall ⊢
  have htxs : batchTxs env.wincode (acc.combined (S.start k) bcIdx) = S.txs k := by
    rw [ht.combined hall, hend, txs, if_pos hk]
  obtain ⟨rest, hrest⟩ := S.streamed_isPrefix hw hk acc.streamingCursor
  have hunseen : unseen acc.yieldedSigs (S.txs k) = rest := by
    have hdist := S.distinct_txs hk
    rw [← hrest] at hdist ⊢
    rw [ht.yielded]
    exact hdist.fresh_append_right
  have hout : out = _ := h
  rw [htxs, hunseen, hout, List.append_assoc, hrest, txsBefore_succ]

/-- A boundary in front of which all is pending is the end of the batch waited for, if
    no batch ends in front of it. -/
theorem Aligned.end_of_present {w : Wincode} {S : Slot w} {acc : SlotAccumulator}
    (h : S.Aligned k acc) {bcIdx : ℕ} (hge : acc.batchStart ≤ bcIdx)
    (hb : bcIdx ∈ acc.batchCompleteIndices)
    (hno : ¬∃ b, S.EndsBatch b ∧ acc.batchStart ≤ b ∧ b < bcIdx) :
    k < S.batches ∧ bcIdx + 1 = S.start (k + 1) := by
  rw [h.batchStart] at hge hno
  refine ((h.boundary bcIdx).mp hb).2.eq_next S h.k_le hge fun b h1 h2 hends => ?_
  exact hno ⟨b, hends, h1, h2⟩

namespace Served

/-- Finalising a whole batch. -/
theorem finalise_whole (h : Served S sets k base s) (hin : S.InOrder k s.acc (base ++ s.out))
    (hw : env.wincode.Lawful) {bcIdx : ℕ} (hb : bcIdx ∈ s.acc.batchCompleteIndices)
    (hk : k < S.batches) (hend : bcIdx + 1 = S.start (k + 1))
    (hall : ∀ i, s.acc.batchStart ≤ i → i ≤ bcIdx → i ∈ s.acc.pending) (counters : Counters) :
    let txs := batchTxs env.wincode (s.acc.combined s.acc.batchStart bcIdx)
    let acc' := s.acc.finalise txs counters bcIdx
    let out' := s.out ++ unseen s.acc.yieldedSigs txs
    Served S sets (k + 1) base ⟨acc', s.cache, out'⟩ ∧ S.InOrder (k + 1) acc' (base ++ out') := by
  intro txs acc' out'
  obtain ⟨j, -, hcursor, hnext⟩ := h.finalise hb txs counters
  have hstart : S.start j = S.start (k + 1) := by
    rw [← hend, ← hnext.batchStart]
    exact satAdd32_of_lt (h.boundary_lt hb)
  have hj : j = k + 1 := S.start_inj hnext.k_le hk hstart
  rw [hj] at hcursor hnext
  refine ⟨hnext, ?_⟩
  show base ++ (s.out ++ _) = S.txsBefore (k + 1) ++ S.streamed (k + 1) acc'.streamingCursor
  rw [← List.append_assoc, hin.finalise h.toTracks hw hk hend hall, hcursor, streamed_start,
    List.append_nil]

/-- A call that reaches its flush has returned the ledger up to the cursor. -/
theorem enters_inOrder {acc : SlotAccumulator} {cache : ReedSolomonCache C}
    (h : Served S sets k base ⟨acc, cache, []⟩) (hin : S.InOrder k acc base)
    (hw : env.wincode.Lawful) (hp : Protects S sets) (hrs : env.reedSolomon.Rebuilds parity)
    (hc : acc.Consistent) (hclear : acc.Clear) (hparsed : acc.Parsed) {c : Call}
    (hsends : Sends S sets c) {fuel : ℕ} (hfuel : 2 ^ 32 < fuel)
    (henters : EntersFlush env clock fuel acc cache c s) :
    S.InOrder k s.acc (base ++ s.out) := by
  have hunpassed {t : SlotAccumulator × List VersionedTransaction}
      (ht : EntersStreaming env clock fuel acc cache c t) : t.1.Unpassed :=
    (ht.unpassed hc hclear hparsed hsends.sent.parsed).2.2
  have hin₀ : ∀ acc₀ : SlotAccumulator, acc₀.streamingCursor = acc.streamingCursor →
      S.InOrder k acc₀ (base ++ []) := by
    intro acc₀ hcursor
    rw [List.append_nil, InOrder, hcursor]
    exact hin
  -- streaming goes on after a recovery, or nothing was recovered
  have hresume {t : CallState C} {hint : ℕ} {t' : SlotAccumulator × List VersionedTransaction}
      (ht : Served S sets k base t) (hint' : S.InOrder k t.acc (base ++ t.out))
      (hu : (t.acc.tryFecFill env clock t.cache hint).2.2 = true →
        (t.acc.tryFecFill env clock t.cache hint).1.Unpassed)
      (hres : SlotAccumulator.resume env fuel (t.acc.tryFecFill env clock t.cache hint) t.out =
        some t') : S.InOrder k t'.1 (base ++ t'.2) := by
    have hfill := hint'.refilled (refilled_tryFecFill env t.acc clock t.cache hint)
    unfold SlotAccumulator.resume at hres
    split_ifs at hres with hfilled
    · exact hfill.advanceStreaming (ht.tryFecFill hp hrs clock hint).toTracks hw (hu hfilled)
        hfuel hres
    · cases hres
      exact hfill
  cases henters with
  | last => exact hin₀ _ rfl
  | @passed a acc₁ out₁ ho hrun _ =>
    obtain ⟨hlast, hge, hnew⟩ := ho.stores
    have hu := hunpassed (.stored hlast hge hnew)
    exact (hin₀ (acc.insertData clock a) rfl).advanceStreaming (h.opens ho hsends).toTracks hw hu
      hfuel hrun
  | @data a acc₁ acc₂ out₁ out₂ ho hrun hcur hres =>
    obtain ⟨hlast, hge, hnew⟩ := ho.stores
    have hu := hunpassed (.stored hlast hge hnew)
    obtain ⟨t, hrun', hserved, -⟩ := (h.opens ho hsends).advanceStreaming hw hu hfuel
    have hin₁ := (hin₀ (acc.insertData clock a) rfl).advanceStreaming
      (h.opens ho hsends).toTracks hw hu hfuel hrun
    rw [show (acc.insertData clock a).advanceStreaming env fuel [] = some t from hrun'] at hrun
    cases hrun
    exact hresume hserved hin₁
      (fun hfilled => hunpassed (.refilled hlast hge hnew hrun' hcur hfilled)) hres
  | @code a acc₁ out₁ hres =>
    have hcursor : (acc.recordCode a).streamingCursor = acc.streamingCursor := by
      obtain ⟨fecSets, counters, heq, -⟩ := acc.recordCode_eq a
      rw [heq]
    have ho : Opens clock acc (.code a) (acc.recordCode a) := .code
    exact hresume (h.opens ho hsends) (hin₀ _ hcursor)
      (fun hfilled => hunpassed (.code hfilled)) hres

/-- A flush that is handed the ledger up to the cursor keeps to it, if it goes over one
    batch at a time and finds none stuck. -/
theorem flush_inOrder (h : Served S sets k base s) (hin : S.InOrder k s.acc (base ++ s.out))
    (hw : env.wincode.Lawful) (hp : Protects S sets) (hrs : env.reedSolomon.Rebuilds parity)
    (htime : ∀ b t, clock.elapsed b t < s.acc.cfg.stuckBatchTimeout) {fuel : ℕ}
    (hfuel : 2 ^ 32 < fuel)
    (hpicks : ∀ t, FuelLoop.Visits (flushBody env clock fuel) s t → ¬S.PicksOver t.acc) :
    ∃ r, s.acc.tryFlushBatches env clock fuel s.cache s.out = some r ∧
      r.acc.cfg = s.acc.cfg ∧ ∃ j, Served S sets j base r ∧ S.InOrder j r.acc (base ++ r.out) := by
  refine FuelLoop.run_total
    (fun t : CallState C => FuelLoop.Visits (flushBody env clock fuel) s t ∧
      t.acc.cfg = s.acc.cfg ∧ ∃ j, Served S sets j base t ∧ S.InOrder j t.acc (base ++ t.out)) _
    (fun t => S.shreds - t.acc.batchStart) ?_ fuel s ⟨.start, rfl, k, h, hin⟩
    (S.shreds_sub_lt hfuel _)
  rintro t ⟨hvisits, hcfg, j, ht, hint⟩
  rcases SlotAccumulator.flushBody_cases env clock hfuel t (fun i hi => ht.boundary_lt hi) with
    ⟨-, hbody⟩ | ⟨bcIdx, first, acc', cache', hfirst, hfill, hcases⟩
  · exact .inr ⟨t, hbody, hcfg, j, ht, hint⟩
  have hserved := ht.flushFill hp hrs clock bcIdx
  have hrefill := refilled_flushFill env t.acc clock t.cache bcIdx
  have hmem {i : ℕ} (hi : i ∈ (t.acc.flushFill env clock t.cache bcIdx).1.pending) :=
    mem_flushFill hrs ht.fromSets ht.cache hi
  rw [hfill] at hserved hrefill hmem
  have hin' := hint.refilled hrefill
  have hcfg' : acc'.cfg = s.acc.cfg := hrefill.cfg.trans hcfg
  obtain ⟨hbc, hge, hmin⟩ := BTreeMap.firstFrom_spec _ hfirst
  rw [← hrefill.batchStart] at hcases
  rcases hcases with ⟨-, -, hbody⟩ | ⟨-, hlate, -⟩ | ⟨hall, counters, hbody⟩
  · exact .inr ⟨_, hbody, hcfg', j, hserved, hin'⟩
  · rw [hcfg'] at hlate
    exact absurd (htime bcIdx first) (not_lt.mpr hlate)
  · have hbmem := t.acc.batchCompleteIndices.mem_iff_getElem?.mpr ⟨first, hbc⟩
    have hends := ((ht.boundary bcIdx).mp hbmem).2
    -- a batch end in front of the boundary was missing and recoverable
    have hno : ¬∃ b, S.EndsBatch b ∧ acc'.batchStart ≤ b ∧ b < bcIdx := by
      rw [hrefill.batchStart] at hall ⊢
      rintro ⟨b, hb, hge', hlt⟩
      refine hpicks t hvisits ⟨bcIdx, first, hfirst, hends, ⟨b, hb, hge', hlt, fun hpend => ?_⟩,
        fun i h1 h2 => hmem (hall i h1 h2)⟩
      have := hmin b ((ht.boundary b).mpr ⟨hpend, hb⟩) hge'
      omega
    have hb : bcIdx ∈ acc'.batchCompleteIndices := (hserved.boundary bcIdx).mpr
      ⟨hall bcIdx (by rwa [hrefill.batchStart]) le_rfl, hends⟩
    obtain ⟨hj, hend⟩ := hserved.end_of_present (by rwa [hrefill.batchStart]) hb hno
    obtain ⟨hnext, hinext⟩ := hserved.finalise_whole hin' hw hb hj hend hall counters
    refine .inl ⟨_, hbody, ⟨.next hvisits hbody, hcfg', j + 1, hnext, hinext⟩, ?_⟩
    rw [hnext.batchStart, ht.batchStart]
    exact S.shreds_sub_start_lt (Nat.lt_succ_self j) hnext.k_le

end Served

/-! ## Calls -/

/-- No flush of the call goes over two batches at once. -/
def OneAtATime (env : Env C) (clock : Clock) (fuel : ℕ) (S : Slot env.wincode)
    (acc : SlotAccumulator) (cache : ReedSolomonCache C) (c : Call) : Prop :=
  ∀ t, FlushesAt env clock fuel acc cache c t → ¬S.PicksOver t.acc

theorem Between.call_inOrder (h : Between S sets k s) (hin : S.InOrder k s.acc s.out)
    (hw : env.wincode.Lawful) (hp : Protects S sets) (hrs : env.reedSolomon.Rebuilds parity)
    {c : Call} (hsends : Sends S sets c)
    (htime : ∀ b t, clock.elapsed b t < s.acc.cfg.stuckBatchTimeout) {fuel : ℕ}
    (hfuel : 2 ^ 32 < fuel) (hone : OneAtATime env clock fuel S s.acc s.cache c) :
    ∃ r, s.acc.call env clock fuel s.cache c = some r ∧ r.acc.cfg = s.acc.cfg ∧
      ∃ j, Between S sets j { r with out := s.out ++ r.out } ∧
        S.InOrder j r.acc (s.out ++ r.out) := by
  rcases h.enters hw hp hrs h.consistent h.clear h.parsed hsends clock hfuel with
    ⟨b, hcall⟩ | ⟨s₁, henters, hserved, -, -, hflush⟩
  · refine ⟨_, hcall, rfl, k, h.call hsends hcall (h.toServed.dropHandle b), ?_⟩
    rw [List.append_nil]
    exact hin
  · have hin₁ := h.toServed.enters_inOrder hin hw hp hrs h.consistent h.clear h.parsed hsends hfuel
      henters
    have hcfg : s₁.acc.cfg = s.acc.cfg := henters.cfg h.parsed hsends.sent.parsed
    obtain ⟨r, hr, hrcfg, j, hserved', hin'⟩ := hserved.flush_inOrder hin₁ hw hp hrs
      (by rwa [hcfg]) hfuel fun t hvisits => hone t ⟨s₁, henters, hvisits⟩
    obtain ⟨r', hcall, rfl | ⟨b, rfl⟩⟩ := hflush r hr
    · exact ⟨_, hcall, hrcfg.trans hcfg, j, h.call hsends hcall hserved', hin'⟩
    · exact ⟨_, hcall, hrcfg.trans hcfg, j, h.call hsends hcall (hserved'.dropHandle b), hin'⟩

/-- Behind the ledger up to batch `k` there is a beginning of that batch. -/
theorem InOrder.ledger {acc : SlotAccumulator} {out : List VersionedTransaction}
    (h : S.InOrder k acc out) (ht : S.Aligned k acc) (hw : env.wincode.Lawful) :
    ∃ p, p <+: S.txs k ∧ out = S.txsBefore k ++ p := by
  refine ⟨_, ?_, h⟩
  rcases Nat.lt_or_eq_of_le ht.k_le with hlt | heq
  · exact S.streamed_isPrefix hw hlt _
  · have hcur := ht.cursor_le
    rw [heq, S.stop_batches, ← heq] at hcur
    rw [S.streamed_of_le hcur]
    exact List.nil_prefix

/-! ## Runs -/

/-- What a run leaves. -/
theorem run_inOrder (hw : env.wincode.Lawful) (hrs : env.reedSolomon.Rebuilds parity)
    (hp : Protects S sets) (cfg : AccumulatorConfig) {cache : ReedSolomonCache C}
    (hcache : cache.Valid env.reedSolomon) {calls : List (Clock × Call)}
    (hcalls : ∀ c ∈ calls, Sends S sets c.2 ∧ ∀ b t, c.1.elapsed b t < cfg.stuckBatchTimeout)
    {fuel : ℕ} (hfuel : 2 ^ 32 < fuel)
    (hone : ∀ pre c post s, calls = pre ++ c :: post →
      runCalls env fuel (.fresh cfg cache) pre = some s →
        OneAtATime env c.1 fuel S s.acc s.cache c.2) :
    ∃ r, runCalls env fuel (.fresh cfg cache) calls = some r ∧ r.acc.cfg = cfg ∧
      ∃ k, Between S sets k r ∧ S.InOrder k r.acc r.out := by
  apply runCalls_returns
  · exact ⟨rfl, 0, between_fresh cfg hcache, S.inOrder_withConfig cfg⟩
  · rintro pre c post s hsplit hpre ⟨hcfg, k, hs, hin⟩
    have hmem : c ∈ calls := by
      rw [hsplit]
      exact List.mem_append_right _ List.mem_cons_self
    obtain ⟨hsends, htime⟩ := hcalls c hmem
    obtain ⟨r, hr, hrcfg, hj⟩ := hs.call_inOrder hin hw hp hrs hsends (by rwa [hcfg]) hfuel
      (hone pre c post s hsplit hpre)
    exact ⟨r, hr, hrcfg.trans hcfg, hj⟩

/-- Whatever is lost, repeated or out of order, and whatever is recovered: as long as no
    flush goes over two batches at once and no batch is found stuck, what is returned
    is the ledger of the slot up to a beginning of some batch. -/
theorem recovery_keeps_order (hw : env.wincode.Lawful) (hrs : env.reedSolomon.Rebuilds parity)
    (hp : Protects S sets) (cfg : AccumulatorConfig) {cache : ReedSolomonCache C}
    (hcache : cache.Valid env.reedSolomon) {calls : List (Clock × Call)}
    (hcalls : ∀ c ∈ calls, Sends S sets c.2 ∧ ∀ b t, c.1.elapsed b t < cfg.stuckBatchTimeout)
    {fuel : ℕ} (hfuel : 2 ^ 32 < fuel)
    (hone : ∀ pre c post s, calls = pre ++ c :: post →
      runCalls env fuel (.fresh cfg cache) pre = some s →
        OneAtATime env c.1 fuel S s.acc s.cache c.2) :
    ∃ r, runCalls env fuel (.fresh cfg cache) calls = some r ∧
      ∃ k, S.start k = r.acc.batchStart ∧ ∃ p, p <+: S.txs k ∧ r.out = S.txsBefore k ++ p := by
  obtain ⟨r, hr, -, k, hbetween, hin⟩ := run_inOrder hw hrs hp cfg hcache hcalls hfuel hone
  exact ⟨r, hr, k, hbetween.batchStart.symm, hin.ledger hbetween.toAligned hw⟩

/-! ## Data shreds in front of code shreds -/

/-- The sets of the code shreds handed over. -/
def codeSets (calls : List (Clock × Call)) : List ℕ :=
  calls.filterMap fun c =>
    match c.2 with
    | .code a => some a.fecSetIndex
    | _ => none

theorem codeSets_append (calls calls' : List (Clock × Call)) :
    codeSets (calls ++ calls') = codeSets calls ++ codeSets calls' := List.filterMap_append

/-- The first call hands over a code shred, and the second one a data shred of its set. -/
def Overtakes (c c' : Clock × Call) : Bool :=
  match c.2, c'.2 with
  | .code a, .data a' => a'.fecSetIndex = a.fecSetIndex
  | _, _ => false

/-- No code shred overtakes a data shred of its set. -/
def DataFirst (calls : List (Clock × Call)) : Prop := calls.Pairwise fun c c' => ¬Overtakes c c'

instance (calls : List (Clock × Call)) : Decidable (DataFirst calls) :=
  inferInstanceAs (Decidable (List.Pairwise _ _))

theorem DataFirst.not_mem {pre : List (Clock × Call)} {c : Clock × Call}
    {post : List (Clock × Call)} (h : DataFirst (pre ++ c :: post)) {a : DataArgs}
    (ha : c.2 = .data a) : a.fecSetIndex ∉ codeSets pre := by
  intro hmem
  obtain ⟨c', hc', hset⟩ := List.mem_filterMap.mp hmem
  have hno := (List.pairwise_append.mp h).2.2 c' hc' c List.mem_cons_self
  cases hc : c'.2 with
  | code a' =>
    rw [hc] at hset
    have hset' : a'.fecSetIndex = a.fecSetIndex := Option.some.inj hset
    simp [Overtakes, hc, ha, hset'] at hno
  | data a' => simp [hc] at hset
  | harvest => simp [hc] at hset

/-- Nothing that is missing can be recovered, and what is recorded was handed over. -/
structure Exhausted (sets : FecSets env.reedSolomon parity) (pre : List (Clock × Call))
    (acc : SlotAccumulator) : Prop where
  filled : ∀ F, sets.set F.fecSetIndex = some F → Filled F acc
  sent : ∀ (i : ℕ) (fec : FecSetBuffer), acc.fecSets[i]? = some fec → i ∈ codeSets pre

namespace Exhausted

variable {acc : SlotAccumulator} {cache : ReedSolomonCache C} {fuel : ℕ}
  {pre : List (Clock × Call)} {c : Clock × Call}

theorem fresh (sets : FecSets env.reedSolomon parity) (cfg : AccumulatorConfig) :
    Exhausted sets [] (withConfig cfg) where
  filled F _ := filled_withConfig cfg
  sent i fec h := by simp [withConfig] at h

/-- What opening a call records was handed over by the call. -/
theorem sent_opens (h : Exhausted sets pre acc) {acc₀ : SlotAccumulator}
    (ho : Opens c.1 acc c.2 acc₀) (i : ℕ) (fec : FecSetBuffer)
    (hfec : acc₀.fecSets[i]? = some fec) : i ∈ codeSets (pre ++ [c]) := by
  obtain ⟨clock, c⟩ := c
  rw [codeSets_append, List.mem_append]
  cases ho with
  | @code a =>
    rcases acc.getElem?_recordCode hfec with ⟨-, hold⟩ | ⟨rfl, -⟩
    · exact .inl (h.sent i fec hold)
    · exact .inr (List.mem_singleton.mpr rfl)
  | _ => exact .inl (h.sent i fec hfec)

theorem steps {s s' : CallState C} (h : Exhausted sets pre s.acc) (hsteps : Steps env clock s s')
    (hc : s.acc.Consistent) (hrs : env.reedSolomon.Rebuilds parity) (hs : SetState sets s) :
    Exhausted sets pre s'.acc where
  filled F hF := hsteps.filled hc hrs hs hF (h.filled F hF)
  sent i fec hfec := h.sent i fec (hsteps.fecSets_sub hfec)

/-- If data shreds come first, a call recovers what it can before it flushes. -/
theorem enters (h : Exhausted sets pre acc) (hrs : env.reedSolomon.Rebuilds parity)
    (hs : SetState sets ⟨acc, cache, []⟩) (hp : acc.Parsed) (hc : acc.Consistent)
    (hsent : c.2.Sent sets) (hfirst : ∀ a, c.2 = .data a → a.fecSetIndex ∉ codeSets pre)
    (henters : EntersFlush env c.1 fuel acc cache c.2 s) :
    Exhausted sets (pre ++ [c]) s.acc ∧ s.acc.Consistent ∧ SetState sets s := by
  obtain ⟨acc₀, ho, hsteps⟩ := henters.steps hp hsent.parsed
  have hc₀ := (hc.opens ho).1
  have hs₀ : SetState sets ⟨acc₀, cache, []⟩ := ⟨ho.fromSets hs.fromSets hsent, hs.cache⟩
  refine ⟨⟨fun F hF => ?_, fun i fec hfec => h.sent_opens ho i fec (hsteps.fecSets_sub hfec)⟩,
    (hsteps.consistent hc₀).1, hsteps.setState hrs hs₀⟩
  by_cases hne : c.2.setIndex = some F.fecSetIndex
  · obtain ⟨clock, c⟩ := c
    cases c with
    | data a =>
      -- no code shred of the set was handed over
      have hset : a.fecSetIndex = F.fecSetIndex := by
        have hne' : (if a.lastInSlot then none else some a.fecSetIndex) = some F.fecSetIndex := hne
        split_ifs at hne'
        exact Option.some.inj hne'
      intro fec hfec
      have hfec₀ := hsteps.fecSets_sub hfec
      have hold : acc.fecSets[F.fecSetIndex]? = some fec := by
        cases ho with
        | last => exact hfec₀
        | data => exact hfec₀
      exact absurd (hset ▸ h.sent _ fec hold) (hfirst a rfl)
    | code a =>
      have hset : a.fecSetIndex = F.fecSetIndex := Option.some.inj hne
      have ho' : Opens clock acc (.code a) (acc.recordCode a) := .code
      cases henters with
      | code hres =>
        exact resume_filled (s := ⟨acc.recordCode a, cache, []⟩) (ho'.parsed hp hsent.parsed)
          (hc.recordCode a) hrs ⟨ho'.fromSets hs.fromSets hsent, hs.cache⟩ hF (.inl hset) hres
    | harvest => cases hne
  · exact hsteps.filled hc₀ hrs hs₀ hF (ho.filled (h.filled F hF) hne)

/-- Then there is nothing a flush could recover. -/
theorem not_picksOver (h : Exhausted sets pre acc) (hp : Protects S sets)
    (hs : FromSets sets acc) : ¬S.PicksOver acc := by
  rintro ⟨bcIdx, t, -, hends, ⟨b, hb, hge, hlt, hnew⟩, hall⟩
  rcases hall b hge hlt.le with hpend | ⟨setIdx, fec, hfec, hcan, hle, hlt'⟩
  · exact hnew hpend
  obtain ⟨F, hF, hrecords⟩ := hs.recorded setIdx fec hfec
  obtain rfl := sets.fecSetIndex hF
  unfold FecSetBuffer.canRecoverWith at hcan
  simp only [Bool.and_eq_true, decide_eq_true_eq, hrecords.numData] at hcan hlt'
  have hidx : F.fecSetIndex + (b - F.fecSetIndex) = b := Nat.add_sub_cancel' hle
  have hp' : b - F.fecSetIndex < F.numData := by omega
  apply h.filled F hF fec hfec hcan.2 (b - F.fecSetIndex) hp'
  refine ⟨by rwa [hidx], by rwa [hidx], ?_⟩
  -- a later batch follows
  rw [← Bool.not_eq_true, hp.lastInSlot F hF _ hp', hidx]
  rintro ⟨-, hlast⟩
  obtain ⟨k, hk, hend⟩ := hends
  have hle := S.start_mono (show k + 1 ≤ S.batches by omega) le_rfl
  have hshreds : S.shreds = S.start S.batches := rfl
  omega

/-- So no flush of the call goes over two batches at once. -/
theorem oneAtATime (h : Exhausted sets pre acc) (hp : Protects S sets)
    (hrs : env.reedSolomon.Rebuilds parity) (hs : SetState sets ⟨acc, cache, []⟩)
    (hparsed : acc.Parsed) (hc : acc.Consistent) (hsent : c.2.Sent sets)
    (hfirst : ∀ a, c.2 = .data a → a.fecSetIndex ∉ codeSets pre) :
    OneAtATime env c.1 fuel S acc cache c.2 := by
  rintro t ⟨s₀, henters, hvisits⟩
  obtain ⟨hex₀, hc₀, hs₀⟩ := h.enters hrs hs hparsed hc hsent hfirst henters
  have hsteps : Steps env c.1 s₀ t := hvisits.invariant (I := fun t => Steps env c.1 s₀ t) .refl
    fun _ _ ht hbody => ht.trans (flushBody_steps hbody)
  exact (hex₀.steps hsteps hc₀ hrs hs₀).not_picksOver hp (hsteps.setState hrs hs₀).fromSets

/-- A call that returns recovers what it can. -/
theorem call (h : Exhausted sets pre acc) (hrs : env.reedSolomon.Rebuilds parity)
    (hs : SetState sets ⟨acc, cache, []⟩) (hp : acc.Parsed) (hc : acc.Consistent)
    (hsent : c.2.Sent sets) (hfirst : ∀ a, c.2 = .data a → a.fecSetIndex ∉ codeSets pre)
    {r : CallState C} (hr : acc.call env c.1 fuel cache c.2 = some r) :
    Exhausted sets (pre ++ [c]) r.acc := by
  rcases packet_flushes hsent.ne_harvest hr with
    ⟨a, -, -, rfl⟩ | ⟨s₀, s', henters, hflush, hr⟩
  · refine ⟨h.filled, fun i fec hfec => ?_⟩
    rw [codeSets_append]
    exact List.mem_append_left _ (h.sent i fec hfec)
  · obtain ⟨hex, hc₀, hs₀⟩ := h.enters hrs hs hp hc hsent hfirst henters
    have hex' := hex.steps (tryFlushBatches_steps hflush) hc₀ hrs hs₀
    rcases hr with rfl | ⟨a, -, rfl⟩
    · exact hex'
    · exact ⟨hex'.filled, hex'.sent⟩

theorem run (hrs : env.reedSolomon.Rebuilds parity) (cfg : AccumulatorConfig)
    (hcache : cache.Valid env.reedSolomon) {calls : List (Clock × Call)} :
    ∀ {s : CallState C}, (∀ c ∈ calls, c.2.Sent sets) → DataFirst calls →
      runCalls env fuel (.fresh cfg cache) calls = some s → Exhausted sets calls s.acc := by
  induction calls using List.reverseRecOn with
  | nil =>
    rintro s - - hrun
    cases hrun
    exact .fresh sets cfg
  | append_singleton calls c ih =>
    intro s hcalls hfirst hrun
    rw [runCalls_append, Option.bind_eq_some_iff] at hrun
    obtain ⟨s₁, hpre, hlast⟩ := hrun
    obtain ⟨r, hr, hlast⟩ := Option.bind_eq_some_iff.mp hlast
    cases hlast
    rw [List.forall_mem_append] at hcalls
    have hex := ih hcalls.1 (List.pairwise_append.mp hfirst).1 hpre
    obtain ⟨hs, hp, hc⟩ := run_setState hrs cfg hcache hcalls.1 hpre
    have hex' := hex.call hrs hs hp hc (hcalls.2 c (List.mem_singleton.mpr rfl))
      (fun a ha => hfirst.not_mem ha) hr
    exact hex'

end Exhausted

/-- If data shreds come first, no flush goes over two batches at once. -/
theorem oneAtATime_of_dataFirst (hrs : env.reedSolomon.Rebuilds parity) (hp : Protects S sets)
    (cfg : AccumulatorConfig) {cache : ReedSolomonCache C} (hcache : cache.Valid env.reedSolomon)
    {calls : List (Clock × Call)} (hcalls : ∀ c ∈ calls, c.2.Sent sets) (hfirst : DataFirst calls)
    {fuel : ℕ} (pre : List (Clock × Call)) (c : Clock × Call) (post : List (Clock × Call))
    (s : CallState C) (hsplit : calls = pre ++ c :: post)
    (hpre : runCalls env fuel (.fresh cfg cache) pre = some s) :
    OneAtATime env c.1 fuel S s.acc s.cache c.2 := by
  rw [hsplit] at hfirst hcalls
  rw [List.forall_mem_append, List.forall_mem_cons] at hcalls
  have hex := Exhausted.run hrs cfg hcache hcalls.1 (List.pairwise_append.mp hfirst).1 hpre
  obtain ⟨hs, hparsed, hc⟩ := run_setState hrs cfg hcache hcalls.1 hpre
  exact hex.oneAtATime hp hrs hs hparsed hc hcalls.2.1 fun a ha => hfirst.not_mem ha

/-- The first batch of `twoBatches` with its second shred lost, then the second batch. -/
theorem recovery_keeps_order_twoBatches :
    ∃ r, runCalls FecSet.pairEnv (2 ^ 32 + 1) (.fresh {} {})
        (packets [some 0, none, some 3, some 2]) = some r ∧
      ∃ k, twoBatches.start k = r.acc.batchStart ∧
        ∃ p, p <+: twoBatches.txs k ∧ r.out = twoBatches.txsBefore k ++ p := by
  have hrs : FecSet.pairEnv.reedSolomon.Rebuilds pairParity := pairCrate_rebuilds
  have hcache : ReedSolomonCache.Valid FecSet.pairEnv.reedSolomon {} := fun e he => by cases he
  have hsends := sends_packets [some 0, none, some 3, some 2]
  have hfirst : DataFirst (packets [some 0, none, some 3, some 2]) := by
    decide +kernel
  exact recovery_keeps_order LegacyWire.wincode_lawful hrs protects_twoBatches {} hcache
    (fun c hc => ⟨hsends c hc, still_packets _ c hc⟩) (by decide)
    (oneAtATime_of_dataFirst hrs protects_twoBatches {} hcache (fun c hc => (hsends c hc).sent)
      hfirst)

end Slot

end ShredStream
