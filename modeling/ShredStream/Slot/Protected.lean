import ShredStream.Accumulator.Additions
import ShredStream.Accumulator.LostShreds
import ShredStream.Accumulator.Refills
import ShredStream.Slot.Build

/-!
# A slot protected by FEC sets

`Protects S sets`: the packets of the honest sets are shreds of the slot. Then what
is recovered is a shred of the slot as well, and an accumulator that follows the slot
does so whatever is lost and recovered.

* `Served.enters`: a call is dropped or reaches its flush, having yielded what the
  cursor passed (`Served`) and all that arrived in one piece (`HeadServed`).
* `mem_flushFill`: all that the recoveries of a flush add is `Recoverable` before.
-/

namespace ShredStream

open FirstByKey SlotAccumulator

/-! ## What recovery can add -/

namespace SlotAccumulator

variable {C : Type} {env : Env C} {clock : Clock} {acc acc' : SlotAccumulator}
  {cache : ReedSolomonCache C} {parity : ℕ → ℕ → List Bytes → List Bytes}
  {sets : FecSets env.reedSolomon parity}

/-- A recorded set of which enough shreds are at hand covers the index. -/
def Recoverable (acc : SlotAccumulator) (i : ℕ) : Prop :=
  ∃ setIdx fec, acc.fecSets[setIdx]? = some fec ∧
    fec.canRecoverWith (acc.dataCountFor setIdx fec) = true ∧
    setIdx ≤ i ∧ i < setIdx + fec.numData

/-- The shred is pending and was not recovered. -/
def Received (acc : SlotAccumulator) (i : ℕ) : Prop :=
  ∃ ps, acc.pending[i]? = some ps ∧ ps.source.isRecovered = false

/-- An attempt at recovery makes nothing recoverable. -/
theorem Recoverable.of_fill {hint i : ℕ}
    (h : (acc.tryFecFill env clock cache hint).1.Recoverable i) : acc.Recoverable i := by
  obtain ⟨setIdx, fec, hfec', hcan, hle, hlt⟩ := h
  have hfec := tryFecFill_fecSets env clock acc cache hint setIdx hfec'
  refine ⟨setIdx, fec, hfec, ?_, hle, hlt⟩
  by_cases hsel : acc.selectRecoverableSet hint = some setIdx
  · obtain ⟨fec₀, hfec₀, hcan₀⟩ := selectRecoverableSet_spec hsel
    rw [hfec] at hfec₀
    cases hfec₀
    exact hcan₀
  · exact canRecoverWith_mono hcan
      (dataCountFor_le fec fun k ps hps hset => tryFecFill_others hsel k ps hset hps)

theorem mem_tryFecFill (hs : FromSets sets acc) (hint : ℕ) {i : ℕ} :
    i ∈ (acc.tryFecFill env clock cache hint).1.pending → i ∈ acc.pending ∨ acc.Recoverable i := by
  rcases tryFecFill_cases env acc clock cache hint with
    ⟨cache', counters, hfill⟩ | ⟨setIdx, fec, cache', recovered, hsel, hfec, hrec, hfill⟩
  · rw [hfill]
    exact .inl
  obtain ⟨fec₀, hfec₀, hcan⟩ := selectRecoverableSet_spec hsel
  rw [hfec] at hfec₀
  cases hfec₀
  obtain ⟨F, hF, hrecords⟩ := hs.recorded setIdx fec hfec
  obtain rfl := sets.fecSetIndex hF
  have hfold : i ∈ (recovered.foldl (insertRecovered clock F.fecSetIndex) (acc, false)).1.pending →
      i ∈ acc.pending ∨ acc.Recoverable i := by
    refine foldl_insertRecovered_invariant
      (I := fun acc₁ => i ∈ acc₁.pending → i ∈ acc.pending ∨ acc.Recoverable i) ?_ .inl
    intro r hr acc₁ acc₂ h₁ hinserts
    have hpos := FecSetBuffer.pos_lt_of_tryReconstruct hrec r hr
    have hend := F.index_lt
    rw [hrecords.numData] at hpos
    have hidx : wrapAdd32 F.fecSetIndex r.1 = F.fecSetIndex + r.1 := wrapAdd32_of_lt (by omega)
    cases hinserts with
    | skip => exact h₁
    | last => exact h₁
    | store =>
      intro hi
      rcases Std.ExtTreeMap.mem_insert.mp hi with heq | hi
      · rw [Nat.compare_eq_eq, hidx] at heq
        exact .inr ⟨F.fecSetIndex, fec, hfec, hcan, by omega, by rw [hrecords.numData]; omega⟩
      · exact h₁ hi
  rcases hfill with hfill | ⟨counters, hfill⟩
  · rw [hfill]
    exact hfold
  · rw [hfill]
    exact hfold

theorem mem_fillHints (hrs : env.reedSolomon.Rebuilds parity) {hints : List ℕ} {i : ℕ} :
    ∀ {acc : SlotAccumulator} {cache : ReedSolomonCache C}, FromSets sets acc →
      cache.Valid env.reedSolomon → i ∈ (fillHints env clock acc cache hints).1.pending →
      i ∈ acc.pending ∨ acc.Recoverable i := by
  induction hints with
  | nil => exact fun _ _ hi => .inl hi
  | cons hint hints ih =>
    intro acc cache hs hcache hi
    rcases ih (hs.tryFecFill hrs hcache hint) (tryFecFill_cache_valid acc hcache hint) hi with
      hi | hi
    · exact mem_tryFecFill hs hint hi
    · exact .inr hi.of_fill

/-- What a flush finds pending was pending or recoverable before its recoveries. -/
theorem mem_flushFill (hrs : env.reedSolomon.Rebuilds parity) (hs : FromSets sets acc)
    (hcache : cache.Valid env.reedSolomon) {bcIdx i : ℕ}
    (hi : i ∈ (acc.flushFill env clock cache bcIdx).1.pending) :
    i ∈ acc.pending ∨ acc.Recoverable i := by
  unfold flushFill at hi
  split_ifs at hi
  · exact mem_fillHints hrs hs hcache hi
  · exact .inl hi

/-- The transactions that `try_flush_batches` and `try_harvest_tail` find up to a
    boundary: those of a batch, or those of the runs there are. -/
inductive Finds (env : Env C) (acc : SlotAccumulator) (bcIdx : ℕ) : List VersionedTransaction → Prop
  | batch : (∀ i, acc.batchStart ≤ i → i ≤ bcIdx → i ∈ acc.pending) →
      Finds env acc bcIdx (batchTxs env.wincode (acc.combined acc.batchStart bcIdx))
  | runs : (∃ i, acc.batchStart ≤ i ∧ i ≤ bcIdx ∧ i ∉ acc.pending) →
      Finds env acc bcIdx (acc.salvaged env acc.batchStart (bcIdx + 1))

end SlotAccumulator

namespace Slot

variable {C : Type} {env : Env C} {parity : ℕ → ℕ → List Bytes → List Bytes}

/-! ## Honest sets of the slot -/

/-- The packets of the sets are shreds of the slot. -/
structure Protects (S : Slot env.wincode) (sets : FecSets env.reedSolomon parity) : Prop where
  index_lt : ∀ F, sets.set F.fecSetIndex = some F → ∀ p < F.numData, F.fecSetIndex + p < S.shreds
  payload : ∀ F, sets.set F.fecSetIndex = some F → ∀ p < F.numData,
    (F.shred p).payload = S.payload (F.fecSetIndex + p)
  batchComplete : ∀ F, sets.set F.fecSetIndex = some F → ∀ p < F.numData,
    ((F.shred p).batchComplete = true ↔ S.EndsBatch (F.fecSetIndex + p))
  lastInSlot : ∀ F, sets.set F.fecSetIndex = some F → ∀ p < F.numData,
    ((F.shred p).lastInSlot = true ↔ S.IsLast (F.fecSetIndex + p))

/-- A call with a data shred of the slot, or with a code shred of one of the sets. -/
structure Sends (S : Slot env.wincode) (sets : FecSets env.reedSolomon parity) (c : Call) :
    Prop where
  sent : c.Sent sets
  genuine : ∀ a, c = .data a → S.Genuine a

variable {S : Slot env.wincode} {sets : FecSets env.reedSolomon parity} {clock : Clock} {k : ℕ}
  {base : List VersionedTransaction} {s : CallState C}

/-- What is recovered is a shred of the slot. -/
theorem Protects.holds (hp : Protects S sets) {F : FecSet parity}
    (hF : sets.set F.fecSetIndex = some F) {p : ℕ} (hlt : p < F.numData)
    (hlast : (F.shred p).lastInSlot = false) : S.Holds (F.fecSetIndex + p) (F.recoveredShred p) where
  index_lt := hp.index_lt F hF p hlt
  not_last := by rw [← hp.lastInSlot F hF p hlt, hlast]; simp
  payload := by rw [(F.matches_recoveredShred hlt).payload, hp.payload F hF p hlt]
  batchComplete := hp.batchComplete F hF p hlt

theorem Protects.genuine (hp : Protects S sets) {F : FecSet parity}
    (hF : sets.set F.fecSetIndex = some F) {p : ℕ} (hlt : p < F.numData) (buf : ℕ) :
    S.Genuine (F.dataArgs buf p) := by
  have hidx : (F.dataArgs buf p).index = F.fecSetIndex + p := F.data_index p hlt
  refine ⟨?_, ?_, ?_, ?_⟩
  · rw [hidx]
    exact hp.index_lt F hF p hlt
  · rw [hidx, (F.matches_dataArgs hlt buf).payload, hp.payload F hF p hlt]
  · rw [hidx]
    exact hp.batchComplete F hF p hlt
  · rw [hidx]
    exact hp.lastInSlot F hF p hlt

theorem Protects.sends_data (hp : Protects S sets) {F : FecSet parity}
    (hF : sets.set F.fecSetIndex = some F) {p : ℕ} (hlt : p < F.numData) (buf : ℕ) :
    Sends S sets (.data (F.dataArgs buf p)) where
  sent := .data hF hlt
  genuine := by
    rintro a ⟨⟩
    exact hp.genuine hF hlt buf

theorem sends_code {F : FecSet parity} (hF : sets.set F.fecSetIndex = some F) {q : ℕ}
    (hq : q < F.numCoding) : Sends S sets (.code (F.codeArgs q)) where
  sent := .code hF hq
  genuine := by rintro a ⟨⟩

theorem Aligned.tryFecFill (h : S.Aligned k s.acc) (hp : Protects S sets)
    (hrs : env.reedSolomon.Rebuilds parity) (hs : SetState sets s) (hint : ℕ) :
    S.Aligned k (s.acc.tryFecFill env clock s.cache hint).1 := by
  apply tryFecFill_invariant env s.acc clock s.cache hint h
  · intro setIdx fec cache' recovered r acc₁ acc₂ hfec hrec hr h₁ hinserts
    obtain ⟨F, hF, -⟩ := hs.fromSets.recorded setIdx fec hfec
    obtain rfl := sets.fecSetIndex hF
    obtain ⟨hlt, hbytes⟩ := (hs.fromSets.genuine hF hfec).recovered_eq hrs hs.cache hrec r hr
    have hidx : wrapAdd32 F.fecSetIndex r.1 = F.fecSetIndex + r.1 :=
      wrapAdd32_of_lt (by have := F.index_lt; omega)
    cases hinserts with
    | skip => exact h₁
    | last => exact { h₁ with }
    | @store d hge hnew hparse hlast =>
      rw [hbytes, F.parseKind_rebuilt hlt] at hparse
      cases hparse
      rw [hidx] at hge hnew ⊢
      rw [hbytes]
      exact h₁.insert (hp.holds hF hlt hlast) hge hnew (clock.now _)
  · exact fun _ _ h₁ => { h₁ with }
  · exact fun _ _ h₁ => { h₁ with }

/-- An accumulator that follows the slot keeps to it over recoveries. -/
theorem Tracks.tryFecFill (h : S.Tracks k s.acc) (hp : Protects S sets)
    (hrs : env.reedSolomon.Rebuilds parity) (hs : SetState sets s) (hint : ℕ) :
    S.Tracks k (s.acc.tryFecFill env clock s.cache hint).1 := by
  have hrefill := refilled_tryFecFill env s.acc clock s.cache hint
  refine ⟨h.toAligned.tryFecFill hp hrs hs hint, ?_, ?_⟩
  · rw [hrefill.decoder, hrefill.cursor]
    exact h.decoder
  · rw [hrefill.sigs, hrefill.cursor]
    exact h.yielded

/-- The cursor that has passed no boundary is inside the batch, or at a gap. -/
theorem Aligned.before_stop {acc : SlotAccumulator} (h : S.Aligned k acc) (hu : acc.Unpassed) :
    acc.streamingCursor < S.stop k ∨ acc.streamingCursor ∉ acc.pending := by
  by_contra hno
  rw [not_or, not_lt, not_not] at hno
  obtain ⟨ps, hps⟩ := acc.pending.mem_iff_getElem?.mp hno.2
  have hstop : acc.streamingCursor = S.stop k := le_antisymm h.cursor_le hno.1
  have hk : k < S.batches := by
    by_contra hge
    have hlt := (h.holds _ ps hps).2.index_lt
    rw [hstop, show k = S.batches by have := h.k_le; omega, S.stop_batches] at hlt
    exact absurd hlt (lt_irrefl _)
  rw [S.stop_of_lt hk] at hstop
  have hlt := S.start_lt k hk
  -- the batch was streamed up to its end, which is a boundary
  obtain ⟨ps', hps', -⟩ := h.streamed (S.start (k + 1) - 1) (by omega) (by omega)
  have hb := (h.boundary _).mpr ⟨acc.pending.mem_iff_getElem?.mpr ⟨ps', hps'⟩, S.endsBatch_start hk⟩
  have := hu _ hb
  omega

/-! ## What streaming has returned -/

/-- The state of an accumulator that follows the slot and holds what the sets gave;
    `base` was returned before. -/
structure Served (S : Slot env.wincode) (sets : FecSets env.reedSolomon parity) (k : ℕ)
    (base : List VersionedTransaction) (s : CallState C) : Prop
    extends S.Tracks k s.acc, SetState sets s where
  streamed_mem : ∀ tx ∈ S.streamed k s.acc.streamingCursor, tx ∈ base ++ s.out

/-- What the shreds that arrived in one piece from the batch start on complete was
    returned. -/
def HeadServed (S : Slot env.wincode) (k : ℕ) (acc : SlotAccumulator)
    (out : List VersionedTransaction) : Prop :=
  ∀ c, (∀ i, S.start k ≤ i → i < c → acc.Received i) → ∀ tx ∈ S.streamed k c, tx ∈ out

theorem served_fresh (cfg : AccumulatorConfig) {cache : ReedSolomonCache C}
    (hcache : cache.Valid env.reedSolomon) : Served S sets 0 [] (CallState.fresh cfg cache) where
  toTracks := S.tracks_withConfig cfg
  fromSets := fromSets_withConfig cfg
  cache := hcache
  streamed_mem tx htx := by
    have h := S.streamed_start 0
    rw [S.start_zero] at h
    have htx' : tx ∈ S.streamed 0 0 := htx
    rw [h] at htx'
    cases htx'

/-- When the first shred of the batch is missing, nothing is in one piece. -/
theorem headServed_of_missing {acc : SlotAccumulator} {out : List VersionedTransaction}
    (h : ¬acc.Received (S.start k)) : HeadServed S k acc out := by
  intro c hall tx htx
  rcases Nat.lt_or_ge (S.start k) c with hlt | hge
  · exact absurd (hall _ le_rfl hlt) h
  · rw [S.streamed_of_le hge] at htx
    cases htx

/-- Recovery adds nothing to what arrived. -/
theorem HeadServed.refilled {acc acc' : SlotAccumulator} {out : List VersionedTransaction}
    (h : HeadServed S k acc out) (hr : acc.Refilled acc') : HeadServed S k acc' out := by
  intro c hall
  apply h c
  intro i h1 h2
  obtain ⟨ps, hps, hpool⟩ := hall i h1 h2
  rcases hr.added i ps hps with hold | ⟨hrec, -⟩
  · exact ⟨ps, hold, hpool⟩
  · rw [hpool] at hrec
    cases hrec

namespace Served

theorem tryFecFill (h : Served S sets k base s) (hp : Protects S sets)
    (hrs : env.reedSolomon.Rebuilds parity) (clock : Clock) (hint : ℕ) :
    Served S sets k base ⟨(s.acc.tryFecFill env clock s.cache hint).1,
      (s.acc.tryFecFill env clock s.cache hint).2.1, s.out⟩ where
  toTracks := h.toTracks.tryFecFill hp hrs h.toSetState hint
  toSetState := (Step.fill hint).setState hrs h.toSetState
  streamed_mem := by
    have hrefill := refilled_tryFecFill env s.acc clock s.cache hint
    show ∀ tx ∈ S.streamed k (s.acc.tryFecFill env clock s.cache hint).1.streamingCursor, _
    rw [hrefill.cursor]
    exact h.streamed_mem

theorem fillHints (h : Served S sets k base s) (hp : Protects S sets)
    (hrs : env.reedSolomon.Rebuilds parity) (clock : Clock) (hints : List ℕ) :
    Served S sets k base ⟨(SlotAccumulator.fillHints env clock s.acc s.cache hints).1,
      (SlotAccumulator.fillHints env clock s.acc s.cache hints).2, s.out⟩ := by
  induction hints generalizing s with
  | nil => exact h
  | cons hint hints ih => exact ih (h.tryFecFill hp hrs clock hint)

theorem flushFill (h : Served S sets k base s) (hp : Protects S sets)
    (hrs : env.reedSolomon.Rebuilds parity) (clock : Clock) (bcIdx : ℕ) :
    Served S sets k base ⟨(s.acc.flushFill env clock s.cache bcIdx).1,
      (s.acc.flushFill env clock s.cache bcIdx).2, s.out⟩ := by
  unfold SlotAccumulator.flushFill
  split_ifs
  · exact h.fillHints hp hrs clock _
  · exact h

/-- `advance_streaming` returns all that has arrived in one piece. -/
theorem advanceStreaming (h : Served S sets k base s) (hw : env.wincode.Lawful)
    (hu : s.acc.Unpassed) {fuel : ℕ} (hfuel : 2 ^ 32 < fuel) :
    ∃ t, s.acc.advanceStreaming env fuel s.out = some t ∧
      Served S sets k base ⟨t.1, s.cache, t.2⟩ ∧ HeadServed S k t.1 (base ++ t.2) ∧
      t.1.finalized = s.acc.finalized := by
  obtain ⟨cursor, decoder, new, hrun, htracks, -, hnew, hstop⟩ :=
    h.toTracks.advanceStreaming hw (h.before_stop hu) hfuel s.out
  have hserved : ∀ tx ∈ S.streamed k cursor, tx ∈ base ++ (s.out ++ new) := by
    intro tx htx
    rw [hnew, List.mem_append] at htx
    rw [← List.append_assoc, List.mem_append]
    exact htx.imp (h.streamed_mem tx) id
  have hsets : SetState sets (⟨restream s.acc cursor decoder (sigKeys (S.streamed k cursor)), s.cache,
      s.out ++ new⟩ : CallState C) :=
    ⟨⟨h.fromSets.recorded, h.fromSets.data, h.fromSets.boundary⟩, h.cache⟩
  refine ⟨_, hrun, ⟨htracks, hsets, hserved⟩, fun c hall tx htx => hserved tx ?_, rfl⟩
  rcases hstop with ⟨hlt, hcursor⟩ | hmissing
  · -- the batch was streamed to its end
    have hk := S.lt_batches_of_lt_stop h.k_le h.cursor_ge (hcursor ▸ hlt)
    rw [hcursor, S.stop_of_lt hk, streamed_stop hw hk]
    exact (S.streamed_isPrefix hw hk c).subset htx
  · have hle : c ≤ cursor := by
      by_contra hlt
      obtain ⟨ps, hps, hpool⟩ := hall cursor htracks.cursor_ge (by omega)
      rw [hmissing ps hps] at hpool
      cases hpool
    rcases Nat.lt_or_ge c (S.start k) with hc | hc
    · rw [S.streamed_of_le hc.le] at htx
      cases htx
    · exact (S.streamed_mono hc hle).subset htx

/-- So it does after an attempt at recovery. -/
theorem resume (h : Served S sets k base s) (hw : env.wincode.Lawful) (hp : Protects S sets)
    (hrs : env.reedSolomon.Rebuilds parity) (clock : Clock) {hint : ℕ}
    (hu : (s.acc.tryFecFill env clock s.cache hint).2.2 = true →
      (s.acc.tryFecFill env clock s.cache hint).1.Unpassed) {fuel : ℕ} (hfuel : 2 ^ 32 < fuel) :
    ∃ t, SlotAccumulator.resume env fuel (s.acc.tryFecFill env clock s.cache hint) s.out = some t ∧
      Served S sets k base ⟨t.1, (s.acc.tryFecFill env clock s.cache hint).2.1, t.2⟩ ∧
      (HeadServed S k s.acc (base ++ s.out) → HeadServed S k t.1 (base ++ t.2)) ∧
      t.1.finalized = s.acc.finalized := by
  have hrefill := refilled_tryFecFill env s.acc clock s.cache hint
  have hfill := h.tryFecFill hp hrs clock hint
  unfold SlotAccumulator.resume
  split_ifs with hfilled
  · obtain ⟨t, hrun, hserved, hhead, hfin⟩ := hfill.advanceStreaming hw (hu hfilled) hfuel
    exact ⟨t, hrun, hserved, fun _ => hhead, hfin.trans hrefill.finalized⟩
  · exact ⟨_, rfl, hfill, fun hhead => hhead.refilled hrefill, hrefill.finalized⟩

/-- Finalising a batch: the accumulator follows the slot from the next batch on, of
    which nothing was streamed. -/
theorem finalise (h : Served S sets k base s) {bcIdx : ℕ}
    (hb : bcIdx ∈ s.acc.batchCompleteIndices) (txs : List VersionedTransaction)
    (counters : Counters) :
    ∃ j, k < j ∧ (s.acc.finalise txs counters bcIdx).streamingCursor = S.start j ∧
      Served S sets j base ⟨s.acc.finalise txs counters bcIdx, s.cache,
        s.out ++ unseen s.acc.yieldedSigs txs⟩ := by
  have haligned : S.Aligned k { s.acc.record txs with counters } := { h.toAligned with }
  obtain ⟨j, hkj, hj, htracks⟩ := haligned.completeBatch hb
  have hsets : SetState sets (⟨s.acc.finalise txs counters bcIdx, s.cache,
      s.out ++ unseen s.acc.yieldedSigs txs⟩ : CallState C) := by
    refine ⟨h.fromSets.mono (fun i fec hfec => ?_) (fun i ps hps => ?_) fun b hb => ?_, h.cache⟩
    · exact ((BTreeMap.getElem?_filter_eq _).mp hfec).1
    · exact ((completeBatch_pending _).mp hps).1
    · exact ((mem_completeBatch_boundaries _).mp hb).1
  have hcursor : (s.acc.finalise txs counters bcIdx).streamingCursor = S.start j := by
    refine le_antisymm ?_ htracks.cursor_ge
    have hle := h.cursor_le
    have hstop : S.stop k ≤ S.start j := S.start_mono (by have := htracks.k_le; omega) htracks.k_le
    have hnext : satAdd32 bcIdx 1 ≤ bcIdx + 1 := min_le_left _ _
    show max s.acc.streamingCursor (satAdd32 bcIdx 1) ≤ S.start j
    exact max_le (by omega) (by omega)
  refine ⟨j, hkj, hcursor, ⟨htracks, hsets, fun tx htx => ?_⟩⟩
  rw [hcursor, streamed_start] at htx
  cases htx

/-- What an iteration of the flush does on an accumulator that follows the slot. -/
theorem flushBody_cases (h : Served S sets k base s) (hp : Protects S sets)
    (hrs : env.reedSolomon.Rebuilds parity) (clock : Clock) {fuel : ℕ} (hfuel : 2 ^ 32 < fuel) :
    (s.acc.batchCompleteIndices.firstFrom s.acc.batchStart = none ∧
      flushBody env clock fuel s = some (.inr s)) ∨
    ∃ bcIdx t s', s.acc.batchCompleteIndices.firstFrom s.acc.batchStart = some (bcIdx, t) ∧
      s'.out = s.out ∧ s.acc.flushFill env clock s.cache bcIdx = (s'.acc, s'.cache) ∧
      Served S sets k base s' ∧
      (((∃ i, s.acc.batchStart ≤ i ∧ i ≤ bcIdx ∧ i ∉ s'.acc.pending) ∧
          flushBody env clock fuel s = some (.inr s')) ∨
        ∃ txs counters, Finds env s'.acc bcIdx txs ∧ bcIdx ∈ s'.acc.batchCompleteIndices ∧
          flushBody env clock fuel s = some (.inl ⟨s'.acc.finalise txs counters bcIdx, s'.cache,
            s'.out ++ unseen s'.acc.yieldedSigs txs⟩)) := by
  rcases SlotAccumulator.flushBody_cases env clock hfuel s (fun i hi => h.boundary_lt hi) with
    hnone | ⟨bcIdx, t, acc', cache', hfirst, hfill, hcases⟩
  · exact .inl hnone
  have hserved := h.flushFill hp hrs clock bcIdx
  have hrefill := refilled_flushFill env s.acc clock s.cache bcIdx
  rw [hfill] at hserved hrefill
  have hb : bcIdx ∈ acc'.batchCompleteIndices := by
    obtain ⟨hbc, -, -⟩ := BTreeMap.firstFrom_spec _ hfirst
    obtain ⟨hmem, hends⟩ :=
      (h.boundary bcIdx).mp (s.acc.batchCompleteIndices.mem_iff_getElem?.mpr ⟨t, hbc⟩)
    obtain ⟨ps, hps⟩ := s.acc.pending.mem_iff_getElem?.mp hmem
    have hkept := hrefill.kept bcIdx ps hps
    exact (hserved.boundary bcIdx).mpr ⟨acc'.pending.mem_iff_getElem?.mpr ⟨ps, hkept⟩, hends⟩
  refine .inr ⟨bcIdx, t, ⟨acc', cache', s.out⟩, hfirst, rfl, hfill, hserved, ?_⟩
  rw [← hrefill.batchStart] at hcases ⊢
  rcases hcases with ⟨hgap, -, hbody⟩ | ⟨hgap, -, counters, hbody⟩ | ⟨hall, counters, hbody⟩
  · exact .inl ⟨hgap, hbody⟩
  · exact .inr ⟨_, counters, .runs hgap, hb, hbody⟩
  · exact .inr ⟨_, counters, .batch hall, hb, hbody⟩

/-- What a call returned belongs to what was returned before the next one. -/
theorem rebase (h : Served S sets k base s) :
    Served S sets k (base ++ s.out) ⟨s.acc, s.cache, []⟩ where
  toTracks := h.toTracks
  toSetState := ⟨h.fromSets, h.cache⟩
  streamed_mem := by
    rw [List.append_nil]
    exact h.streamed_mem

theorem dropHandle (h : Served S sets k base s) (b : BufferHandle) :
    Served S sets k base { s with acc := s.acc.dropHandle b } where
  toTracks := { h.toTracks with }
  toSetState := ⟨⟨h.fromSets.recorded, h.fromSets.data, h.fromSets.boundary⟩, h.cache⟩
  streamed_mem := h.streamed_mem

/-- What opening a call keeps. -/
theorem opens {acc acc₀ : SlotAccumulator} {cache : ReedSolomonCache C} {c : Call}
    (h : Served S sets k base ⟨acc, cache, []⟩) (ho : Opens clock acc c acc₀)
    (hsends : Sends S sets c) : Served S sets k base ⟨acc₀, cache, []⟩ := by
  have hsets : SetState sets (⟨acc₀, cache, []⟩ : CallState C) :=
    ⟨ho.fromSets h.fromSets hsends.sent, h.cache⟩
  cases ho with
  | last => exact ⟨{ h.toTracks with }, hsets, h.streamed_mem⟩
  | @data a hlast hge hnew =>
    have haligned := h.toAligned.insertData clock (hsends.genuine a rfl) hlast hge hnew
    exact ⟨⟨haligned, h.decoder, h.yielded⟩, hsets, h.streamed_mem⟩
  | @code a =>
    obtain ⟨fecSets, counters, heq, -⟩ := acc.recordCode_eq a
    rw [heq] at hsets ⊢
    exact ⟨{ h.toTracks with }, hsets, h.streamed_mem⟩
  | harvest => exact h

/-- The call enters its flush in the state `s`, and the flush decides what it returns. -/
structure Reaches (S : Slot env.wincode) (sets : FecSets env.reedSolomon parity) (k : ℕ)
    (base : List VersionedTransaction) (clock : Clock) (fuel : ℕ) (acc : SlotAccumulator)
    (cache : ReedSolomonCache C) (c : Call) (s : CallState C) : Prop where
  enters : EntersFlush env clock fuel acc cache c s
  served : Served S sets k base s
  head : HeadServed S k acc base → HeadServed S k s.acc (base ++ s.out)
  finalized : s.acc.finalized = acc.finalized
  returns : ∀ r, s.acc.tryFlushBatches env clock fuel s.cache s.out = some r →
    ∃ r', acc.call env clock fuel cache c = some r' ∧
      (r' = r ∨ ∃ b, r' = { r with acc := r.acc.dropHandle b })

section Entering

variable {acc : SlotAccumulator} {cache : ReedSolomonCache C}

/-- The last shred of the slot. -/
theorem reaches_last (h : Served S sets k base ⟨acc, cache, []⟩) {a : DataArgs}
    (hlast : a.lastInSlot = true) (hsends : Sends S sets (.data a)) (clock : Clock) (fuel : ℕ) :
    Reaches S sets k base clock fuel acc cache (.data a) ⟨acc.completeSlot a.index, cache, []⟩ := by
  have hopen : Opens clock acc (.data a) (acc.completeSlot a.index) := .last hlast
  refine ⟨.last hlast, h.opens hopen hsends, fun hhead => ?_, rfl, fun r hr => ?_⟩
  · rw [List.append_nil]
    exact hhead
  · refine ⟨{ r with acc := r.acc.dropHandle a.handle }, ?_, .inr ⟨a.handle, rfl⟩⟩
    show acc.pushData env clock fuel cache a = _
    rw [SlotAccumulator.pushData, if_pos hlast, hr]
    rfl

/-- A data shred that is stored. -/
theorem reaches_data (h : Served S sets k base ⟨acc, cache, []⟩) (hw : env.wincode.Lawful)
    (hp : Protects S sets) (hrs : env.reedSolomon.Rebuilds parity) (hc : acc.Consistent)
    (hclear : acc.Clear) (hparsed : acc.Parsed) {a : DataArgs} (hlast : a.lastInSlot = false)
    (hge : acc.batchStart ≤ a.index) (hmem : a.index ∉ acc.pending)
    (hsends : Sends S sets (.data a)) (clock : Clock) {fuel : ℕ} (hfuel : 2 ^ 32 < fuel) :
    ∃ s, Reaches S sets k base clock fuel acc cache (.data a) s := by
  have hcp : (Call.data a).Parsed := hsends.sent.parsed
  have hopen : Opens clock acc (.data a) (acc.insertData clock a) := .data hlast hge hmem
  have hstores : EntersStreaming env clock fuel acc cache (.data a) (acc.insertData clock a, []) :=
    .stored hlast hge hmem
  have hcall : acc.call env clock fuel cache (.data a) = acc.pushData env clock fuel cache a := rfl
  rw [SlotAccumulator.pushData, if_neg (Bool.eq_false_iff.mp hlast), if_neg (not_lt.mpr hge),
    if_neg hmem] at hcall
  obtain ⟨t, hrun, hserved, hhead, hfin⟩ := (h.opens hopen hsends).advanceStreaming hw
    (hstores.unpassed hc hclear hparsed hcp).2.2 hfuel
  by_cases hcur : t.1.streamingCursor ≤ a.index
  · obtain ⟨t', hres, hserved', hhead', hfin'⟩ := hserved.resume hw hp hrs clock
      (fun hfilled => (EntersStreaming.unpassed (.refilled hlast hge hmem hrun hcur hfilled) hc
        hclear hparsed hcp).2.2) hfuel
    refine ⟨_, .data hopen hrun hcur hres, hserved', fun _ => hhead' hhead, hfin'.trans hfin,
      fun r hr => ⟨r, ?_, .inl rfl⟩⟩
    rw [hcall]
    simp only [hrun, Option.bind_eq_bind, Option.bind_some, if_pos hcur]
    unfold SlotAccumulator.resume at hres
    split_ifs at hres ⊢
    · simp only at hres
      rw [hres]
      exact hr
    · cases hres
      exact hr
  · refine ⟨_, .passed hopen hrun (by omega), hserved, fun _ => hhead, hfin,
      fun r hr => ⟨r, ?_, .inl rfl⟩⟩
    rw [hcall]
    simp only [hrun, Option.bind_eq_bind, Option.bind_some, if_neg hcur]
    exact hr

/-- A code shred. -/
theorem reaches_code (h : Served S sets k base ⟨acc, cache, []⟩) (hw : env.wincode.Lawful)
    (hp : Protects S sets) (hrs : env.reedSolomon.Rebuilds parity) (hc : acc.Consistent)
    (hclear : acc.Clear) (hparsed : acc.Parsed) {a : CodeArgs} (hsends : Sends S sets (.code a))
    (clock : Clock) {fuel : ℕ} (hfuel : 2 ^ 32 < fuel) :
    ∃ s, Reaches S sets k base clock fuel acc cache (.code a) s := by
  have hopen : Opens clock acc (.code a) (acc.recordCode a) := .code
  have hfills (hfilled : ((acc.recordCode a).tryFecFill env clock cache a.fecSetIndex).2.2 = true) :
      EntersStreaming env clock fuel acc cache (.code a)
        (((acc.recordCode a).tryFecFill env clock cache a.fecSetIndex).1, []) := .code hfilled
  obtain ⟨t, hres, hserved, hhead, hfin⟩ := (h.opens hopen hsends).resume hw hp hrs clock
    (fun hfilled => ((hfills hfilled).unpassed hc hclear hparsed hsends.sent.parsed).2.2) hfuel
  have hsame : (acc.recordCode a).pending = acc.pending ∧
      (acc.recordCode a).finalized = acc.finalized := by
    obtain ⟨fecSets, counters, heq, -⟩ := acc.recordCode_eq a
    rw [heq]
    exact ⟨rfl, rfl⟩
  refine ⟨_, .code hres, hserved, fun hbefore => hhead ?_, hfin.trans hsame.2,
    fun r hr => ⟨r, ?_, .inl rfl⟩⟩
  · rw [List.append_nil]
    intro c hall
    apply hbefore c
    intro i h1 h2
    obtain ⟨ps, hps, hpool⟩ := hall i h1 h2
    exact ⟨ps, hsame.1 ▸ hps, hpool⟩
  · show acc.pushCode env clock fuel cache a = _
    unfold SlotAccumulator.pushCode
    unfold SlotAccumulator.resume at hres
    simp only at hres ⊢
    split_ifs at hres ⊢
    · rw [hres]
      exact hr
    · cases hres
      exact hr

/-- A call with a packet is dropped, or reaches its flush. -/
theorem enters (h : Served S sets k base ⟨acc, cache, []⟩) (hw : env.wincode.Lawful)
    (hp : Protects S sets) (hrs : env.reedSolomon.Rebuilds parity) (hc : acc.Consistent)
    (hclear : acc.Clear) (hparsed : acc.Parsed) {c : Call} (hsends : Sends S sets c) (clock : Clock)
    {fuel : ℕ} (hfuel : 2 ^ 32 < fuel) :
    (∃ b, acc.call env clock fuel cache c = some ⟨acc.dropHandle b, cache, []⟩) ∨
      ∃ s, Reaches S sets k base clock fuel acc cache c s := by
  cases c with
  | data a =>
    by_cases hlast : a.lastInSlot = true
    · exact .inr ⟨_, h.reaches_last hlast hsends clock fuel⟩
    have hlast' : a.lastInSlot = false := by simpa using hlast
    by_cases hdrop : a.index < acc.batchStart ∨ a.index ∈ acc.pending
    · exact .inl ⟨a.handle, pushData_of_dropped env hlast' hdrop clock fuel cache⟩
    rw [not_or, not_lt] at hdrop
    exact .inr (h.reaches_data hw hp hrs hc hclear hparsed hlast' hdrop.1 hdrop.2 hsends clock hfuel)
  | code a => exact .inr (h.reaches_code hw hp hrs hc hclear hparsed hsends clock hfuel)
  | harvest => exact absurd rfl hsends.sent.ne_harvest

end Entering

end Served

/-- What holds between two calls. -/
structure Between (S : Slot env.wincode) (sets : FecSets env.reedSolomon parity) (k : ℕ)
    (s : CallState C) : Prop extends Served S sets k s.out ⟨s.acc, s.cache, []⟩ where
  consistent : s.acc.Consistent
  clear : s.acc.Clear
  parsed : s.acc.Parsed

theorem between_fresh (cfg : AccumulatorConfig) {cache : ReedSolomonCache C}
    (hcache : cache.Valid env.reedSolomon) : Between S sets 0 (CallState.fresh cfg cache) where
  toServed := served_fresh cfg hcache
  consistent := consistent_withConfig cfg
  clear := clear_withConfig cfg
  parsed := parsed_withConfig cfg

/-- What a call leaves, if it still follows the slot. -/
theorem Between.call (h : Between S sets k s) {c : Call} (hsends : Sends S sets c) {fuel : ℕ}
    {r : CallState C} (hr : s.acc.call env clock fuel s.cache c = some r) {j : ℕ}
    (hserved : Served S sets j s.out r) :
    Between S sets j { r with out := s.out ++ r.out } := by
  have hconsistent := (h.consistent.call h.parsed hsends.sent.parsed hr).1
  have hclear := h.clear.call h.consistent h.parsed hsends.sent.parsed hsends.sent.ne_harvest hr
  have hparsed := h.parsed.call hsends.sent.parsed hr
  exact ⟨hserved.rebase, hconsistent, hclear, hparsed⟩

/-! ## Two batches, the first of which is protected -/

open FecSet

/-- Two batches of two shreds each; the first shred of the second one holds the first
    of its two entries. -/
def twoBatches : Slot pairEnv.wincode :=
  let first := LegacyWire.encodeBatch [[LegacyWire.signedTx 1 []]]
  let second := LegacyWire.encodeBatch [[LegacyWire.signedTx 2 []], [LegacyWire.signedTx 3 []]]
  ofPayloads _ [[first.take 60, first.drop 60], [second.take 200, second.drop 200]] false
    (by decide +kernel)

/-- The FEC set of the first batch. -/
def firstSet : FecSet pairParity :=
  merkleSet (show MakesSet pairParity 0 2 1 twoBatches.payload fun p => if p = 1 then 0x40 else 0 by
    decide +kernel)

/-- The shreds of the second one, each in a set of its own. -/
def thirdShred : FecSet pairParity :=
  merkleSet (show MakesSet pairParity 2 1 0 (fun _ => twoBatches.payload 2) fun _ => 0 by
    decide +kernel)

def fourthShred : FecSet pairParity :=
  merkleSet (show MakesSet pairParity 3 1 0 (fun _ => twoBatches.payload 3) fun _ => 0x40 by
    decide +kernel)

/-- No code shreds of the second batch are sent. -/
def firstSets : FecSets pairEnv.reedSolomon pairParity where
  set i := if i = 0 then some firstSet else none
  fecSetIndex h := by
    split_ifs at h with hi
    cases h
    exact hi.symm
  supported h := by
    split_ifs at h
    cases h
    rfl

theorem protects_twoBatches : Protects twoBatches firstSets := by
  have hall : ∀ p < 2, 0 + p < twoBatches.shreds ∧
      (firstSet.shred p).payload = twoBatches.payload (0 + p) ∧
      ((firstSet.shred p).batchComplete = true ↔ twoBatches.EndsBatch (0 + p)) ∧
      ((firstSet.shred p).lastInSlot = true ↔ twoBatches.IsLast (0 + p)) := by decide +kernel
  have hset (F : FecSet pairParity) (h : firstSets.set F.fecSetIndex = some F) : firstSet = F := by
    have h' : (if F.fecSetIndex = 0 then some firstSet else none) = some F := h
    split_ifs at h'
    exact Option.some.inj h'
  refine ⟨fun F hF p hp => ?_, fun F hF p hp => ?_, fun F hF p hp => ?_, fun F hF p hp => ?_⟩
  · obtain rfl := hset F hF
    exact (hall p hp).1
  · obtain rfl := hset F hF
    exact (hall p hp).2.1
  · obtain rfl := hset F hF
    exact (hall p hp).2.2.1
  · obtain rfl := hset F hF
    exact (hall p hp).2.2.2

/-- The calls with the data shreds and the code shred. -/
def dataCall (i : Fin 4) : Clock × Call :=
  (stillClock, .data (match i with
    | 0 => firstSet.dataArgs 0 0
    | 1 => firstSet.dataArgs 1 1
    | 2 => thirdShred.dataArgs 2 0
    | 3 => fourthShred.dataArgs 3 0))

def codeCall : Clock × Call := (stillClock, .code (firstSet.codeArgs 0))

/-- The calls in some order; `none` stands for the code shred. -/
def packets (order : List (Option (Fin 4))) : List (Clock × Call) :=
  order.map fun i => i.elim codeCall dataCall

theorem sends_dataCall (i : Fin 4) : Sends twoBatches firstSets (dataCall i).2 := by
  have hF : firstSets.set firstSet.fecSetIndex = some firstSet := rfl
  fin_cases i
  · exact protects_twoBatches.sends_data hF (show 0 < 2 by decide) 0
  · exact protects_twoBatches.sends_data hF (show 1 < 2 by decide) 1
  · have hpos : 0 < thirdShred.numData := Nat.one_pos
    refine ⟨.other rfl (holds_dataArgs hpos 2) (by decide), ?_⟩
    rintro a ⟨⟩
    exact ⟨by decide, (thirdShred.matches_dataArgs hpos 2).payload, by decide +kernel,
      by decide +kernel⟩
  · have hpos : 0 < fourthShred.numData := Nat.one_pos
    refine ⟨.other rfl (holds_dataArgs hpos 3) (by decide), ?_⟩
    rintro a ⟨⟩
    exact ⟨by decide, (fourthShred.matches_dataArgs hpos 3).payload, by decide +kernel,
      by decide +kernel⟩

theorem sends_packets (order : List (Option (Fin 4))) :
    ∀ c ∈ packets order, Sends twoBatches firstSets c.2 := by
  intro c hc
  obtain ⟨i, -, rfl⟩ := List.mem_map.mp hc
  cases i with
  | none => exact sends_code rfl Nat.one_pos
  | some i => exact sends_dataCall i

/-- No batch is found stuck. -/
theorem still_packets (order : List (Option (Fin 4))) :
    ∀ c ∈ packets order, ∀ b t, c.1.elapsed b t < ({} : AccumulatorConfig).stuckBatchTimeout := by
  intro c hc b t
  obtain ⟨i, -, rfl⟩ := List.mem_map.mp hc
  have hpos : 0 < ({} : AccumulatorConfig).stuckBatchTimeout := by decide
  cases i with
  | none => exact hpos
  | some i => exact hpos

end Slot

end ShredStream
