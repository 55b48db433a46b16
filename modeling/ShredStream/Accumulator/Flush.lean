import ShredStream.Accumulator.Salvage

/-!
# One iteration of the flush and of the harvest

`completeBatch_pending` and its neighbours say what `complete_batch` keeps.
`flushBody_cases` and `harvestBoundary_cases` list what an iteration of
`try_flush_batches` and of the boundary loop of `try_harvest_tail` can do; the
counters it leaves are not spelled out.
-/

namespace ShredStream

open FirstByKey

namespace SlotAccumulator

variable {C : Type} (env : Env C) (acc : SlotAccumulator)

/-! ## `complete_batch` -/

theorem completeBatch_pending {bcIdx i : ℕ} {ps : PendingShred} :
    (acc.completeBatch bcIdx).pending[i]? = some ps ↔
      acc.pending[i]? = some ps ∧ satAdd32 bcIdx 1 ≤ i := by
  rw [completeBatch, BTreeMap.getElem?_filter_eq, decide_eq_true_eq]

theorem mem_completeBatch_pending {bcIdx i : ℕ} :
    i ∈ (acc.completeBatch bcIdx).pending ↔ i ∈ acc.pending ∧ satAdd32 bcIdx 1 ≤ i := by
  simp only [BTreeMap.mem_iff_getElem?, completeBatch_pending, exists_and_right]

theorem mem_completeBatch_boundaries {bcIdx i : ℕ} :
    i ∈ (acc.completeBatch bcIdx).batchCompleteIndices ↔
      i ∈ acc.batchCompleteIndices ∧ satAdd32 bcIdx 1 ≤ i := by
  simp only [BTreeMap.mem_iff_getElem?, completeBatch, BTreeMap.getElem?_filter_eq,
    decide_eq_true_eq, exists_and_right]

theorem completeBatch_payloadAt {bcIdx i : ℕ} (h : satAdd32 bcIdx 1 ≤ i) :
    (acc.completeBatch bcIdx).payloadAt i = acc.payloadAt i := by
  unfold payloadAt
  have hget : (acc.completeBatch bcIdx).pending[i]? = acc.pending[i]? := by
    ext ps
    simp [completeBatch_pending, h]
  rw [hget]

/-! ## Decoding a batch -/

/-- `decodeCombined` up to its counters. -/
theorem decodeCombined_eq (start bcIdx : ℕ) :
    ∃ counters, acc.decodeCombined env start bcIdx =
      ({ acc.record (batchTxs env.wincode (acc.combined start bcIdx)) with counters },
        unseen acc.yieldedSigs (batchTxs env.wincode (acc.combined start bcIdx))) := by
  unfold decodeCombined batchTxs
  cases decodeBatch env.wincode (acc.combined start bcIdx) with
  | none =>
    simp only [Option.getD_none, record_nil]
    exact ⟨_, rfl⟩
  | some txs => exact ⟨_, by simp only [recordAll_eq, Option.getD_some]; rfl⟩

/-! ## Recording code shreds -/

/-- What `push_code` records: the counters may count the eviction of another set,
    the entry of the set takes the code packet. -/
theorem recordCode_cases (a : CodeArgs) :
    ∃ fecSets counters, acc.recordCode a = { acc with
        fecSets := fecSets.insert a.fecSetIndex
          (((acc.fecSets[a.fecSetIndex]?).getD (FecSetBuffer.new a.fecSetIndex)).recordCode
            a.position a.numData a.numCoding a.coded a.variant)
        counters } ∧
      (counters = acc.counters ∨ counters = { acc.counters with
        fecSetsEvictedEarly := satAdd64 acc.counters.fecSetsEvictedEarly 1 }) ∧
      (fecSets = acc.fecSets ∨ ∃ oldest, fecSets = acc.fecSets.erase oldest) := by
  unfold recordCode
  simp only
  split_ifs
  · split
    · rename_i oldest fec _
      split_ifs with hlt
      · refine ⟨acc.fecSets.erase oldest, _, ?_, .inr rfl, .inr ⟨oldest, rfl⟩⟩
        simp only [BTreeMap.getElem?_erase_eq, if_neg (Nat.ne_of_lt hlt)]
      · exact ⟨acc.fecSets, _, rfl, .inl rfl, .inl rfl⟩
    · exact ⟨acc.fecSets, _, rfl, .inl rfl, .inl rfl⟩
  · exact ⟨acc.fecSets, _, rfl, .inl rfl, .inl rfl⟩

/-- An entry after recording is an old one of another set, or the one the packet
    went to. -/
theorem getElem?_recordCode {a : CodeArgs} {i : ℕ} {fec : FecSetBuffer}
    (h : (acc.recordCode a).fecSets[i]? = some fec) :
    (i ≠ a.fecSetIndex ∧ acc.fecSets[i]? = some fec) ∨
    (i = a.fecSetIndex ∧
      fec = ((acc.fecSets[a.fecSetIndex]?).getD (FecSetBuffer.new a.fecSetIndex)).recordCode
        a.position a.numData a.numCoding a.coded a.variant) := by
  obtain ⟨fecSets, counters, heq, -, hold⟩ := acc.recordCode_cases a
  rw [heq, BTreeMap.getElem?_insert_eq] at h
  split_ifs at h with hi
  · cases h
    exact .inr ⟨hi.symm, rfl⟩
  · refine .inl ⟨Ne.symm hi, ?_⟩
    rcases hold with rfl | ⟨oldest, rfl⟩
    · exact h
    · rw [BTreeMap.getElem?_erase_eq] at h
      split_ifs at h
      exact h

/-! ## What recovery can do -/

/-- What `try_fec_fill` does: nothing but count, or store what the selected set
    gives; the set is forgotten when a shred was added. -/
theorem tryFecFill_cases (clock : Clock) (cache : ReedSolomonCache C) (hint : ℕ) :
    (∃ cache' counters, acc.tryFecFill env clock cache hint =
      ({ acc with counters }, cache', false)) ∨
    ∃ setIdx fec cache' recovered,
      acc.selectRecoverableSet hint = some setIdx ∧
      acc.fecSets[setIdx]? = some fec ∧
      fec.tryReconstruct env.reedSolomon (acc.dataRefs setIdx fec.numData) cache =
        (cache', some recovered) ∧
      (acc.tryFecFill env clock cache hint =
          ((recovered.foldl (insertRecovered clock setIdx) (acc, false)).1, cache', false) ∨
        ∃ counters, acc.tryFecFill env clock cache hint =
          ({ (recovered.foldl (insertRecovered clock setIdx) (acc, false)).1 with
              counters, fecSets := (recovered.foldl (insertRecovered clock setIdx)
                (acc, false)).1.fecSets.erase setIdx }, cache', true)) := by
  unfold tryFecFill
  cases hsel : acc.selectRecoverableSet hint with
  | none => exact .inl ⟨cache, acc.counters, rfl⟩
  | some setIdx =>
    simp only
    cases hfec : acc.fecSets[setIdx]? with
    | none => exact .inl ⟨cache, acc.counters, rfl⟩
    | some fec =>
      simp only
      by_cases hnd : fec.numData = 0
      · rw [if_pos hnd]
        exact .inl ⟨cache, acc.counters, rfl⟩
      rw [if_neg hnd]
      cases hrec : fec.tryReconstruct env.reedSolomon (acc.dataRefs setIdx fec.numData) cache with
      | mk cache' recovered =>
        cases recovered with
        | none => exact .inl ⟨cache', _, rfl⟩
        | some recovered =>
          refine .inr ⟨setIdx, fec, cache', recovered, rfl, hfec, hrec, ?_⟩
          simp only
          split_ifs
          · exact .inr ⟨_, rfl⟩
          · exact .inl rfl

/-- Store the recovered packet `bytes`, which parses as `d`, at `idx`. -/
def storeRecovered (acc : SlotAccumulator) (clock : Clock) (setIdx idx : ℕ) (bytes : Bytes)
    (d : DataShred) : SlotAccumulator :=
  { acc with
    pending := acc.pending.insert idx {
      source := .recovered bytes
      payloadEnd := asU16 (dataHeaderSize + d.payload.length)
      batchComplete := d.batchComplete
      fecSetIndex := setIdx }
    batchCompleteIndices :=
      if d.batchComplete then acc.batchCompleteIndices.insertIfNew idx (clock.now idx)
      else acc.batchCompleteIndices }

/-- What the loop over the recovered packets does with one of them. -/
inductive Inserts (clock : Clock) (setIdx : ℕ) (r : ℕ × Bytes) (acc : SlotAccumulator) :
    SlotAccumulator → Prop
  | skip : Inserts clock setIdx r acc acc
  | last {d : DataShred} : parseKind r.2 = .ok (.data d) → d.lastInSlot = true →
      Inserts clock setIdx r acc (acc.completeSlot (wrapAdd32 setIdx r.1))
  | store {d : DataShred} : acc.batchStart ≤ wrapAdd32 setIdx r.1 →
      wrapAdd32 setIdx r.1 ∉ acc.pending → parseKind r.2 = .ok (.data d) → d.lastInSlot = false →
      Inserts clock setIdx r acc (acc.storeRecovered clock setIdx (wrapAdd32 setIdx r.1) r.2 d)

theorem insertRecovered_inserts (clock : Clock) (setIdx : ℕ) (s : SlotAccumulator × Bool)
    (r : ℕ × Bytes) : Inserts clock setIdx r s.1 (insertRecovered clock setIdx s r).1 := by
  unfold insertRecovered
  simp only
  split_ifs with hskip
  · exact .skip
  rw [not_or] at hskip
  split
  · rename_i d hparse
    split_ifs with hlast hflag
    · exact .last hparse hlast
    · have hstore : Inserts clock setIdx r s.1 _ :=
        .store (not_lt.mp hskip.1) hskip.2 hparse ((Bool.not_eq_true _).mp hlast)
      simpa only [storeRecovered, hflag, if_true] using hstore
    · have hstore : Inserts clock setIdx r s.1 _ :=
        .store (not_lt.mp hskip.1) hskip.2 hparse ((Bool.not_eq_true _).mp hlast)
      simpa only [storeRecovered, hflag, Bool.false_eq_true, if_false] using hstore
  · exact .skip

/-- What each insertion keeps, the loop over the recovered packets keeps. -/
theorem foldl_insertRecovered_invariant {I : SlotAccumulator → Prop} {clock : Clock} {setIdx : ℕ}
    {recovered : List (ℕ × Bytes)}
    (hinsert : ∀ r ∈ recovered, ∀ acc₁ acc₂, I acc₁ → Inserts clock setIdx r acc₁ acc₂ → I acc₂)
    {s : SlotAccumulator × Bool} (h : I s.1) :
    I (recovered.foldl (insertRecovered clock setIdx) s).1 := by
  induction recovered generalizing s with
  | nil => exact h
  | cons r recovered ih =>
    rw [List.forall_mem_cons] at hinsert
    exact ih hinsert.2 (hinsert.1 s.1 _ h (insertRecovered_inserts clock setIdx s r))

/-- What the insertions, the counting and the forgetting of a set keep, an attempt
    at recovery keeps. -/
theorem tryFecFill_invariant {I : SlotAccumulator → Prop} (clock : Clock)
    (cache : ReedSolomonCache C) (hint : ℕ) (h : I acc)
    (hinsert : ∀ setIdx fec cache' recovered r acc₁ acc₂, acc.fecSets[setIdx]? = some fec →
      fec.tryReconstruct env.reedSolomon (acc.dataRefs setIdx fec.numData) cache =
        (cache', some recovered) → r ∈ recovered →
      I acc₁ → Inserts clock setIdx r acc₁ acc₂ → I acc₂)
    (hcount : ∀ acc₁ counters, I acc₁ → I { acc₁ with counters })
    (hforget : ∀ acc₁ k, I acc₁ → I { acc₁ with fecSets := acc₁.fecSets.erase k }) :
    I (acc.tryFecFill env clock cache hint).1 := by
  rcases tryFecFill_cases env acc clock cache hint with
    ⟨cache', counters, hfill⟩ | ⟨setIdx, fec, cache', recovered, -, hfec, hrec, hfill⟩
  · rw [hfill]
    exact hcount acc counters h
  · have hfold : I (recovered.foldl (insertRecovered clock setIdx) (acc, false)).1 :=
      foldl_insertRecovered_invariant (fun r hr acc₁ acc₂ =>
        hinsert setIdx fec cache' recovered r acc₁ acc₂ hfec hrec hr) h
    rcases hfill with hfill | ⟨counters, hfill⟩
    · rw [hfill]
      exact hfold
    · rw [hfill]
      exact hcount _ counters (hforget _ setIdx hfold)

/-! ## What recovery leaves alone -/

/-- Attempts at recovery only add recovered shreds at or behind the batch start,
    and forget FEC sets. -/
structure Refilled (acc acc' : SlotAccumulator) : Prop where
  cfg : acc'.cfg = acc.cfg
  batchStart : acc'.batchStart = acc.batchStart
  cursor : acc'.streamingCursor = acc.streamingCursor
  decoder : acc'.streamingDecoder = acc.streamingDecoder
  sigs : acc'.yieldedSigs = acc.yieldedSigs
  finalized : acc'.finalized = acc.finalized
  kept : ∀ (i : ℕ) (ps : PendingShred), acc.pending[i]? = some ps → acc'.pending[i]? = some ps
  added : ∀ (i : ℕ) (ps : PendingShred), acc'.pending[i]? = some ps →
    acc.pending[i]? = some ps ∨ (ps.source.isRecovered = true ∧ acc.batchStart ≤ i)

namespace Refilled

/-- Fields a `Refilled` does not speak about may differ. -/
theorem of_eq {acc' : SlotAccumulator} (hcfg : acc'.cfg = acc.cfg)
    (hstart : acc'.batchStart = acc.batchStart) (hcursor : acc'.streamingCursor = acc.streamingCursor)
    (hdecoder : acc'.streamingDecoder = acc.streamingDecoder)
    (hsigs : acc'.yieldedSigs = acc.yieldedSigs) (hfinalized : acc'.finalized = acc.finalized)
    (hpending : acc'.pending = acc.pending) : acc.Refilled acc' :=
  ⟨hcfg, hstart, hcursor, hdecoder, hsigs, hfinalized, fun _ _ h => by rwa [hpending],
    fun _ _ h => .inl (by rwa [hpending] at h)⟩

theorem refl : acc.Refilled acc := of_eq acc rfl rfl rfl rfl rfl rfl rfl

variable {acc}

theorem trans {acc' acc'' : SlotAccumulator} (h : acc.Refilled acc') (h' : acc'.Refilled acc'') :
    acc.Refilled acc'' where
  cfg := h'.cfg.trans h.cfg
  batchStart := h'.batchStart.trans h.batchStart
  cursor := h'.cursor.trans h.cursor
  decoder := h'.decoder.trans h.decoder
  sigs := h'.sigs.trans h.sigs
  finalized := h'.finalized.trans h.finalized
  kept i ps hps := h'.kept i ps (h.kept i ps hps)
  added i ps hps := by
    rcases h'.added i ps hps with hps | ⟨hrec, hge⟩
    · exact h.added i ps hps
    · exact .inr ⟨hrec, by rwa [← h.batchStart]⟩

end Refilled

theorem Inserts.refilled {clock : Clock} {setIdx : ℕ} {r : ℕ × Bytes} {acc acc' : SlotAccumulator}
    (h : Inserts clock setIdx r acc acc') : acc.Refilled acc' := by
  cases h with
  | skip => exact Refilled.refl _
  | last => exact Refilled.of_eq _ rfl rfl rfl rfl rfl rfl rfl
  | store hge hnew =>
    refine ⟨rfl, rfl, rfl, rfl, rfl, rfl, fun i ps hps => ?_, fun i ps hps => ?_⟩
    · rw [storeRecovered, BTreeMap.getElem?_insert_eq, if_neg ?_, hps]
      rintro rfl
      exact hnew (acc.pending.mem_iff_getElem?.mpr ⟨ps, hps⟩)
    · rw [storeRecovered, BTreeMap.getElem?_insert_eq] at hps
      split_ifs at hps with heq
      · cases hps
        exact .inr ⟨rfl, heq ▸ hge⟩
      · exact .inl hps

theorem refilled_tryFecFill (clock : Clock) (cache : ReedSolomonCache C) (hint : ℕ) :
    acc.Refilled (acc.tryFecFill env clock cache hint).1 := by
  apply tryFecFill_invariant env acc clock cache hint (Refilled.refl _)
  · exact fun _ _ _ _ _ _ _ _ _ _ h hinserts => h.trans hinserts.refilled
  · exact fun _ _ h => { h with }
  · exact fun _ _ h => { h with }

theorem refilled_fillHints (clock : Clock) (cache : ReedSolomonCache C) (hints : List ℕ) :
    acc.Refilled (fillHints env clock acc cache hints).1 := by
  induction hints generalizing acc cache with
  | nil => exact Refilled.refl _
  | cons hint hints ih => exact (refilled_tryFecFill env acc clock cache hint).trans (ih _ _)

theorem refilled_flushFill (clock : Clock) (cache : ReedSolomonCache C) (bcIdx : ℕ) :
    acc.Refilled (acc.flushFill env clock cache bcIdx).1 := by
  unfold flushFill
  split_ifs
  · exact refilled_fillHints env acc clock cache _
  · exact Refilled.refl _

/-! ## FEC without code shreds -/

variable {acc}

theorem tryFecFill_of_empty (h : acc.fecSets = ∅) (clock : Clock) (cache : ReedSolomonCache C)
    (hint : ℕ) : acc.tryFecFill env clock cache hint = (acc, cache, false) := by
  have hnone : acc.selectRecoverableSet hint = none := by simp [selectRecoverableSet, h]
  rw [tryFecFill, hnone]

theorem fillHints_of_empty (h : acc.fecSets = ∅) (clock : Clock) (cache : ReedSolomonCache C)
    (hints : List ℕ) : fillHints env clock acc cache hints = (acc, cache) := by
  induction hints with
  | nil => rfl
  | cons hint hints ih => simp only [fillHints, tryFecFill_of_empty env h, ih]

theorem flushFill_of_empty (h : acc.fecSets = ∅) (clock : Clock) (cache : ReedSolomonCache C)
    (bcIdx : ℕ) : acc.flushFill env clock cache bcIdx = (acc, cache) := by
  unfold flushFill
  split_ifs
  · exact fillHints_of_empty env h clock cache _
  · rfl

/-- A shred that comes late, or again, is dropped. -/
theorem pushData_of_dropped {a : DataArgs} (hlast : a.lastInSlot = false)
    (hdrop : a.index < acc.batchStart ∨ a.index ∈ acc.pending) (clock : Clock) (fuel : ℕ)
    (cache : ReedSolomonCache C) :
    acc.pushData env clock fuel cache a = some ⟨acc.dropHandle a.handle, cache, []⟩ := by
  rw [pushData, if_neg (by rw [hlast]; exact Bool.false_ne_true)]
  by_cases hold : a.index < acc.batchStart
  · rw [if_pos hold]
  · rw [if_neg hold, if_pos (hdrop.resolve_left hold)]

/-- A shred that is stored is streamed, and the flush follows. -/
theorem pushData_of_empty {a : DataArgs} (hlast : a.lastInSlot = false)
    (hge : acc.batchStart ≤ a.index) (hnew : a.index ∉ acc.pending) (clock : Clock) {fuel : ℕ}
    (cache : ReedSolomonCache C) {acc₁ : SlotAccumulator} {out₁ : List VersionedTransaction}
    (hrun : (acc.insertData clock a).advanceStreaming env fuel [] = some (acc₁, out₁))
    (hsets : acc₁.fecSets = ∅) :
    acc.pushData env clock fuel cache a = acc₁.tryFlushBatches env clock fuel cache out₁ := by
  rw [pushData, if_neg (by rw [hlast]; exact Bool.false_ne_true), if_neg (by omega), if_neg hnew]
  simp only [hrun, Option.bind_eq_bind, Option.bind_some, tryFecFill_of_empty env hsets,
    Bool.false_eq_true, if_false, ite_self]

/-! ## The iterations -/

/-- The batch up to `bcIdx` is finalised after the transactions `txs` were
    found in it. -/
def finalise (acc : SlotAccumulator) (txs : List VersionedTransaction) (counters : Counters)
    (bcIdx : ℕ) : SlotAccumulator :=
  { acc.record txs with counters }.completeBatch bcIdx

theorem count_lt_iff {start bcIdx : ℕ} (hs : start ≤ bcIdx) (hb : bcIdx < u32Max) :
    acc.pending.countIn start bcIdx < expectedCount start bcIdx ↔
      ∃ i, start ≤ i ∧ i ≤ bcIdx ∧ i ∉ acc.pending := by
  have hexp : expectedCount start bcIdx = bcIdx + 1 - start := by
    unfold u32Max at hb
    rw [expectedCount, wrapAdd32_of_lt (by omega)]
    omega
  have hle := acc.pending.countIn_le start bcIdx
  have hiff := acc.pending.countIn_eq_iff (a := start) (b := bcIdx)
  rw [hexp]
  constructor
  · intro h
    by_contra hall
    push Not at hall
    have := hiff.mpr hall
    omega
  · rintro ⟨i, h1, h2, h3⟩
    refine lt_of_le_of_ne hle fun heq => h3 (hiff.mp heq i h1 h2)

/-- What an iteration of the flush does: there is no boundary; a shred is
    missing, which ends the loop or, after the timeout, has the batch salvaged;
    or the batch is complete and decoded. `acc` is the state after the recovery
    attempts. -/
theorem flushBody_cases (clock : Clock) {fuel : ℕ} (hfuel : 2 ^ 32 < fuel) (s : CallState C)
    (hb : ∀ i ∈ s.acc.batchCompleteIndices, i < u32Max) :
    (s.acc.batchCompleteIndices.firstFrom s.acc.batchStart = none ∧
      flushBody env clock fuel s = some (.inr s)) ∨
    ∃ bcIdx firstSeen acc cache,
      s.acc.batchCompleteIndices.firstFrom s.acc.batchStart = some (bcIdx, firstSeen) ∧
      s.acc.flushFill env clock s.cache bcIdx = (acc, cache) ∧
      (((∃ i, s.acc.batchStart ≤ i ∧ i ≤ bcIdx ∧ i ∉ acc.pending) ∧
          clock.elapsed bcIdx firstSeen < acc.cfg.stuckBatchTimeout ∧
          flushBody env clock fuel s = some (.inr ⟨acc, cache, s.out⟩)) ∨
        ((∃ i, s.acc.batchStart ≤ i ∧ i ≤ bcIdx ∧ i ∉ acc.pending) ∧
          acc.cfg.stuckBatchTimeout ≤ clock.elapsed bcIdx firstSeen ∧
          ∃ counters, flushBody env clock fuel s = some (.inl
            ⟨acc.finalise (acc.salvaged env s.acc.batchStart (bcIdx + 1)) counters bcIdx, cache,
              s.out ++ unseen acc.yieldedSigs (acc.salvaged env s.acc.batchStart (bcIdx + 1))⟩)) ∨
        ((∀ i, s.acc.batchStart ≤ i → i ≤ bcIdx → i ∈ acc.pending) ∧
          ∃ counters, flushBody env clock fuel s = some (.inl
            ⟨acc.finalise (batchTxs env.wincode (acc.combined s.acc.batchStart bcIdx)) counters
                bcIdx, cache,
              s.out ++ unseen acc.yieldedSigs
                (batchTxs env.wincode (acc.combined s.acc.batchStart bcIdx))⟩))) := by
  unfold flushBody
  cases hfirst : s.acc.batchCompleteIndices.firstFrom s.acc.batchStart with
  | none => exact .inl ⟨rfl, rfl⟩
  | some e =>
    obtain ⟨bcIdx, firstSeen⟩ := e
    obtain ⟨hbc, hstart, -⟩ := BTreeMap.firstFrom_spec _ hfirst
    have hlt : bcIdx < u32Max := hb bcIdx (BTreeMap.mem_iff_getElem? _ |>.mpr ⟨_, hbc⟩)
    obtain ⟨acc, cache, hfill⟩ :
        ∃ acc cache, s.acc.flushFill env clock s.cache bcIdx = (acc, cache) := ⟨_, _, rfl⟩
    refine .inr ⟨bcIdx, firstSeen, acc, cache, rfl, hfill, ?_⟩
    simp only [hfill]
    have hcount : acc.pending.countIn s.acc.batchStart bcIdx < _ ↔ _ := count_lt_iff hstart hlt
    by_cases hmiss : acc.pending.countIn s.acc.batchStart bcIdx <
        expectedCount s.acc.batchStart bcIdx
    · simp only [if_pos hmiss]
      have hmiss := hcount.mp hmiss
      by_cases htime : acc.cfg.stuckBatchTimeout ≤ clock.elapsed bcIdx firstSeen
      · rw [if_pos htime]
        refine .inr (.inl ⟨hmiss, htime, ?_⟩)
        simp only [acc.salvage_eq env hlt hfuel s.out, Option.bind_eq_bind, Option.bind_some]
        exact ⟨_, rfl⟩
      · rw [if_neg htime]
        exact .inl ⟨hmiss, by omega, rfl⟩
    · simp only [if_neg hmiss]
      rw [hcount] at hmiss
      push Not at hmiss
      refine .inr (.inr ⟨hmiss, ?_⟩)
      obtain ⟨counters, hdec⟩ := acc.decodeCombined_eq env s.acc.batchStart bcIdx
      simp only [hdec]
      exact ⟨counters, rfl⟩

/-- What `try_harvest_tail` does with a boundary: nothing if it was finalised
    on the way, else the batch is decoded if it is complete and salvaged if it
    is not. -/
theorem harvestBoundary_cases {fuel : ℕ} (hfuel : 2 ^ 32 < fuel) (acc : SlotAccumulator)
    {bcIdx : ℕ} (hb : bcIdx < u32Max) (out : List VersionedTransaction) :
    (bcIdx < acc.batchStart ∧ acc.harvestBoundary env fuel bcIdx out = some (acc, out)) ∨
    (acc.batchStart ≤ bcIdx ∧ ∃ counters txs,
      acc.harvestBoundary env fuel bcIdx out =
        some (acc.finalise txs counters bcIdx, out ++ unseen acc.yieldedSigs txs) ∧
      (((∀ i, acc.batchStart ≤ i → i ≤ bcIdx → i ∈ acc.pending) ∧
          txs = batchTxs env.wincode (acc.combined acc.batchStart bcIdx)) ∨
        ((∃ i, acc.batchStart ≤ i ∧ i ≤ bcIdx ∧ i ∉ acc.pending) ∧
          txs = acc.salvaged env acc.batchStart (bcIdx + 1)))) := by
  unfold harvestBoundary
  simp only
  by_cases hlt : bcIdx < acc.batchStart
  · exact .inl ⟨hlt, by rw [if_pos hlt]⟩
  rw [if_neg hlt]
  refine .inr ⟨by omega, ?_⟩
  by_cases hall : (List.range' acc.batchStart (bcIdx + 1 - acc.batchStart)).all (· ∈ acc.pending)
  · rw [if_pos hall]
    obtain ⟨counters, hdec⟩ := acc.decodeCombined_eq env acc.batchStart bcIdx
    refine ⟨counters, _, by simp only [hdec]; rfl, .inl ⟨fun i h1 h2 => ?_, rfl⟩⟩
    rw [List.all_eq_true] at hall
    simpa using hall i (by rw [List.mem_range'_1]; omega)
  · rw [if_neg hall]
    simp only [acc.salvage_eq env hb hfuel out, Option.bind_eq_bind, Option.bind_some]
    refine ⟨_, _, rfl, .inr ⟨?_, rfl⟩⟩
    by_contra hno
    push Not at hno
    refine hall (List.all_eq_true.mpr fun i hi => ?_)
    rw [List.mem_range'_1] at hi
    simpa using hno i hi.1 (by omega)

end SlotAccumulator

end ShredStream
