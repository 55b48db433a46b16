import ShredStream.Accumulator.Steps

/-!
# The plain additions of the slot arithmetic

The indices of a slot are `u32`. Most sums saturate; four do not: the index of a
recovered shred in `try_fec_fill` (line 349), the end of a set in
`select_recoverable_set` (line 412) and in `try_flush_batches` (line 445), and the
number of shreds of a batch (line 437). `Adds` lists the operands of those a call
evaluates, whether it returns or not.

* `Fits`: what the accumulator has recorded keeps all of them in range.
* `Fits.call`: calls that do not record a set reaching past the range, and do not
  open the slot with a boundary at its end (`EndsInside`), keep it.
* `Fits.adds`: so no sum of such a call leaves `u32`.
-/

namespace ShredStream.SlotAccumulator

open FirstByKey

variable {C : Type} {env : Env C} {clock : Clock} {fuel : ℕ} {acc acc' : SlotAccumulator}
  {cache : ReedSolomonCache C}

/-! ## The sums -/

/-- `set_idx + nd` (line 412): when the hint is not followed, for every set in
    turn that starts at or before the cursor, up to the one that is selected. -/
def selectAdds (acc : SlotAccumulator) (hint : ℕ) : List (ℕ × ℕ) :=
  let covers := fun e : ℕ × FecSetBuffer =>
    e.2.numData != 0 && e.1 ≤ acc.streamingCursor &&
      acc.streamingCursor < wrapAdd32 e.1 e.2.numData &&
      e.2.canRecoverWith (acc.dataCountFor e.1 e.2)
  let visited := acc.fecSets.toList.take (acc.fecSets.toList.findIdx covers + 1)
  let sums := (visited.filter fun e => e.2.numData != 0 && e.1 ≤ acc.streamingCursor).map
    fun e => (e.1, e.2.numData)
  match acc.fecSets[hint]? with
  | some fec => if fec.canRecoverWith (acc.dataCountFor hint fec) then [] else sums
  | none => sums

/-- Those of `try_fec_fill`: after the selection, `set_idx + position_in_set`
    (line 349) for every packet that was rebuilt. -/
def fillAdds (env : Env C) (acc : SlotAccumulator) (cache : ReedSolomonCache C) (hint : ℕ) :
    List (ℕ × ℕ) :=
  acc.selectAdds hint ++
    match acc.selectRecoverableSet hint with
    | none => []
    | some setIdx =>
      match acc.fecSets[setIdx]? with
      | none => []
      | some fec =>
        if fec.numData = 0 then []
        else
          match fec.tryReconstruct env.reedSolomon (acc.dataRefs setIdx fec.numData) cache with
          | (_, none) => []
          | (_, some recovered) => recovered.map fun r => (setIdx, r.1)

/-- Those of an iteration of `try_flush_batches` but for its recoveries:
    `bc_idx - start + 1` (line 437) and, if shreds are missing, `f + nd` of every
    set (line 445). -/
def flushAdds (acc : SlotAccumulator) : List (ℕ × ℕ) :=
  match acc.batchCompleteIndices.firstFrom acc.batchStart with
  | none => []
  | some (bcIdx, _) =>
    (bcIdx - acc.batchStart, 1) ::
      if acc.pending.countIn acc.batchStart bcIdx < expectedCount acc.batchStart bcIdx then
        (acc.fecSets.toList.filter fun e => e.2.numData != 0).map fun e => (e.1, e.2.numData)
      else []

/-- Streaming goes on after an attempt at recovery that added shreds. -/
def resume (env : Env C) (fuel : ℕ) (t : SlotAccumulator × ReedSolomonCache C × Bool)
    (out : List VersionedTransaction) : Option (SlotAccumulator × List VersionedTransaction) :=
  if t.2.2 then t.1.advanceStreaming env fuel out else some (t.1, out)

/-- The states in which a call enters `try_flush_batches`. -/
inductive EntersFlush (env : Env C) (clock : Clock) (fuel : ℕ) (acc : SlotAccumulator)
    (cache : ReedSolomonCache C) : Call → CallState C → Prop
  | last {a : DataArgs} : a.lastInSlot = true →
      EntersFlush env clock fuel acc cache (.data a) ⟨acc.completeSlot a.index, cache, []⟩
  | passed {a : DataArgs} {acc₁ : SlotAccumulator} {out₁ : List VersionedTransaction} :
      Opens clock acc (.data a) (acc.insertData clock a) →
      (acc.insertData clock a).advanceStreaming env fuel [] = some (acc₁, out₁) →
      a.index < acc₁.streamingCursor →
      EntersFlush env clock fuel acc cache (.data a) ⟨acc₁, cache, out₁⟩
  | data {a : DataArgs} {acc₁ acc₂ : SlotAccumulator} {out₁ out₂ : List VersionedTransaction} :
      Opens clock acc (.data a) (acc.insertData clock a) →
      (acc.insertData clock a).advanceStreaming env fuel [] = some (acc₁, out₁) →
      acc₁.streamingCursor ≤ a.index →
      resume env fuel (acc₁.tryFecFill env clock cache a.fecSetIndex) out₁ = some (acc₂, out₂) →
      EntersFlush env clock fuel acc cache (.data a)
        ⟨acc₂, (acc₁.tryFecFill env clock cache a.fecSetIndex).2.1, out₂⟩
  | code {a : CodeArgs} {acc₁ : SlotAccumulator} {out₁ : List VersionedTransaction} :
      resume env fuel ((acc.recordCode a).tryFecFill env clock cache a.fecSetIndex) [] =
        some (acc₁, out₁) →
      EntersFlush env clock fuel acc cache (.code a)
        ⟨acc₁, ((acc.recordCode a).tryFecFill env clock cache a.fecSetIndex).2.1, out₁⟩

/-- The states at the head of an iteration of `try_flush_batches` in a call. -/
def FlushesAt (env : Env C) (clock : Clock) (fuel : ℕ) (acc : SlotAccumulator)
    (cache : ReedSolomonCache C) (c : Call) (s : CallState C) : Prop :=
  ∃ s₀, EntersFlush env clock fuel acc cache c s₀ ∧
    FuelLoop.Visits (flushBody env clock fuel) s₀ s

/-- The states in which a call attempts a recovery, with the hint it gives. -/
inductive FillsAt (env : Env C) (clock : Clock) (fuel : ℕ) (acc : SlotAccumulator)
    (cache : ReedSolomonCache C) : Call → CallState C → ℕ → Prop
  | data {a : DataArgs} {acc₁ : SlotAccumulator} {out₁ : List VersionedTransaction} :
      Opens clock acc (.data a) (acc.insertData clock a) →
      (acc.insertData clock a).advanceStreaming env fuel [] = some (acc₁, out₁) →
      acc₁.streamingCursor ≤ a.index →
      FillsAt env clock fuel acc cache (.data a) ⟨acc₁, cache, out₁⟩ a.fecSetIndex
  | code {a : CodeArgs} :
      FillsAt env clock fuel acc cache (.code a) ⟨acc.recordCode a, cache, []⟩ a.fecSetIndex
  | flush {c : Call} {s : CallState C} {bcIdx firstSeen hint : ℕ} {before after : List ℕ} :
      FlushesAt env clock fuel acc cache c s →
      s.acc.batchCompleteIndices.firstFrom s.acc.batchStart = some (bcIdx, firstSeen) →
      s.acc.pending.countIn s.acc.batchStart bcIdx < expectedCount s.acc.batchStart bcIdx →
      s.acc.flushHints s.acc.batchStart bcIdx = before ++ hint :: after →
      FillsAt env clock fuel acc cache c
        ⟨(fillHints env clock s.acc s.cache before).1, (fillHints env clock s.acc s.cache before).2,
          s.out⟩ hint
  | harvest {hint : ℕ} {before after : List ℕ} : acc.fecSets.keys = before ++ hint :: after →
      FillsAt env clock fuel acc cache .harvest
        ⟨(fillHints env clock acc cache before).1, (fillHints env clock acc cache before).2, []⟩ hint

/-- The operands of the plain additions a call evaluates. -/
inductive Adds (env : Env C) (clock : Clock) (fuel : ℕ) (acc : SlotAccumulator)
    (cache : ReedSolomonCache C) (c : Call) (p : ℕ × ℕ) : Prop
  | fill {s : CallState C} {hint : ℕ} : FillsAt env clock fuel acc cache c s hint →
      p ∈ fillAdds env s.acc s.cache hint → Adds env clock fuel acc cache c p
  | flush {s : CallState C} : FlushesAt env clock fuel acc cache c s → p ∈ s.acc.flushAdds →
      Adds env clock fuel acc cache c p

/-! ## The states are reached by steps -/

/-- A call for a packet that is not dropped flushes. -/
theorem packet_flushes {c : Call} (hpacket : c ≠ .harvest) {r : CallState C}
    (h : acc.call env clock fuel cache c = some r) :
    (∃ a, c = .data a ∧ (a.index < acc.batchStart ∨ a.index ∈ acc.pending) ∧
      r = ⟨acc.dropHandle a.handle, cache, []⟩) ∨
    ∃ s s', EntersFlush env clock fuel acc cache c s ∧
      s.acc.tryFlushBatches env clock fuel s.cache s.out = some s' ∧
      (r = s' ∨ ∃ a, c = .data a ∧ r = { s' with acc := s'.acc.dropHandle a.handle }) := by
  cases c with
  | data a =>
    rw [call, pushData] at h
    split_ifs at h with hlast hlt hmem
    · obtain ⟨s, hs, h⟩ := Option.bind_eq_some_iff.mp h
      cases h
      exact .inr ⟨_, s, .last hlast, hs, .inr ⟨a, rfl, rfl⟩⟩
    · cases h
      exact .inl ⟨a, rfl, .inl hlt, rfl⟩
    · cases h
      exact .inl ⟨a, rfl, .inr hmem, rfl⟩
    · have hopen : Opens clock acc (.data a) (acc.insertData clock a) :=
        .data (by simpa using hlast) (by omega) hmem
      obtain ⟨⟨acc₁, out₁⟩, hstream, h⟩ := Option.bind_eq_some_iff.mp h
      simp only at h
      split_ifs at h with hcur hfilled
      · obtain ⟨⟨acc₂, out₂⟩, hstream', h⟩ := Option.bind_eq_some_iff.mp h
        exact .inr ⟨_, r, .data hopen hstream hcur (by rw [resume, if_pos hfilled, hstream']), h,
          .inl rfl⟩
      · exact .inr ⟨_, r, .data hopen hstream hcur (by rw [resume, if_neg hfilled]), h, .inl rfl⟩
      · exact .inr ⟨_, r, .passed hopen hstream (by omega), h, .inl rfl⟩
  | code a =>
    rw [call, pushCode] at h
    simp only at h
    split_ifs at h with hfilled
    · obtain ⟨⟨acc₁, out₁⟩, hstream, h⟩ := Option.bind_eq_some_iff.mp h
      exact .inr ⟨_, r, .code (by rw [resume, if_pos hfilled, hstream]), h, .inl rfl⟩
    · exact .inr ⟨_, r, .code (by rw [resume, if_neg hfilled]), h, .inl rfl⟩
  | harvest => exact absurd rfl hpacket

theorem resume_steps {s : CallState C} (hp : s.acc.Parsed) {hint : ℕ}
    {r : SlotAccumulator × List VersionedTransaction}
    (h : resume env fuel (s.acc.tryFecFill env clock s.cache hint) s.out = some r) :
    Steps env clock s ⟨r.1, (s.acc.tryFecFill env clock s.cache hint).2.1, r.2⟩ := by
  have hfill : Step env clock s _ := .fill hint
  unfold resume at h
  split_ifs at h
  · exact (Relation.ReflTransGen.single hfill).trans (advanceStreaming_steps (hfill.parsed hp) _ h)
  · cases h
    exact .single hfill

theorem EntersFlush.steps {c : Call} {s : CallState C} (hp : acc.Parsed) (hc : c.Parsed)
    (h : EntersFlush env clock fuel acc cache c s) :
    ∃ acc₀, Opens clock acc c acc₀ ∧ Steps env clock ⟨acc₀, cache, []⟩ s := by
  cases h with
  | last hlast => exact ⟨_, .last hlast, .refl⟩
  | passed ho hstream _ => exact ⟨_, ho, advanceStreaming_steps (ho.parsed hp hc) _ hstream⟩
  | @data a acc₁ acc₂ out₁ out₂ ho hstream _ hresume =>
    have hfirst : Steps env clock ⟨_, cache, []⟩ ⟨acc₁, cache, out₁⟩ :=
      advanceStreaming_steps (ho.parsed hp hc) cache hstream
    have hp₁ : acc₁.Parsed := hfirst.parsed (ho.parsed hp hc)
    have hresumed := resume_steps (s := ⟨acc₁, cache, out₁⟩) hp₁ hresume
    exact ⟨_, ho, hfirst.trans hresumed⟩
  | @code a acc₁ out₁ hresume =>
    have hresumed := resume_steps (s := ⟨acc.recordCode a, cache, []⟩) (hp.recordCode a) hresume
    exact ⟨_, .code, hresumed⟩

theorem FlushesAt.steps {c : Call} {s : CallState C} (hp : acc.Parsed) (hc : c.Parsed)
    (h : FlushesAt env clock fuel acc cache c s) :
    ∃ acc₀, Opens clock acc c acc₀ ∧ Steps env clock ⟨acc₀, cache, []⟩ s := by
  obtain ⟨s₀, hs₀, hvisits⟩ := h
  obtain ⟨acc₀, ho, hsteps⟩ := hs₀.steps hp hc
  refine ⟨acc₀, ho, hvisits.invariant (I := fun s => Steps env clock ⟨acc₀, cache, []⟩ s) hsteps ?_⟩
  intro s s' hs hbody
  exact hs.trans (flushBody_steps hbody)

theorem FillsAt.steps {c : Call} {s : CallState C} {hint : ℕ} (hp : acc.Parsed) (hc : c.Parsed)
    (h : FillsAt env clock fuel acc cache c s hint) :
    ∃ acc₀, Opens clock acc c acc₀ ∧ Steps env clock ⟨acc₀, cache, []⟩ s := by
  cases h with
  | data ho hstream _ => exact ⟨_, ho, advanceStreaming_steps (ho.parsed hp hc) _ hstream⟩
  | code => exact ⟨_, .code, .refl⟩
  | flush hflush _ _ _ =>
    obtain ⟨acc₀, ho, hsteps⟩ := hflush.steps hp hc
    exact ⟨acc₀, ho, hsteps.trans (fillHints_steps _ _)⟩
  | harvest _ => exact ⟨acc, .harvest, fillHints_steps ⟨acc, cache, []⟩ _⟩

/-! ## The invariant -/

/-- The sum is a `u32`. -/
def FitsU32 (p : ℕ × ℕ) : Prop := p.1 + p.2 ≤ u32Max

/-- The recorded sets end in range, and a boundary at the last index of all is not
    where the slot opens. -/
structure Fits (acc : SlotAccumulator) : Prop where
  fecSets : ∀ (i : ℕ) (fec : FecSetBuffer), acc.fecSets[i]? = some fec → fec.numData ≠ 0 →
    FitsU32 (i, fec.numData)
  boundary : ∀ b ∈ acc.batchCompleteIndices, b ≤ u32Max
  last : u32Max ∈ acc.batchCompleteIndices →
    0 < acc.batchStart ∨ ∃ b ∈ acc.batchCompleteIndices, b < u32Max

theorem fits_withConfig (cfg : AccumulatorConfig) : (withConfig cfg).Fits where
  fecSets i fec h := by simp [withConfig] at h
  boundary b h := by simp [withConfig] at h
  last h := by simp [withConfig] at h

theorem Fits.selectAdds (h : acc.Fits) (hint : ℕ) : ∀ p ∈ acc.selectAdds hint, FitsU32 p := by
  have hsets : ∀ n, ∀ p ∈ ((acc.fecSets.toList.take n).filter fun e =>
      e.2.numData != 0 && e.1 ≤ acc.streamingCursor).map fun e => (e.1, e.2.numData), FitsU32 p := by
    intro n p hmem
    obtain ⟨⟨i, fec⟩, he, rfl⟩ := List.mem_map.mp hmem
    obtain ⟨he, htest⟩ := List.mem_filter.mp he
    rw [Bool.and_eq_true, bne_iff_ne] at htest
    exact h.fecSets i fec (acc.fecSets.mem_toList.mp (List.mem_of_mem_take he)) htest.1
  intro p hmem
  unfold SlotAccumulator.selectAdds at hmem
  simp only at hmem
  split at hmem
  · split_ifs at hmem
    · cases hmem
    · exact hsets _ p hmem
  · exact hsets _ p hmem

theorem Fits.fillAdds (h : acc.Fits) (cache : ReedSolomonCache C) (hint : ℕ) :
    ∀ p ∈ fillAdds env acc cache hint, FitsU32 p := by
  intro p hmem
  rcases List.mem_append.mp hmem with hmem | hmem
  · exact h.selectAdds hint p hmem
  · split at hmem
    · cases hmem
    split at hmem
    · cases hmem
    rename_i setIdx _ _ fec hfec
    split_ifs at hmem with hnd
    · cases hmem
    split at hmem
    · cases hmem
    · rename_i recovered hrec
      obtain ⟨r, hr, rfl⟩ := List.mem_map.mp hmem
      have hpos := FecSetBuffer.pos_lt_of_tryReconstruct hrec r hr
      have hset : setIdx + fec.numData ≤ u32Max := h.fecSets setIdx fec hfec hnd
      show setIdx + r.1 ≤ u32Max
      omega

theorem Fits.flushAdds (h : acc.Fits) : ∀ p ∈ acc.flushAdds, FitsU32 p := by
  intro p hmem
  unfold SlotAccumulator.flushAdds at hmem
  split at hmem
  · cases hmem
  · rename_i bcIdx firstSeen hfirst
    obtain ⟨hbc, hge, hleast⟩ := BTreeMap.firstFrom_spec _ hfirst
    have hbmem := acc.batchCompleteIndices.mem_iff_getElem?.mpr ⟨firstSeen, hbc⟩
    rcases List.mem_cons.mp hmem with rfl | hmem
    · show bcIdx - acc.batchStart + 1 ≤ u32Max
      have hle := h.boundary bcIdx hbmem
      rcases Nat.lt_or_ge bcIdx u32Max with hlt | hge'
      · omega
      · -- the boundary is the last index, so the batch does not start at 0
        have hend : bcIdx = u32Max := le_antisymm hle hge'
        subst hend
        have hpos : 0 < acc.batchStart := by
          rcases h.last hbmem with hpos | ⟨b, hb, hlt⟩
          · exact hpos
          · by_contra hzero
            have := hleast b hb (by omega)
            omega
        omega
    · split_ifs at hmem
      · obtain ⟨⟨i, fec⟩, he, rfl⟩ := List.mem_map.mp hmem
        obtain ⟨he, htest⟩ := List.mem_filter.mp he
        exact h.fecSets i fec (acc.fecSets.mem_toList.mp he) (by simpa using htest)
      · cases hmem

/-! ## What keeps it -/

/-- A boundary stored in front of the last index keeps the boundaries as they
    should be. -/
theorem Fits.insertIfNew (h : acc.Fits) {k t : ℕ} (hk : k < u32Max) :
    Fits { acc with batchCompleteIndices := acc.batchCompleteIndices.insertIfNew k t } where
  fecSets := h.fecSets
  boundary b hb := by
    rcases Std.ExtTreeMap.mem_insertIfNew.mp hb with heq | hb
    · rw [← Nat.compare_eq_eq.mp heq]
      exact hk.le
    · exact h.boundary b hb
  last _ := .inr ⟨k, Std.ExtTreeMap.mem_insertIfNew.mpr (.inl (Nat.compare_eq_eq.mpr rfl)), hk⟩

theorem Fits.tryFecFill (h : acc.Fits) (cache : ReedSolomonCache C) (hint : ℕ) :
    (acc.tryFecFill env clock cache hint).1.Fits := by
  apply tryFecFill_invariant env acc clock cache hint h
  · intro setIdx fec cache' recovered r acc₁ acc₂ hfec hrec hr h₁ hinserts
    have hpos := FecSetBuffer.pos_lt_of_tryReconstruct hrec r hr
    have hset : setIdx + fec.numData ≤ u32Max := h.fecSets setIdx fec hfec (by omega)
    cases hinserts with
    | skip => exact h₁
    | last => exact ⟨h₁.fecSets, h₁.boundary, h₁.last⟩
    | @store d hge hnew hparse hlast =>
      have hidx : wrapAdd32 setIdx r.1 < u32Max := by
        rw [wrapAdd32_of_lt (by unfold u32Max at hset; omega)]
        omega
      unfold storeRecovered
      split_ifs
      · have := h₁.insertIfNew (t := clock.now (wrapAdd32 setIdx r.1)) hidx
        exact ⟨this.fecSets, this.boundary, this.last⟩
      · exact ⟨h₁.fecSets, h₁.boundary, h₁.last⟩
  · intro acc₁ counters h₁
    exact ⟨h₁.fecSets, h₁.boundary, h₁.last⟩
  · intro acc₁ k h₁
    refine ⟨fun i fec hfec => ?_, h₁.boundary, h₁.last⟩
    rw [BTreeMap.getElem?_erase_eq] at hfec
    split_ifs at hfec
    exact h₁.fecSets i fec hfec

theorem Fits.finalise (h : acc.Fits) (txs : List VersionedTransaction) (counters : Counters)
    (bcIdx : ℕ) : (acc.finalise txs counters bcIdx).Fits where
  fecSets i fec hfec := h.fecSets i fec ((BTreeMap.getElem?_filter_eq _).mp hfec).1
  boundary b hb := h.boundary b ((mem_completeBatch_boundaries _).mp hb).1
  last _ := by
    apply Or.inl
    show 0 < satAdd32 bcIdx 1
    exact lt_min (Nat.succ_pos _) (by decide)

theorem Step.fits {s s' : CallState C} (h : Step env clock s s') (hs : s.acc.Fits) : s'.acc.Fits := by
  cases h with
  | fill hint => exact hs.tryFecFill s.cache hint
  | finalise txs => exact hs.finalise txs _ _
  | _ => exact ⟨hs.fecSets, hs.boundary, hs.last⟩

/-- The call records no set that reaches past the last index, and a batch that ends
    at the last index is not the one the slot opens with. -/
def EndsInside (acc : SlotAccumulator) : Call → Prop
  | .data a => a.batchComplete = true → a.lastInSlot = false → a.index = u32Max →
      a.index ∈ acc.pending ∨ 0 < acc.batchStart ∨ ∃ b ∈ acc.batchCompleteIndices, b < u32Max
  | .code a => FitsU32 (a.fecSetIndex, a.numData) ∨
      ∃ fec, acc.fecSets[a.fecSetIndex]? = some fec ∧ fec.numData ≠ 0
  | .harvest => True

theorem Fits.recordCode (h : acc.Fits) {a : CodeArgs} (ha : acc.EndsInside (.code a)) :
    (acc.recordCode a).Fits := by
  have hsets : ∀ (i : ℕ) (fec : FecSetBuffer), (acc.recordCode a).fecSets[i]? = some fec →
      fec.numData ≠ 0 → FitsU32 (i, fec.numData) := by
    intro i fec hfec hnd
    rcases acc.getElem?_recordCode hfec with ⟨-, hold⟩ | ⟨rfl, rfl⟩
    · exact h.fecSets i fec hold hnd
    · cases hget : acc.fecSets[a.fecSetIndex]? with
      | none =>
        rcases ha with ha | ⟨fec, hfec, -⟩
        · exact ha
        · rw [hget] at hfec
          cases hfec
      | some fec =>
        simp only [Option.getD_some, FecSetBuffer.recordCode]
        split_ifs with hzero
        · rcases ha with ha | ⟨fec', hfec', hne⟩
          · exact ha
          · rw [hget] at hfec'
            cases hfec'
            exact absurd hzero hne
        · exact h.fecSets _ fec hget hzero
  obtain ⟨fecSets, counters, heq, -⟩ := acc.recordCode_cases a
  rw [heq] at hsets ⊢
  exact ⟨hsets, h.boundary, h.last⟩

theorem Opens.fits {c : Call} {acc₀ : SlotAccumulator} (h : Opens clock acc c acc₀) (hf : acc.Fits)
    (hindex : ∀ a, c = .data a → a.index ≤ u32Max) (hc : acc.EndsInside c) : acc₀.Fits := by
  cases h with
  | last => exact ⟨hf.fecSets, hf.boundary, hf.last⟩
  | @data a hlast hge hnew =>
    unfold SlotAccumulator.insertData
    split_ifs with hflag
    · rcases (hindex a rfl).lt_or_eq with hlt | heq
      · have := hf.insertIfNew (t := clock.now a.index) hlt
        exact ⟨this.fecSets, this.boundary, this.last⟩
      · refine ⟨hf.fecSets, fun b hb => ?_, fun _ => ?_⟩
        · rcases Std.ExtTreeMap.mem_insertIfNew.mp hb with hb | hb
          · rw [← Nat.compare_eq_eq.mp hb, heq]
          · exact hf.boundary b hb
        · rcases (hc hflag hlast heq).resolve_left hnew with hpos | ⟨b, hb, hlt⟩
          · exact .inl hpos
          · exact .inr ⟨b, Std.ExtTreeMap.mem_insertIfNew.mpr (.inr hb), hlt⟩
    · exact ⟨hf.fecSets, hf.boundary, hf.last⟩
  | code => exact hf.recordCode hc
  | harvest => exact hf

/-- A packet carries a 32-bit index. -/
theorem Call.Made.index_le {slot : ℕ} {c : Call} (h : c.Made slot) :
    ∀ a, c = .data a → a.index ≤ u32Max := by
  cases h with
  | data hparse =>
    rintro a ⟨⟩
    exact index_le_of_parseKind hparse
  | code => rintro a ⟨⟩

theorem Call.index_le_harvest : ∀ a, Call.harvest = .data a → a.index ≤ u32Max := by
  rintro a ⟨⟩

theorem Steps.fits {s s' : CallState C} (h : Steps env clock s s') (hs : s.acc.Fits) : s'.acc.Fits :=
  h.invariant (fun _ _ hs h => h.fits hs) hs

theorem Fits.call (hf : acc.Fits) (hp : acc.Parsed) {c : Call} (hc : c.Parsed)
    (hindex : ∀ a, c = .data a → a.index ≤ u32Max) (hinside : acc.EndsInside c) {r : CallState C}
    (h : acc.call env clock fuel cache c = some r) : r.acc.Fits :=
  call_invariant (fun _ _ _ hs h => h.fits hs) (fun _ _ h => ⟨h.fecSets, h.boundary, h.last⟩)
    (fun _ ho => ho.fits hf hindex hinside) hp hf hc h

/-- No sum that such a call evaluates overflows. -/
theorem Fits.adds (hf : acc.Fits) (hp : acc.Parsed) {c : Call} (hc : c.Parsed)
    (hindex : ∀ a, c = .data a → a.index ≤ u32Max) (hinside : acc.EndsInside c) {p : ℕ × ℕ}
    (h : Adds env clock fuel acc cache c p) : FitsU32 p := by
  cases h with
  | @fill s hint hfills hmem =>
    obtain ⟨acc₀, ho, hsteps⟩ := hfills.steps hp hc
    have hs : s.acc.Fits := hsteps.fits (ho.fits hf hindex hinside)
    exact hs.fillAdds s.cache hint p hmem
  | @flush s hflush hmem =>
    obtain ⟨acc₀, ho, hsteps⟩ := hflush.steps hp hc
    have hs : s.acc.Fits := hsteps.fits (ho.fits hf hindex hinside)
    exact hs.flushAdds p hmem

/-! ## Where they overflow -/

/-- A fresh accumulator that is given the last index of all as the end of a batch
    counts `u32::MAX + 1` shreds in it. -/
theorem adds_of_last (env : Env C) (clock : Clock) (fuel : ℕ) (cfg : AccumulatorConfig)
    (cache : ReedSolomonCache C) {a : DataArgs} (hindex : a.index = u32Max)
    (hflag : a.batchComplete = true) (hlast : a.lastInSlot = false) :
    Adds env clock (fuel + 1) (withConfig cfg) cache (.data a) (u32Max, 1) := by
  have hopen : Opens clock (withConfig cfg) (.data a) ((withConfig cfg).insertData clock a) :=
    .data hlast (Nat.zero_le _) (by simp [withConfig])
  have hboundary : ((withConfig cfg).insertData clock a).batchCompleteIndices =
      (∅ : BTreeMap ℕ).insertIfNew a.index (clock.now a.index) := by
    rw [SlotAccumulator.insertData, if_pos hflag]
    rfl
  have hcursor : ((withConfig cfg).insertData clock a).pending[0]? = none := by
    show ((∅ : BTreeMap PendingShred).insert a.index a.shred)[0]? = none
    rw [BTreeMap.getElem?_insert_eq, if_neg (by rw [hindex]; decide)]
    rfl
  generalize hacc : (withConfig cfg).insertData clock a = acc at hopen hboundary hcursor
  have hzero : acc.streamingCursor = 0 ∧ acc.batchStart = 0 ∧ acc.fecSets = ∅ := by
    rw [← hacc]
    exact ⟨rfl, rfl, rfl⟩
  obtain ⟨hcur, hstart, hsets⟩ := hzero
  have hstream : acc.advanceStreaming env (fuel + 1) [] = some (acc, []) := by
    apply FuelLoop.run_done
    rw [advanceStreamingBody, hcur, hcursor]
  have hfill := tryFecFill_of_empty env hsets clock cache a.fecSetIndex
  have henters : EntersFlush env clock (fuel + 1) (withConfig cfg) cache (.data a)
      ⟨acc, (acc.tryFecFill env clock cache a.fecSetIndex).2.1, []⟩ := by
    subst hacc
    apply EntersFlush.data hopen hstream
    · rw [hcur]
      exact Nat.zero_le _
    · rw [hfill]
      rfl
  apply Adds.flush ⟨_, henters, .start⟩
  obtain ⟨t, hfirst⟩ : ∃ t, acc.batchCompleteIndices.firstFrom acc.batchStart = some (u32Max, t) := by
    have hmem : ∀ i, i ∈ acc.batchCompleteIndices ↔ i = u32Max := by
      intro i
      rw [hboundary, hindex, Std.ExtTreeMap.mem_insertIfNew, Nat.compare_eq_eq]
      simp [eq_comm]
    cases hfirst : acc.batchCompleteIndices.firstFrom acc.batchStart with
    | none =>
      have := (BTreeMap.firstFrom_eq_none _).mp hfirst u32Max ((hmem _).mpr rfl)
      omega
    | some e =>
      have hkey := (BTreeMap.firstFrom_spec _ hfirst).1
      exact ⟨e.2, by rw [← (hmem e.1).mp (BTreeMap.mem_iff_getElem? _ |>.mpr ⟨_, hkey⟩)]⟩
  show (u32Max, 1) ∈ acc.flushAdds
  unfold flushAdds
  rw [hfirst, hstart]
  exact List.mem_cons_self

end ShredStream.SlotAccumulator
