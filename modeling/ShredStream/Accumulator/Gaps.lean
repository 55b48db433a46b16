import ShredStream.Accumulator.Additions
import ShredStream.Accumulator.LostShreds
import ShredStream.Accumulator.Refills

/-!
# Gaps at the cursor

A set is tried by `push_code` when it gets a code shred, by `push_data` when it gets
a data shred unless the cursor has passed it, and by the flush when a batch it is
part of has a gap.

* `Filled.flush`: what a flush leaves of a set that was not tried before it.
* `gaps_recovered`: in a run in which no call leaves a gap behind (`LeavesNoGap`), no
  gap at the cursor can be recovered when a call returns.
* `gap_not_recovered`: `push_data` can leave one.
-/

namespace ShredStream.SlotAccumulator

variable {C : Type} {env : Env C} {clock : Clock} {fuel : ℕ} {acc acc' : SlotAccumulator}
  {cache : ReedSolomonCache C} {parity : ℕ → ℕ → List Bytes → List Bytes}
  {sets : FecSets env.reedSolomon parity} {F : FecSet parity}

/-! ## What a flush makes up for -/

/-- The index is behind every boundary that is known. -/
def Behind (acc : SlotAccumulator) (i : ℕ) : Prop := ∀ b ∈ acc.batchCompleteIndices, b < i

instance (acc : SlotAccumulator) (i : ℕ) : Decidable (acc.Behind i) :=
  decidable_of_iff (acc.batchCompleteIndices.keys.all (· < i)) (by simp [Behind])

/-- The pending shreds of a set behind the boundaries that are known. -/
def shredsBehind (acc : SlotAccumulator) (i nd : ℕ) : ℕ :=
  (acc.pending.toList.filter fun e =>
    i ≤ e.1 && e.1 < i + nd && e.2.fecSetIndex = i && acc.Behind e.1).length

/-- No batch whose boundary is known has a gap. -/
def NoneOpen (acc : SlotAccumulator) : Prop :=
  ∀ b ∈ acc.batchCompleteIndices, ∀ i, acc.batchStart ≤ i → i ≤ b → i ∈ acc.pending

/-- Behind the boundaries there are enough shreds of the set, and a gap. -/
def GapBehind (F : FecSet parity) (acc : SlotAccumulator) : Prop :=
  (∃ fec, acc.fecSets[F.fecSetIndex]? = some fec ∧
    F.numData ≤ acc.shredsBehind F.fecSetIndex F.numData + fec.code.size) ∧
  ∃ p < F.numData, acc.Behind (F.fecSetIndex + p) ∧ F.Stores acc p

/-- A flush of the accumulator leaves a gap that the set could fill: the batches it
    finds have no gaps, so it tries no set. -/
structure LeavesGap (F : FecSet parity) (acc : SlotAccumulator) : Prop where
  complete : acc.NoneOpen
  gap : GapBehind F acc

/-- What holds of a set at the head of an iteration of a flush that leaves no gap
    the set could fill. -/
inductive WillFill (F : FecSet parity) (acc : SlotAccumulator) : Prop
  | filled : Filled F acc → WillFill F acc
  /-- A batch has a gap, and it is behind the first index of the set. -/
  | opened {b i x : ℕ} : b ∈ acc.batchCompleteIndices → acc.batchStart ≤ i → i ≤ b →
      i ∉ acc.pending → F.fecSetIndex ≤ x →
      (∀ j, acc.batchStart ≤ j → j ≤ x → j ∈ acc.pending) → WillFill F acc
  | complete : acc.NoneOpen → ¬GapBehind F acc → WillFill F acc
  /-- The flush does not return. -/
  | stuck : acc.batchStart = u32Max → u32Max ∈ acc.batchCompleteIndices → WillFill F acc

/-- No set that was recorded reaches the last index. -/
def EndsBelow (acc : SlotAccumulator) : Prop :=
  ∀ (i : ℕ) (fec : FecSetBuffer), acc.fecSets[i]? = some fec → i + fec.numData ≤ u32Max

theorem Step.endsBelow {s s' : CallState C} (h : Step env clock s s') (hs : s.acc.EndsBelow) :
    s'.acc.EndsBelow := by
  cases h with
  | fill hint => exact fun i fec hfec => hs i fec (tryFecFill_fecSets env clock _ _ hint i hfec)
  | finalise txs => exact fun i fec hfec => hs i fec ((BTreeMap.getElem?_filter_eq _).mp hfec).1
  | _ => exact hs

theorem Steps.endsBelow {s s' : CallState C} (h : Steps env clock s s') (hs : s.acc.EndsBelow) :
    s'.acc.EndsBelow :=
  h.invariant (fun _ _ hs h => h.endsBelow hs) hs

theorem mem_pending_of_boundary (hc : acc.Consistent) {b : ℕ}
    (hb : b ∈ acc.batchCompleteIndices) : b ∈ acc.pending := by
  obtain ⟨ps, hps, -⟩ := (hc.boundary_iff b).mp hb
  exact acc.pending.mem_iff_getElem?.mpr ⟨ps, hps⟩

/-- An iteration that finds shreds missing finds a gap. -/
theorem exists_gap {start bcIdx : ℕ} (hle : start ≤ bcIdx)
    (h : acc.pending.countIn start bcIdx < expectedCount start bcIdx) :
    ∃ i, start ≤ i ∧ i ≤ bcIdx ∧ i ∉ acc.pending := by
  by_contra hall
  push Not at hall
  have hcount := BTreeMap.countIn_eq_iff acc.pending |>.mpr hall
  have hexp : expectedCount start bcIdx ≤ bcIdx - start + 1 := Nat.mod_le _ _
  omega

/-- One that finds none missing finds no gap, unless it counts all 2 ^ 32 indices. -/
theorem no_gap {start bcIdx : ℕ} (hle : bcIdx - start < u32Max)
    (h : ¬acc.pending.countIn start bcIdx < expectedCount start bcIdx) :
    ∀ i, start ≤ i → i ≤ bcIdx → i ∈ acc.pending := by
  have hexp : expectedCount start bcIdx = bcIdx - start + 1 := by
    unfold u32Max at hle
    exact Nat.mod_eq_of_lt (by omega)
  have hcount := acc.pending.countIn_le start bcIdx
  intro i h1 h2
  exact BTreeMap.countIn_eq_iff acc.pending |>.mp (by omega) i h1 h2

/-- The set is among those the flush tries, or ends before the batch. -/
theorem mem_flushHints (h : FromSets sets acc) (hbelow : acc.EndsBelow)
    (hF : sets.set F.fecSetIndex = some F) {fec : FecSetBuffer}
    (hfec : acc.fecSets[F.fecSetIndex]? = some fec) {start bcIdx : ℕ}
    (hend : start < F.fecSetIndex + F.numData) (hle : F.fecSetIndex ≤ bcIdx) :
    F.fecSetIndex ∈ acc.flushHints start bcIdx := by
  have hgen := h.genuine hF hfec
  have hmax := hbelow _ fec hfec
  rw [hgen.code.numData] at hmax
  have hpos := F.numData_pos
  have hwrap : wrapAdd32 F.fecSetIndex F.numData = F.fecSetIndex + F.numData :=
    wrapAdd32_of_lt (by unfold u32Max at hmax; omega)
  refine List.mem_map.mpr ⟨(F.fecSetIndex, fec), List.mem_filter.mpr
    ⟨acc.fecSets.mem_toList.mpr hfec, ?_⟩, rfl⟩
  simp only [hgen.code.numData, hwrap, Bool.and_eq_true, bne_iff_ne, decide_eq_true_eq]
  exact ⟨⟨by omega, hend⟩, hle⟩

theorem filled_fillHints {s : CallState C} (hc : s.acc.Consistent)
    (hrs : env.reedSolomon.Rebuilds parity) (hs : SetState sets s)
    (hF : sets.set F.fecSetIndex = some F) {hints : List ℕ} (hhint : F.fecSetIndex ∈ hints) :
    Filled F (fillHints env clock s.acc s.cache hints).1 := by
  induction hints generalizing s with
  | nil => cases hhint
  | cons hint hints ih =>
    have hfill : Step env clock s _ := .fill hint
    have hc' := hfill.consistent hc
    have hs' := hfill.setState hrs hs
    rcases List.mem_cons.mp hhint with rfl | hhint
    · exact (fillHints_steps ⟨_, _, s.out⟩ hints).filled hc' hrs hs' hF
        (filled_of_hint hs.fromSets hrs hF hs.cache)
    · exact ih hc' hs' hhint

/-- An iteration that finds a gap tries the set. -/
theorem WillFill.fillHints {s : CallState C} (h : WillFill F s.acc) (hc : s.acc.Consistent)
    (hrs : env.reedSolomon.Rebuilds parity) (hs : SetState sets s) (hbelow : s.acc.EndsBelow)
    (hF : sets.set F.fecSetIndex = some F) {bcIdx firstSeen : ℕ}
    (hfirst : s.acc.batchCompleteIndices.firstFrom s.acc.batchStart = some (bcIdx, firstSeen))
    (hmiss : s.acc.pending.countIn s.acc.batchStart bcIdx < expectedCount s.acc.batchStart bcIdx) :
    Filled F (fillHints env clock s.acc s.cache (s.acc.flushHints s.acc.batchStart bcIdx)).1 := by
  obtain ⟨hbc, hge, hleast⟩ := BTreeMap.firstFrom_spec _ hfirst
  have hbmem := s.acc.batchCompleteIndices.mem_iff_getElem?.mpr ⟨firstSeen, hbc⟩
  have hkeep (hfilled : Filled F s.acc) : Filled F (SlotAccumulator.fillHints env clock s.acc s.cache
      (s.acc.flushHints s.acc.batchStart bcIdx)).1 :=
    (fillHints_steps s (s.acc.flushHints s.acc.batchStart bcIdx)).filled hc hrs hs hF hfilled
  obtain ⟨i, h1, h2, hi⟩ := exists_gap hge hmiss
  cases h with
  | filled hfilled => exact hkeep hfilled
  | complete hnone => exact absurd (hnone bcIdx hbmem i h1 h2) hi
  | stuck hstart hmax =>
    have hlast := hleast u32Max hmax (by omega)
    have hb := hs.fromSets.boundary bcIdx hbmem
    obtain rfl : i = bcIdx := by omega
    exact absurd (mem_pending_of_boundary hc hbmem) hi
  | @opened b j x _ _ _ _ hx hall =>
    have hlt : F.fecSetIndex ≤ bcIdx := by
      by_contra hgt
      exact hi (hall i h1 (by omega))
    by_cases hend : s.acc.batchStart < F.fecSetIndex + F.numData
    · cases hfec : s.acc.fecSets[F.fecSetIndex]? with
      | none =>
        apply hkeep
        intro fec hfec'
        rw [hfec] at hfec'
        cases hfec'
      | some fec =>
        exact filled_fillHints hc hrs hs hF (mem_flushHints hs.fromSets hbelow hF hfec hend hlt)
    · apply hkeep
      intro _ _ _ p hp hstores
      have hge' := hstores.1
      omega

theorem shredsBehind_completeBatch_le (acc : SlotAccumulator) (bcIdx i nd : ℕ) :
    (acc.completeBatch bcIdx).shredsBehind i nd ≤ acc.shredsBehind i nd := by
  unfold shredsBehind
  apply List.Subperm.length_le
  apply List.Nodup.subperm ((acc.completeBatch bcIdx).pending.toList_nodup.filter _)
  rintro ⟨k, ps⟩ he
  obtain ⟨hmem, hcond⟩ := List.mem_filter.mp he
  obtain ⟨hps, hge⟩ := (completeBatch_pending _).mp (BTreeMap.mem_toList _ |>.mp hmem)
  refine List.mem_filter.mpr ⟨acc.pending.mem_toList.mpr hps, ?_⟩
  simp only [Bool.and_eq_true, decide_eq_true_eq] at hcond ⊢
  refine ⟨hcond.1, fun b hb => ?_⟩
  by_cases hnext : satAdd32 bcIdx 1 ≤ b
  · exact hcond.2 b ((mem_completeBatch_boundaries _).mpr ⟨hb, hnext⟩)
  · omega

/-- Finalising a batch adds nothing behind the boundaries. -/
theorem GapBehind.of_completeBatch {bcIdx : ℕ} (hb : acc.batchStart ≤ satAdd32 bcIdx 1)
    (h : GapBehind F (acc.completeBatch bcIdx)) : GapBehind F acc := by
  obtain ⟨⟨fec, hfec, hcount⟩, p, hp, hbehind, hge, hnew, hlast⟩ := h
  have hge' : satAdd32 bcIdx 1 ≤ F.fecSetIndex + p := hge
  refine ⟨⟨fec, ((BTreeMap.getElem?_filter_eq _).mp hfec).1, hcount.trans
    (Nat.add_le_add_right (acc.shredsBehind_completeBatch_le bcIdx _ _) _)⟩, p, hp,
    fun b hbmem => ?_, hb.trans hge', fun hmem => ?_, hlast⟩
  · by_cases hnext : satAdd32 bcIdx 1 ≤ b
    · exact hbehind b ((mem_completeBatch_boundaries _).mpr ⟨hbmem, hnext⟩)
    · omega
  · exact hnew ((mem_completeBatch_pending _).mpr ⟨hmem, hge'⟩)

/-- An iteration that finds no gap finalises the batch. -/
theorem WillFill.finalise (h : WillFill F acc) (hc : acc.Consistent) (hs : FromSets sets acc)
    {bcIdx firstSeen : ℕ}
    (hfirst : acc.batchCompleteIndices.firstFrom acc.batchStart = some (bcIdx, firstSeen))
    (hfull : ¬acc.pending.countIn acc.batchStart bcIdx < expectedCount acc.batchStart bcIdx)
    (txs : List VersionedTransaction) (counters : Counters) :
    WillFill F (acc.finalise txs counters bcIdx) := by
  obtain ⟨hbc, hge, -⟩ := BTreeMap.firstFrom_spec _ hfirst
  have hbmem := acc.batchCompleteIndices.mem_iff_getElem?.mpr ⟨firstSeen, hbc⟩
  have hle := hs.boundary bcIdx hbmem
  have hnext := hc.start_le_next hge
  cases h with
  | filled hfilled =>
    exact .filled (hfilled.finalise hnext txs counters)
  | @opened b i x hb h1 h2 hi hx hall =>
    by_cases hwrap : bcIdx - acc.batchStart < u32Max
    · have hthere := no_gap hwrap hfull
      have hlt : bcIdx < i := by
        by_contra hle
        exact hi (hthere i h1 (by omega))
      have hi' : satAdd32 bcIdx 1 ≤ i := (min_le_left _ _).trans hlt
      refine .opened ((mem_completeBatch_boundaries _).mpr ⟨hb, hi'.trans h2⟩) hi' h2 ?_ hx ?_
      · exact fun hmem => hi ((mem_completeBatch_pending _).mp hmem).1
      · exact fun j hj1 hj2 =>
          (mem_completeBatch_pending _).mpr ⟨hall j (hnext.trans hj1) hj2, hj1⟩
    · -- the count of all indices wraps around, and the last batch is found again and again
      have hmax : bcIdx = u32Max := by omega
      have hsat : satAdd32 bcIdx 1 = u32Max := by
        rw [hmax]
        rfl
      refine .stuck hsat ((mem_completeBatch_boundaries _).mpr ⟨hmax ▸ hbmem, hsat.le⟩)
  | complete hnone hgap =>
    refine .complete (fun b hb i h1 h2 => ?_) fun h => hgap (h.of_completeBatch hnext)
    obtain ⟨hb, -⟩ := (mem_completeBatch_boundaries _).mp hb
    exact (mem_completeBatch_pending _).mpr ⟨hnone b hb i (hnext.trans h1) h2, h1⟩
  | stuck hstart hmax =>
    have hsat : satAdd32 bcIdx 1 = u32Max := by
      rw [show bcIdx = u32Max by omega]
      rfl
    exact .stuck hsat ((mem_completeBatch_boundaries _).mpr ⟨hmax, hsat.le⟩)

/-- When no boundary is left, nothing of the set can be recovered. -/
theorem WillFill.exit (h : WillFill F acc) (hc : acc.Consistent) (hs : FromSets sets acc)
    (hF : sets.set F.fecSetIndex = some F)
    (hnone : acc.batchCompleteIndices.firstFrom acc.batchStart = none) : Filled F acc := by
  have hempty : ∀ b, b ∉ acc.batchCompleteIndices := by
    intro b hb
    have hlt := (BTreeMap.firstFrom_eq_none _).mp hnone b hb
    have hge := hc.ge_start b (mem_pending_of_boundary hc hb)
    omega
  cases h with
  | filled hfilled => exact hfilled
  | opened hb => exact absurd hb (hempty _)
  | stuck _ hmax => exact absurd hmax (hempty _)
  | complete _ hgap =>
    intro fec hfec hcount p hp hstores
    have hgen := hs.genuine hF hfec
    refine hgap ⟨⟨fec, hfec, hcount.trans (Nat.add_le_add_right ?_ _)⟩, p, hp,
      fun b hb => absurd hb (hempty b), hstores⟩
    unfold dataCountFor shredsBehind
    split_ifs
    · exact Nat.zero_le _
    · rw [← List.countP_eq_length_filter, ← List.countP_eq_length_filter, hgen.code.numData]
      apply List.countP_mono_left
      intro e _ he
      have hsat : satAdd32 F.fecSetIndex F.numData ≤ F.fecSetIndex + F.numData := min_le_left _ _
      simp only [Bool.and_eq_true, decide_eq_true_eq] at he ⊢
      exact ⟨⟨⟨he.1.1, by omega⟩, he.2⟩, fun b hb => absurd hb (hempty b)⟩

/-- An iteration tries the set, or finds no shreds missing. -/
theorem WillFill.flushFill {s : CallState C} (h : WillFill F s.acc) (clock : Clock)
    (hc : s.acc.Consistent) (hrs : env.reedSolomon.Rebuilds parity) (hs : SetState sets s)
    (hbelow : s.acc.EndsBelow) (hF : sets.set F.fecSetIndex = some F) {bcIdx firstSeen : ℕ}
    (hfirst : s.acc.batchCompleteIndices.firstFrom s.acc.batchStart = some (bcIdx, firstSeen)) :
    Filled F (s.acc.flushFill env clock s.cache bcIdx).1 ∨
    (¬s.acc.pending.countIn s.acc.batchStart bcIdx < expectedCount s.acc.batchStart bcIdx ∧
      (s.acc.flushFill env clock s.cache bcIdx).1 = s.acc) := by
  unfold SlotAccumulator.flushFill
  split_ifs with hmiss
  · exact .inl (h.fillHints hc hrs hs hbelow hF hfirst hmiss)
  · exact .inr ⟨hmiss, rfl⟩

/-- A flush leaves no gap that the set could fill. -/
theorem Filled.flush {s : CallState C} (h : WillFill F s.acc) (hc : s.acc.Consistent)
    (hrs : env.reedSolomon.Rebuilds parity) (hs : SetState sets s) (hbelow : s.acc.EndsBelow)
    (hF : sets.set F.fecSetIndex = some F) {r : CallState C}
    (hr : s.acc.tryFlushBatches env clock fuel s.cache s.out = some r) : Filled F r.acc := by
  refine FuelLoop.run_spec
    (fun s : CallState C =>
      s.acc.Consistent ∧ SetState sets s ∧ s.acc.EndsBelow ∧ WillFill F s.acc)
    (fun r => Filled F r.acc) ?_ ?_ fuel ⟨s.acc, s.cache, s.out⟩ r ⟨hc, hs, hbelow, h⟩ hr
  · rintro s s' ⟨hc, hs, hbelow, h⟩ hbody
    have hsteps := flushBody_steps hbody
    refine ⟨(Steps.consistent hsteps hc).1, hsteps.setState hrs hs, hsteps.endsBelow hbelow, ?_⟩
    rcases flushBody_outcome hbody with
      ⟨-, hr⟩ | ⟨bcIdx, t, acc₁, cache₁, hfirst, hfill, ⟨-, hr⟩ | ⟨txs, counters, -, hr⟩⟩
    · cases hr
    · cases hr
    · cases hr
      have hc₁ := (Steps.consistent (flushFill_steps env clock s bcIdx) hc).1
      have htried := h.flushFill clock hc hrs hs hbelow hF hfirst
      rw [hfill] at hc₁ htried
      rcases htried with hfilled | ⟨hfull, rfl⟩
      · have hrefill := refilled_flushFill env s.acc clock s.cache bcIdx
        rw [hfill] at hrefill
        have hge : acc₁.batchStart ≤ bcIdx := by
          rw [hrefill.batchStart]
          exact (BTreeMap.firstFrom_spec _ hfirst).2.1
        exact .filled (hfilled.finalise (hc₁.start_le_next hge) txs counters)
      · exact h.finalise hc hs.fromSets hfirst hfull txs counters
  · rintro s r ⟨hc, hs, hbelow, h⟩ hbody
    rcases flushBody_outcome hbody with
      ⟨hnone, hr⟩ | ⟨bcIdx, t, acc₁, cache₁, hfirst, hfill, ⟨hmiss, hr⟩ | ⟨txs, counters, -, hr⟩⟩
    · cases hr
      exact h.exit hc hs.fromSets hF hnone
    · cases hr
      have htried := h.flushFill clock hc hrs hs hbelow hF hfirst
      rw [hfill] at htried
      rcases htried with hfilled | ⟨hfull, rfl⟩
      · exact hfilled
      · exact absurd hmiss hfull
    · cases hr

/-! ## Calls -/

/-- The cursor test of `push_data` skips the recovery of a gap, and the flush does
    not make up for it. -/
def SkipsGap (env : Env C) (clock : Clock) (fuel : ℕ) (sets : FecSets env.reedSolomon parity)
    (acc : SlotAccumulator) (a : DataArgs) : Prop :=
  ∃ F acc₁ out₁, Opens clock acc (.data a) (acc.insertData clock a) ∧
    (acc.insertData clock a).advanceStreaming env fuel [] = some (acc₁, out₁) ∧
    a.index < acc₁.streamingCursor ∧ sets.set a.fecSetIndex = some F ∧ LeavesGap F acc₁

/-- A data packet that does not leave a gap, or a code packet of a set that does not
    reach the last index. -/
def LeavesNoGap (env : Env C) (clock : Clock) (fuel : ℕ) (sets : FecSets env.reedSolomon parity)
    (acc : SlotAccumulator) : Call → Prop
  | .data a => ¬SkipsGap env clock fuel sets acc a
  | .code a => a.InRange
  | .harvest => True

/-- What the attempt of a call with the hint of its set leaves. -/
theorem resume_filled {s : CallState C} (hp : s.acc.Parsed) (hc : s.acc.Consistent)
    (hrs : env.reedSolomon.Rebuilds parity) (hs : SetState sets s)
    (hF : sets.set F.fecSetIndex = some F) {hint : ℕ}
    (hhint : hint = F.fecSetIndex ∨ Filled F s.acc) {r : SlotAccumulator × List VersionedTransaction}
    (h : resume env fuel (s.acc.tryFecFill env clock s.cache hint) s.out = some r) :
    Filled F r.1 := by
  have hfill : Step env clock s _ := .fill hint
  have hfilled : Filled F (s.acc.tryFecFill env clock s.cache hint).1 := by
    rcases hhint with rfl | hfilled
    · exact filled_of_hint hs.fromSets hrs hF hs.cache
    · exact hfilled.tryFecFill hs.fromSets hrs hF hs.cache hint
  unfold resume at h
  split_ifs at h
  · have hsteps : Steps env clock ⟨_, _, s.out⟩ ⟨r.1, _, r.2⟩ :=
      advanceStreaming_steps (hfill.parsed hp) (s.acc.tryFecFill env clock s.cache hint).2.1 h
    exact hsteps.filled (hfill.consistent hc) hrs (hfill.setState hrs hs) hF hfilled
  · cases h
    exact hfilled

theorem Opens.endsBelow {c : Call} {acc₀ : SlotAccumulator} (h : Opens clock acc c acc₀)
    (hs : FromSets sets acc) (hbelow : acc.EndsBelow) (hsent : c.Sent sets)
    (hleaves : LeavesNoGap env clock fuel sets acc c) : acc₀.EndsBelow := by
  cases h with
  | last => exact hbelow
  | data => exact hbelow
  | @code a =>
    intro i fec hfec
    rcases acc.getElem?_recordCode hfec with ⟨-, hold⟩ | ⟨rfl, rfl⟩
    · exact hbelow i fec hold
    · have hopens : Opens clock acc (.code a) (acc.recordCode a) := .code
      have hopened := hopens.fromSets hs hsent
      cases hsent with
      | @code F q hF hq =>
        rw [(hopened.genuine hF hfec).code.numData]
        exact hleaves
  | harvest => exact hbelow

/-- In which state the call enters the flush. -/
theorem EntersFlush.willFill {c : Call} {s : CallState C}
    (h : EntersFlush env clock fuel acc cache c s) (hp : acc.Parsed) (hc : acc.Consistent)
    (hrs : env.reedSolomon.Rebuilds parity) (hs : SetState sets ⟨acc, cache, []⟩)
    (hsent : c.Sent sets) (hleaves : LeavesNoGap env clock fuel sets acc c)
    (hF : sets.set F.fecSetIndex = some F) (hfilled : Filled F acc) : WillFill F s.acc := by
  have hopen {acc₀ : SlotAccumulator} (ho : Opens clock acc c acc₀) :
      acc₀.Parsed ∧ acc₀.Consistent ∧ SetState sets ⟨acc₀, cache, []⟩ :=
    ⟨ho.parsed hp hsent.parsed, (hc.opens ho).1, ho.fromSets hs.fromSets hsent, hs.cache⟩
  have hstream {a : DataArgs} {r : SlotAccumulator × List VersionedTransaction}
      (hca : c = .data a) (ho : Opens clock acc c (acc.insertData clock a))
      (hr : (acc.insertData clock a).advanceStreaming env fuel [] = some r) :
      r.1.Parsed ∧ r.1.Consistent ∧ SetState sets ⟨r.1, cache, r.2⟩ ∧
        (a.fecSetIndex = F.fecSetIndex ∨ Filled F r.1) := by
    obtain ⟨hp₀, hc₀, hs₀⟩ := hopen ho
    have hsteps : Steps env clock ⟨_, cache, []⟩ ⟨r.1, cache, r.2⟩ :=
      advanceStreaming_steps hp₀ cache hr
    refine ⟨hsteps.parsed hp₀, (hsteps.consistent hc₀).1, hsteps.setState hrs hs₀, ?_⟩
    by_cases hset : a.fecSetIndex = F.fecSetIndex
    · exact .inl hset
    · refine .inr (hsteps.filled hc₀ hrs hs₀ hF (ho.filled hfilled ?_))
      subst hca
      show (if a.lastInSlot then none else some a.fecSetIndex) ≠ _
      split_ifs
      · exact nofun
      · simpa using hset
  cases h with
  | last => exact .filled hfilled
  | @passed a acc₁ out₁ ho hr hcur =>
    obtain ⟨-, hc₁, -, hset | hfilled₁⟩ := hstream rfl ho hr
    · by_cases hnone : acc₁.NoneOpen
      · exact .complete hnone fun hgap =>
          hleaves ⟨F, acc₁, out₁, ho, hr, hcur, hset ▸ hF, hnone, hgap⟩
      · unfold NoneOpen at hnone
        push Not at hnone
        obtain ⟨b, hb, i, h1, h2, hi⟩ := hnone
        have hfirst : F.fecSetIndex ≤ a.index := by
          cases hsent with
          | @data F' buf p hF' hp' =>
            have hindex : (F'.dataArgs buf p).index = F'.fecSetIndex + p := F'.data_index p hp'
            have hset' : (F'.dataArgs buf p).fecSetIndex = F'.fecSetIndex :=
              F'.data_fecSetIndex p hp'
            omega
          | other hno =>
            rw [hset, hF] at hno
            cases hno
        have hthere : ∀ j, acc₁.batchStart ≤ j → j ≤ a.index → j ∈ acc₁.pending := by
          intro j hj1 hj2
          obtain ⟨ps, hps, -⟩ := hc₁.streamed j hj1 (by show j < acc₁.streamingCursor; omega)
          exact acc₁.pending.mem_iff_getElem?.mpr ⟨ps, hps⟩
        exact .opened hb h1 h2 hi hfirst hthere
    · exact .filled hfilled₁
  | @data a acc₁ acc₂ out₁ out₂ ho hr hcur hresume =>
    obtain ⟨hp₁, hc₁, hs₁, hhint⟩ := hstream rfl ho hr
    exact .filled (resume_filled hp₁ hc₁ hrs hs₁ hF hhint hresume)
  | @code a acc₁ out₁ hresume =>
    have ho : Opens clock acc (.code a) (acc.recordCode a) := .code
    obtain ⟨hp₀, hc₀, hs₀⟩ := hopen ho
    have hhint : a.fecSetIndex = F.fecSetIndex ∨ Filled F (acc.recordCode a) := by
      by_cases hset : a.fecSetIndex = F.fecSetIndex
      · exact .inl hset
      · exact .inr (ho.filled hfilled (by simpa [Call.setIndex] using hset))
    exact .filled (resume_filled hp₀ hc₀ hrs hs₀ hF hhint hresume)

/-! ## Sequences of calls -/

/-- What holds between two calls that leave no gaps. -/
structure NoGap (sets : FecSets env.reedSolomon parity) (s : CallState C) : Prop
    extends SetState sets s where
  parsed : s.acc.Parsed
  consistent : s.acc.Consistent
  endsBelow : s.acc.EndsBelow
  filled : ∀ F, sets.set F.fecSetIndex = some F → Filled F s.acc

theorem NoGap.call {s : CallState C} (h : NoGap sets s) (hrs : env.reedSolomon.Rebuilds parity)
    {c : Call} (hsent : c.Sent sets) (hleaves : LeavesNoGap env clock fuel sets s.acc c)
    {r : CallState C} (hr : s.acc.call env clock fuel s.cache c = some r)
    (out : List VersionedTransaction) : NoGap sets { r with out := out } := by
  have hs : SetState sets ⟨s.acc, s.cache, []⟩ := ⟨h.fromSets, h.cache⟩
  have hparsed : r.acc.Parsed := h.parsed.call hsent.parsed hr
  have hconsistent : r.acc.Consistent := (h.consistent.call h.parsed hsent.parsed hr).1
  have hbelow : r.acc.EndsBelow := call_invariant (fun _ _ _ hs h => h.endsBelow hs)
    (fun _ _ h => h) (fun _ ho => ho.endsBelow h.fromSets h.endsBelow hsent hleaves) h.parsed
    h.endsBelow hsent.parsed hr
  rcases packet_flushes hsent.ne_harvest hr with
    ⟨a, -, -, rfl⟩ | ⟨s₁, s₂, hs₁, hflush, hr'⟩
  · exact ⟨⟨⟨h.fromSets.recorded, h.fromSets.data, h.fromSets.boundary⟩, h.cache⟩, hparsed,
      hconsistent, hbelow, fun F hF => h.filled F hF⟩
  · obtain ⟨acc₀, ho, hsteps⟩ := hs₁.steps h.parsed hsent.parsed
    have hc₁ := (hsteps.consistent (h.consistent.opens ho).1).1
    have hs₀ : SetState sets ⟨acc₀, s.cache, []⟩ :=
      ⟨ho.fromSets h.fromSets hsent, h.cache⟩
    have hbelow₁ := hsteps.endsBelow (ho.endsBelow h.fromSets h.endsBelow hsent hleaves)
    have hstate₁ := hsteps.setState hrs hs₀
    have hstate := (tryFlushBatches_steps hflush).setState hrs hstate₁
    have hfilled (F : FecSet parity) (hF : sets.set F.fecSetIndex = some F) : Filled F s₂.acc :=
      Filled.flush (hs₁.willFill h.parsed h.consistent hrs hs hsent hleaves hF (h.filled F hF)) hc₁
        hrs hstate₁ hbelow₁ hF hflush
    rcases hr' with rfl | ⟨a, -, rfl⟩
    · exact ⟨⟨hstate.fromSets, hstate.cache⟩, hparsed, hconsistent, hbelow, hfilled⟩
    · exact ⟨⟨⟨hstate.fromSets.recorded, hstate.fromSets.data, hstate.fromSets.boundary⟩,
        hstate.cache⟩, hparsed, hconsistent, hbelow, hfilled⟩

theorem noGap_fresh (cfg : AccumulatorConfig) (hcache : cache.Valid env.reedSolomon) :
    NoGap sets (CallState.fresh cfg cache) where
  fromSets := fromSets_withConfig cfg
  cache := hcache
  parsed := parsed_withConfig cfg
  consistent := consistent_withConfig cfg
  endsBelow i fec h := by simp [CallState.fresh, withConfig] at h
  filled _ _ := filled_withConfig cfg

/-- The pending data shreds of a set. -/
def shredsOf (acc : SlotAccumulator) (i nd : ℕ) : ℕ :=
  (acc.pending.toList.filter fun e => i ≤ e.1 && e.1 < i + nd && e.2.fecSetIndex = i).length

/-- When the shred at the cursor is missing and is not the last of the slot, the sets
    that cover it have too few shreds. -/
def NoRecoverableGap (sets : FecSets env.reedSolomon parity) (acc : SlotAccumulator) : Prop :=
  ∀ i fec, acc.fecSets[i]? = some fec → i ≤ acc.streamingCursor →
    acc.streamingCursor < i + fec.numData → acc.streamingCursor ∉ acc.pending →
    (∀ F, sets.set i = some F → (F.shred (acc.streamingCursor - i)).lastInSlot = false) →
    acc.shredsOf i fec.numData + fec.code.size < fec.numData

theorem NoGap.noRecoverableGap {s : CallState C} (h : NoGap sets s) :
    NoRecoverableGap sets s.acc := by
  intro i fec hfec hle hlt hnew hlast
  obtain ⟨F, hF, hrecords⟩ := h.fromSets.recorded i fec hfec
  obtain rfl := sets.fecSetIndex hF
  have hnd := hrecords.numData
  have hmax := h.endsBelow _ fec hfec
  rw [hnd] at hmax
  rw [hnd] at hlt ⊢
  by_contra hcount
  have hcursor : F.fecSetIndex + (s.acc.streamingCursor - F.fecSetIndex) = s.acc.streamingCursor :=
    Nat.add_sub_cancel' hle
  have hsame : s.acc.dataCountFor F.fecSetIndex fec = s.acc.shredsOf F.fecSetIndex F.numData := by
    have hpos := F.numData_pos
    unfold dataCountFor shredsOf
    rw [hnd, if_neg (by omega), show satAdd32 F.fecSetIndex F.numData = F.fecSetIndex + F.numData
      from min_eq_left hmax]
  apply h.filled F hF fec hfec (by omega) (s.acc.streamingCursor - F.fecSetIndex) (by omega)
  unfold FecSet.Stores
  rw [hcursor]
  exact ⟨h.consistent.start_le, hnew, hlast F hF⟩

/-- A recoverable gap at the cursor is recovered at once, as long as no call leaves a
    gap. -/
theorem gaps_recovered (hrs : env.reedSolomon.Rebuilds parity)
    (sets : FecSets env.reedSolomon parity) (cfg : AccumulatorConfig)
    (hcache : cache.Valid env.reedSolomon) {calls : List (Clock × Call)}
    (hsent : ∀ c ∈ calls, c.2.Sent sets)
    (hleaves : ∀ pre c post s, calls = pre ++ c :: post →
      runCalls env fuel (CallState.fresh cfg cache) pre = some s →
        LeavesNoGap env c.1 fuel sets s.acc c.2)
    {s : CallState C} (hrun : runCalls env fuel (CallState.fresh cfg cache) calls = some s) :
    NoRecoverableGap sets s.acc := by
  apply NoGap.noRecoverableGap
  apply runCalls_spec hrun (noGap_fresh cfg hcache)
  intro pre c post s₁ r₁ hsplit hpre hs₁ hr₁
  have hmem : c ∈ calls := by
    rw [hsplit]
    exact List.mem_append_right _ List.mem_cons_self
  exact hs₁.call hrs (hsent c hmem) (hleaves pre c post s₁ hsplit hpre) hr₁ _

/-! ## Two data packets and a code packet -/

open FecSet

/-- A set of two data packets that end no batch. -/
def gapSet : FecSet pairParity :=
  merkleSet (show MakesSet pairParity 0 2 1 (fun _ => [7]) fun _ => 0 by decide +kernel)

/-- The only set. -/
def gapSets : FecSets pairEnv.reedSolomon pairParity where
  set i := if i = 0 then some gapSet else none
  fecSetIndex h := by
    split_ifs at h with hi
    cases h
    exact hi.symm
  supported h := by
    split_ifs at h
    cases h
    rfl

/-- The code packet comes first, then a data packet. -/
def gapCalls (p : ℕ) : List (Clock × Call) :=
  [(stillClock, .code (gapSet.codeArgs 0)), (stillClock, .data (gapSet.dataArgs 0 p))]

theorem sent_gapCalls {p : ℕ} (hp : p < 2) : ∀ c ∈ gapCalls p, c.2.Sent gapSets := by
  intro c hc
  rcases List.mem_cons.mp hc with rfl | hc
  · exact .code rfl Nat.one_pos
  · obtain rfl := List.mem_singleton.mp hc
    exact .data rfl hp

/-- The second data packet comes, and the first one is recovered. -/
theorem gaps_recovered_second : ∃ s,
    runCalls pairEnv (2 ^ 32 + 1) (CallState.fresh {} {}) (gapCalls 1) = some s ∧
      0 ∈ s.acc.pending ∧ NoRecoverableGap gapSets s.acc := by
  have hrun : (runCalls pairEnv (2 ^ 32 + 1) (CallState.fresh {} {}) (gapCalls 1)).map
      (fun s => decide (0 ∈ s.acc.pending)) = some true := by decide +kernel
  obtain ⟨s, hs, hmem⟩ := Option.map_eq_some_iff.mp hrun
  refine ⟨s, hs, of_decide_eq_true hmem, ?_⟩
  apply gaps_recovered (show pairEnv.reedSolomon.Rebuilds pairParity from pairCrate_rebuilds) gapSets
    {} valid_empty_pair (sent_gapCalls (by decide)) ?_ hs
  intro pre c post s₁ hsplit hpre
  cases pre with
  | nil =>
    cases hsplit
    exact (show 0 + 2 ≤ u32Max by decide)
  | cons c₁ pre =>
    cases pre with
    | nil =>
      cases hsplit
      -- the cursor stays in front of the packet, and the set is tried
      rintro ⟨F, acc₁, out₁, -, hstream, hcur, -, -⟩
      have hcursor : ((runCalls pairEnv (2 ^ 32 + 1) (CallState.fresh {} {})
          [(stillClock, .code (gapSet.codeArgs 0))]).bind fun s =>
            (s.acc.insertData stillClock (gapSet.dataArgs 0 1)).advanceStreaming pairEnv
              (2 ^ 32 + 1) []).map (fun r => r.1.streamingCursor) = some 0 := by decide +kernel
      rw [hpre, Option.bind_some, hstream] at hcursor
      have hcursor' : acc₁.streamingCursor = 0 := Option.some.inj hcursor
      rw [hcursor'] at hcur
      exact absurd hcur (by decide)
    | cons c₂ pre => simp [gapCalls] at hsplit

/-- The first data packet comes: its set could give the second one, but is not
    tried. -/
theorem gap_not_recovered : ¬∀ (calls : List (Clock × Call)) (s : CallState Unit),
    (∀ c ∈ calls, c.2.Sent gapSets) →
      runCalls pairEnv (2 ^ 32 + 1) (CallState.fresh {} {}) calls = some s →
        NoRecoverableGap gapSets s.acc := by
  intro h
  have hrun : (runCalls pairEnv (2 ^ 32 + 1) (CallState.fresh {} {}) (gapCalls 0)).map
      (fun s => (s.acc.streamingCursor, decide (1 ∈ s.acc.pending), s.acc.shredsOf 0 2,
        s.acc.fecSets[0]?.map fun fec => (fec.numData, fec.code.size))) =
      some (1, false, 1, some (2, 1)) := by decide +kernel
  obtain ⟨s, hs, hstate⟩ := Option.map_eq_some_iff.mp hrun
  simp only [Prod.mk.injEq, decide_eq_false_iff_not] at hstate
  obtain ⟨hcur, hnew, hcount, hsets⟩ := hstate
  obtain ⟨fec, hfec, hsize⟩ := Option.map_eq_some_iff.mp hsets
  obtain ⟨hnd, hcode⟩ := Prod.mk.inj hsize
  have hlast : ∀ F, gapSets.set 0 = some F → (F.shred 1).lastInSlot = false := by
    rintro F ⟨⟩
    rfl
  have := h _ s (sent_gapCalls (by decide)) hs 0 fec hfec (by omega) (by omega)
    (by rwa [hcur]) (by rwa [hcur])
  rw [hnd, hcode, hcount] at this
  omega

end ShredStream.SlotAccumulator
