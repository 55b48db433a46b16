import ShredStream.Accumulator.Bounded
import ShredStream.Accumulator.Filed
import ShredStream.Accumulator.Represents

/-!
# What a set can still give

The calls of this file hand over packets of honest FEC sets (`Call.Sent`); `FromSets`
says that what the accumulator holds comes from them.

* `Filled F acc`: nothing of the set `F` can be recovered any more.
* `filled_of_hint`: an attempt at recovery with the set as hint establishes it.
* `Steps.filled`: the steps of a call keep it for every set; `Opens.filled`: what a call
  starts with keeps it for all sets but its own.
-/

namespace ShredStream

open SlotAccumulator

/-! ## Honest sets -/

/-- The honest FEC sets of a slot by their index; the crate knows their geometry. -/
structure FecSets {C : Type} (rs : ReedSolomonCrate C)
    (parity : ℕ → ℕ → List Bytes → List Bytes) where
  set : ℕ → Option (FecSet parity)
  fecSetIndex : ∀ {i F}, set i = some F → F.fecSetIndex = i
  supported : ∀ {i F}, set i = some F → (rs.new F.numData F.numCoding).isSome

namespace SlotAccumulator

variable {C : Type} {env : Env C} {clock : Clock} {fuel : ℕ} {acc acc' : SlotAccumulator}
  {cache : ReedSolomonCache C} {parity : ℕ → ℕ → List Bytes → List Bytes}
  {sets : FecSets env.reedSolomon parity} {F : FecSet parity}

/-- A call with a packet of one of the sets, or with a data packet of another set,
    of which no code packet is sent. -/
inductive Call.Sent (sets : FecSets env.reedSolomon parity) : Call → Prop
  | data {F : FecSet parity} {buf p : ℕ} : sets.set F.fecSetIndex = some F → p < F.numData →
      Sent sets (.data (F.dataArgs buf p))
  | code {F : FecSet parity} {q : ℕ} : sets.set F.fecSetIndex = some F → q < F.numCoding →
      Sent sets (.code (F.codeArgs q))
  | other {a : DataArgs} {d : DataShred} : sets.set a.fecSetIndex = none → a.shred.Holds d →
      a.index ≤ u32Max → Sent sets (.data a)

theorem holds_dataArgs {p : ℕ} (hp : p < F.numData) (buf : ℕ) :
    (F.dataArgs buf p).shred.Holds (F.shred p) where
  parse := F.data_parse p hp
  length := by
    show (F.data p).length ≤ bufSize
    rw [F.data_length p hp]
    decide
  payloadEnd := rfl
  batchComplete := rfl

theorem Call.Sent.parsed {c : Call} (h : c.Sent sets) : c.Parsed := by
  cases h with
  | data _ hp =>
    rintro a ⟨⟩
    exact ⟨_, holds_dataArgs hp _⟩
  | code => rintro a ⟨⟩
  | other _ hd _ =>
    rintro a ⟨⟩
    exact ⟨_, hd⟩

theorem Call.Sent.index_le {a : DataArgs} (h : (Call.data a).Sent sets) : a.index ≤ u32Max := by
  cases h with
  | @data F buf p _ hp =>
    have hindex : (F.dataArgs buf p).index = F.fecSetIndex + p := F.data_index p hp
    have hle := F.index_lt
    unfold u32Max
    omega
  | other _ _ hle => exact hle

theorem Call.Sent.ne_harvest {c : Call} (h : c.Sent sets) : c ≠ .harvest := by
  cases h with
  | data => exact nofun
  | code => exact nofun
  | other => exact nofun

/-- What was recorded, and what is at hand for it, comes from the sets. Indices are
    32-bit. -/
structure FromSets (sets : FecSets env.reedSolomon parity) (acc : SlotAccumulator) : Prop where
  recorded : ∀ (i : ℕ) (fec : FecSetBuffer), acc.fecSets[i]? = some fec →
    ∃ F, sets.set i = some F ∧ F.Records fec
  data : ∀ F, sets.set F.fecSetIndex = some F → ∀ p < F.numData, ∀ ps,
    acc.pending[F.fecSetIndex + p]? = some ps → ps.fecSetIndex = F.fecSetIndex →
      ps.source.slice = F.data p ∨ ps.source.slice = F.rebuilt p
  boundary : ∀ b ∈ acc.batchCompleteIndices, b ≤ u32Max

theorem fromSets_withConfig (cfg : AccumulatorConfig) : FromSets sets (withConfig cfg) where
  recorded i fec h := by simp [withConfig] at h
  data F _ p _ ps h := by simp [withConfig] at h
  boundary b h := by simp [withConfig] at h

theorem FromSets.genuine (h : FromSets sets acc) (hF : sets.set F.fecSetIndex = some F)
    {fec : FecSetBuffer} (hfec : acc.fecSets[F.fecSetIndex]? = some fec) : Genuine F acc fec := by
  obtain ⟨F', hF', hrecords⟩ := h.recorded _ fec hfec
  rw [hF] at hF'
  cases hF'
  exact ⟨hrecords, h.data F hF⟩

/-- Fewer sets, shreds and boundaries. -/
theorem FromSets.mono (h : FromSets sets acc)
    (hsets : ∀ (i : ℕ) (fec : FecSetBuffer), acc'.fecSets[i]? = some fec →
      acc.fecSets[i]? = some fec)
    (hsub : ∀ (k : ℕ) (ps : PendingShred), acc'.pending[k]? = some ps → acc.pending[k]? = some ps)
    (hboundary : ∀ b ∈ acc'.batchCompleteIndices, b ∈ acc.batchCompleteIndices) :
    FromSets sets acc' where
  recorded i fec hfec := h.recorded i fec (hsets i fec hfec)
  data F hF p hp ps hps hset := h.data F hF p hp ps (hsub _ ps hps) hset
  boundary b hb := h.boundary b (hboundary b hb)

/-! ## Gaps that can be recovered -/

/-- Nothing of the set can be recovered: it is not recorded, its shreds are too few,
    or all it could give is there or not stored. -/
def Filled (F : FecSet parity) (acc : SlotAccumulator) : Prop :=
  ∀ fec, acc.fecSets[F.fecSetIndex]? = some fec →
    F.numData ≤ acc.dataCountFor F.fecSetIndex fec + fec.code.size →
    ∀ p < F.numData, ¬F.Stores acc p

theorem filled_withConfig (cfg : AccumulatorConfig) : Filled F (withConfig cfg) := by
  intro fec h
  simp [withConfig] at h

/-- The set has no more shreds than before, and behind the batch start nothing is
    lost. -/
theorem Filled.mono (h : Filled F acc)
    (hsets : ∀ fec, acc'.fecSets[F.fecSetIndex]? = some fec →
      acc.fecSets[F.fecSetIndex]? = some fec)
    (hsub : ∀ (k : ℕ) (ps : PendingShred), acc'.pending[k]? = some ps →
      ps.fecSetIndex = F.fecSetIndex → acc.pending[k]? = some ps)
    (hstart : acc.batchStart ≤ acc'.batchStart)
    (hkept : ∀ k ∈ acc.pending, acc'.batchStart ≤ k → k ∈ acc'.pending) : Filled F acc' := by
  intro fec hfec hcount p hp ⟨hge, hnew, hlast⟩
  have hle : acc'.dataCountFor F.fecSetIndex fec ≤ acc.dataCountFor F.fecSetIndex fec :=
    dataCountFor_le fec hsub
  apply h fec (hsets fec hfec) (by omega) p hp
  exact ⟨hstart.trans hge, fun hmem => hnew (hkept _ hmem hge), hlast⟩

/-- The shreds that count for a set that can be recovered are at hand. -/
theorem length_dataRefs_of_canRecover {fec : FecSetBuffer} {setIdx numData : ℕ}
    (hcan : fec.canRecoverWith (acc.dataCountFor setIdx fec) = true) (hnd : fec.numData = numData)
    (hpos : 0 < numData) : numData ≤ (acc.dataRefs setIdx numData).length + fec.code.size := by
  unfold FecSetBuffer.canRecoverWith dataCountFor at hcan
  simp only [Bool.and_eq_true, decide_eq_true_eq, hnd, if_neg (show ¬numData = 0 by omega)] at hcan
  refine hcan.2.trans (Nat.add_le_add_right ?_ _)
  unfold dataRefs
  rw [List.length_map, ← List.countP_eq_length_filter, ← List.countP_eq_length_filter]
  apply List.countP_mono_left
  intro e _ he
  have hsat : satAdd32 setIdx numData ≤ setIdx + numData := min_le_left _ _
  simp only [Bool.and_eq_true, decide_eq_true_eq] at he ⊢
  exact ⟨⟨he.1.1, by omega⟩, he.2⟩

/-- A set that is selected is recovered as far as it can be. -/
theorem filled_of_select (h : FromSets sets acc) (hrs : env.reedSolomon.Rebuilds parity)
    (hF : sets.set F.fecSetIndex = some F) (hcache : cache.Valid env.reedSolomon) {hint : ℕ}
    (hsel : acc.selectRecoverableSet hint = some F.fecSetIndex) :
    ∀ p < F.numData, ¬F.Stores (acc.tryFecFill env clock cache hint).1 p := by
  obtain ⟨fec, hfec, hcan⟩ := selectRecoverableSet_spec hsel
  have hgen := h.genuine hF hfec
  have hpos := F.numData_pos
  have hnd := hgen.code.numData
  have hrefs := hgen.refs_right
  have hnodup := hgen.refs_nodup
  rw [hnd] at hrefs hnodup
  have hcount := length_dataRefs_of_canRecover hcan hnd hpos
  obtain ⟨cache', -, hrec⟩ := FecSet.tryReconstruct_eq hrs (sets.supported hF) hcache hgen.code
    hrefs hnodup hcount
  have hlost : ∀ p ∈ (List.range F.numData).filter
      (· ∉ (acc.dataRefs F.fecSetIndex F.numData).map Prod.fst), p < F.numData :=
    fun p hp => List.mem_range.mp (List.mem_filter.mp hp).1
  obtain ⟨-, hstored, -⟩ := F.foldl_insertRecovered_get clock hlost (List.nodup_range.filter _)
    (acc, false)
  have hpending : (acc.tryFecFill env clock cache hint).1.pending =
      ((F.rebuiltWithout ((acc.dataRefs F.fecSetIndex F.numData).map Prod.fst)).foldl
        (insertRecovered clock F.fecSetIndex) (acc, false)).1.pending := by
    unfold tryFecFill
    simp only [hsel, hfec, hnd, if_neg (show ¬F.numData = 0 by omega), hrec]
    split_ifs
    · rfl
    · rfl
  have hrefill := refilled_tryFecFill env acc clock cache hint
  intro p hp ⟨hge, hnew, hlast⟩
  have hbefore : F.fecSetIndex + p ∉ acc.pending := by
    intro hmem
    obtain ⟨ps, hps⟩ := acc.pending.mem_iff_getElem?.mp hmem
    exact hnew (BTreeMap.mem_iff_getElem? _ |>.mpr ⟨ps, hrefill.kept _ ps hps⟩)
  apply hnew
  rw [hpending, BTreeMap.mem_iff_getElem?]
  refine ⟨_, hstored p ?_ ⟨hrefill.batchStart ▸ hge, hbefore, hlast⟩⟩
  rw [List.mem_filter, List.mem_range, decide_eq_true_eq]
  refine ⟨hp, fun hmem => ?_⟩
  -- a shred at hand is pending under its index
  obtain ⟨e, he, rfl⟩ := List.mem_map.mp hmem
  obtain ⟨⟨k, ps⟩, hk, rfl⟩ := List.mem_map.mp he
  rw [← hnd] at hk
  obtain ⟨hps, hle, hlt, -⟩ := @Genuine.of_mem_filter _ _ F fec _ hk
  have hlt16 := F.numData_lt
  have hpos' : asU16 (k - F.fecSetIndex) = k - F.fecSetIndex := Nat.mod_eq_of_lt (by omega)
  apply hbefore
  show F.fecSetIndex + asU16 (k - F.fecSetIndex) ∈ acc.pending
  rw [hpos', Nat.add_sub_cancel' hle]
  exact BTreeMap.mem_iff_getElem? _ |>.mpr ⟨ps, hps⟩

/-! ## What a step keeps -/

theorem mem_storeRecovered_boundaries {setIdx idx b : ℕ} {bytes : Bytes} {d : DataShred}
    (hb : b ∈ (acc.storeRecovered clock setIdx idx bytes d).batchCompleteIndices) :
    b = idx ∨ b ∈ acc.batchCompleteIndices := by
  unfold storeRecovered at hb
  split_ifs at hb
  · rcases Std.ExtTreeMap.mem_insertIfNew.mp hb with heq | hb
    · exact .inl (Nat.compare_eq_eq.mp heq).symm
    · exact .inr hb
  · exact .inr hb

theorem FromSets.tryFecFill (h : FromSets sets acc) (hrs : env.reedSolomon.Rebuilds parity)
    (hcache : cache.Valid env.reedSolomon) (hint : ℕ) :
    FromSets sets (acc.tryFecFill env clock cache hint).1 := by
  apply tryFecFill_invariant env acc clock cache hint h
  · intro setIdx fec cache' recovered r acc₁ acc₂ hfec hrec hr h₁ hinserts
    obtain ⟨F, hF, -⟩ := h.recorded setIdx fec hfec
    obtain rfl := sets.fecSetIndex hF
    obtain ⟨hp, hbytes⟩ := (h.genuine hF hfec).recovered_eq hrs hcache hrec r hr
    have hend := F.index_lt
    cases hinserts with
    | skip => exact h₁
    | last => exact ⟨h₁.recorded, h₁.data, h₁.boundary⟩
    | @store d hge hnew hparse hlast =>
      have hidx : wrapAdd32 F.fecSetIndex r.1 = F.fecSetIndex + r.1 :=
        wrapAdd32_of_lt (by omega)
      refine ⟨h₁.recorded, fun F' hF' p hp' ps hps hset => ?_, fun b hb => ?_⟩
      · rw [storeRecovered, BTreeMap.getElem?_insert_eq] at hps
        split_ifs at hps with hk
        · cases hps
          obtain rfl : F = F' := Option.some.inj (hF.symm.trans ((congrArg _ hset).trans hF'))
          obtain rfl : r.1 = p := Nat.add_left_cancel (hidx.symm.trans hk)
          exact .inr hbytes
        · exact h₁.data F' hF' p hp' ps hps hset
      · rcases mem_storeRecovered_boundaries hb with rfl | hb
        · unfold u32Max
          omega
        · exact h₁.boundary b hb
  · exact fun _ _ h₁ => ⟨h₁.recorded, h₁.data, h₁.boundary⟩
  · intro acc₁ k h₁
    apply h₁.mono
    · intro i fec hfec
      show acc₁.fecSets[i]? = some fec
      rw [BTreeMap.getElem?_erase_eq] at hfec
      split_ifs at hfec
      exact hfec
    · exact fun _ _ hps => hps
    · exact fun _ hb => hb

/-- An attempt at recovery records no set. -/
theorem tryFecFill_fecSets (env : Env C) (clock : Clock) (acc : SlotAccumulator)
    (cache : ReedSolomonCache C) (hint i : ℕ) {fec : FecSetBuffer} :
    (acc.tryFecFill env clock cache hint).1.fecSets[i]? = some fec →
      acc.fecSets[i]? = some fec := by
  apply tryFecFill_invariant (I := fun acc₁ => acc₁.fecSets[i]? = some fec →
    acc.fecSets[i]? = some fec) env acc clock cache hint id
  · intro setIdx fec' cache' recovered r acc₁ acc₂ _ _ _ h₁ hinserts
    cases hinserts with
    | skip => exact h₁
    | last => exact h₁
    | store => exact h₁
  · exact fun _ _ h₁ => h₁
  · intro acc₁ k h₁ hfec
    rw [BTreeMap.getElem?_erase_eq] at hfec
    split_ifs at hfec
    exact h₁ hfec

theorem Filled.of_others (h : Filled F acc) {hint : ℕ}
    (hsel : acc.selectRecoverableSet hint ≠ some F.fecSetIndex) :
    Filled F (acc.tryFecFill env clock cache hint).1 := by
  have hrefill := refilled_tryFecFill env acc clock cache hint
  apply h.mono
  · exact fun fec => tryFecFill_fecSets env clock acc cache hint F.fecSetIndex
  · exact fun k ps hps hset => tryFecFill_others hsel k ps hset hps
  · exact hrefill.batchStart.ge
  · intro k hk _
    obtain ⟨ps, hps⟩ := acc.pending.mem_iff_getElem?.mp hk
    exact BTreeMap.mem_iff_getElem? _ |>.mpr ⟨ps, hrefill.kept k ps hps⟩

theorem Filled.tryFecFill (hfilled : Filled F acc) (h : FromSets sets acc)
    (hrs : env.reedSolomon.Rebuilds parity) (hF : sets.set F.fecSetIndex = some F)
    (hcache : cache.Valid env.reedSolomon) (hint : ℕ) :
    Filled F (acc.tryFecFill env clock cache hint).1 := by
  by_cases hsel : acc.selectRecoverableSet hint = some F.fecSetIndex
  · exact fun _ _ _ => filled_of_select h hrs hF hcache hsel
  · exact hfilled.of_others hsel

/-- An attempt with the set as hint recovers it, or its shreds are too few. -/
theorem filled_of_hint (h : FromSets sets acc) (hrs : env.reedSolomon.Rebuilds parity)
    (hF : sets.set F.fecSetIndex = some F) (hcache : cache.Valid env.reedSolomon) :
    Filled F (acc.tryFecFill env clock cache F.fecSetIndex).1 := by
  by_cases hsel : acc.selectRecoverableSet F.fecSetIndex = some F.fecSetIndex
  · exact fun _ _ _ => filled_of_select h hrs hF hcache hsel
  · intro fec hfec' hcount
    have hfec := tryFecFill_fecSets env clock acc cache _ _ hfec'
    have hle : (acc.tryFecFill env clock cache F.fecSetIndex).1.dataCountFor F.fecSetIndex fec ≤
        acc.dataCountFor F.fecSetIndex fec :=
      dataCountFor_le fec fun k ps hps hset => tryFecFill_others hsel k ps hset hps
    have hgen := h.genuine hF hfec
    have hpos := F.numData_pos
    apply absurd ?_ hsel
    unfold selectRecoverableSet
    simp only [hfec]
    rw [if_pos]
    unfold FecSetBuffer.canRecoverWith
    rw [hgen.code.numData]
    simp only [Bool.and_eq_true, decide_eq_true_eq]
    omega

/-- What holds at every step of a call, whatever was tried. -/
structure SetState (sets : FecSets env.reedSolomon parity) (s : CallState C) : Prop where
  fromSets : FromSets sets s.acc
  cache : s.cache.Valid env.reedSolomon

theorem Step.setState {s s' : CallState C} (h : Step env clock s s')
    (hrs : env.reedSolomon.Rebuilds parity) (hs : SetState sets s) : SetState sets s' := by
  cases h with
  | fill hint =>
    exact ⟨hs.fromSets.tryFecFill hrs hs.cache hint, tryFecFill_cache_valid s.acc hs.cache hint⟩
  | finalise txs =>
    refine ⟨hs.fromSets.mono (fun i fec hfec => ?_) (fun k ps hps => ?_) fun b hb => ?_, hs.cache⟩
    · exact ((BTreeMap.getElem?_filter_eq _).mp hfec).1
    · exact ((completeBatch_pending _).mp hps).1
    · exact ((mem_completeBatch_boundaries _).mp hb).1
  | _ => exact ⟨⟨hs.fromSets.recorded, hs.fromSets.data, hs.fromSets.boundary⟩, hs.cache⟩

theorem Steps.setState {s s' : CallState C} (h : Steps env clock s s')
    (hrs : env.reedSolomon.Rebuilds parity) (hs : SetState sets s) : SetState sets s' :=
  h.invariant (fun _ _ hs hstep => hstep.setState hrs hs) hs

theorem Filled.finalise (h : Filled F acc) {bcIdx : ℕ} (hb : acc.batchStart ≤ satAdd32 bcIdx 1)
    (txs : List VersionedTransaction) (counters : Counters) :
    Filled F (acc.finalise txs counters bcIdx) := by
  apply h.mono
  · exact fun fec hfec => ((BTreeMap.getElem?_filter_eq _).mp hfec).1
  · exact fun k ps hps _ => ((completeBatch_pending _).mp hps).1
  · exact hb
  · exact fun k hk hge => (mem_completeBatch_pending _).mpr ⟨hk, hge⟩

/-- No step makes anything recoverable. -/
theorem Step.filled {s s' : CallState C} (h : Step env clock s s') (hc : s.acc.Consistent)
    (hrs : env.reedSolomon.Rebuilds parity) (hs : SetState sets s)
    (hF : sets.set F.fecSetIndex = some F) (hfilled : Filled F s.acc) : Filled F s'.acc := by
  cases h with
  | fill hint => exact hfilled.tryFecFill hs.fromSets hrs hF hs.cache hint
  | finalise txs hb _ => exact hfilled.finalise (hc.start_le_next hb) txs _
  | _ => exact hfilled

theorem Steps.filled {s s' : CallState C} (h : Steps env clock s s') (hc : s.acc.Consistent)
    (hrs : env.reedSolomon.Rebuilds parity) (hs : SetState sets s)
    (hF : sets.set F.fecSetIndex = some F) (hfilled : Filled F s.acc) : Filled F s'.acc := by
  have hkeep := h.invariant (I := fun s => s.acc.Consistent ∧ SetState sets s ∧ Filled F s.acc)
    (fun s s' hs hstep => ⟨hstep.consistent hs.1, hstep.setState hrs hs.2.1,
      hstep.filled hs.1 hrs hs.2.1 hF hs.2.2⟩) ⟨hc, hs, hfilled⟩
  exact hkeep.2.2

/-! ## Opening a call -/

/-- The set a call is about; the last shred of the slot is about none. -/
def Call.setIndex : Call → Option ℕ
  | .data a => if a.lastInSlot then none else some a.fecSetIndex
  | .code a => some a.fecSetIndex
  | .harvest => none

theorem Opens.fromSets {c : Call} {acc₀ : SlotAccumulator} (h : Opens clock acc c acc₀)
    (hs : FromSets sets acc) (hc : c.Sent sets) : FromSets sets acc₀ := by
  cases h with
  | last => exact ⟨hs.recorded, hs.data, hs.boundary⟩
  | @data a hlast hge hnew =>
    refine ⟨hs.recorded, fun F hF p hp ps hps hset => ?_, fun b hb => ?_⟩
    · rw [insertData, BTreeMap.getElem?_insert_eq] at hps
      split_ifs at hps with hk
      · cases hps
        cases hc with
        | @data F' buf p' hF' hp' =>
          have hset' : F'.fecSetIndex = F.fecSetIndex :=
            (F'.data_fecSetIndex p' hp').symm.trans hset
          obtain rfl : F' = F := Option.some.inj (hF'.symm.trans ((congrArg _ hset').trans hF))
          have hidx := (F'.data_index p' hp').symm.trans hk
          obtain rfl : p' = p := Nat.add_left_cancel hidx
          exact .inl rfl
        | other hnone =>
          rw [← hset, show sets.set a.shred.fecSetIndex = none from hnone] at hF
          cases hF
      · exact hs.data F hF p hp ps hps hset
    · rcases mem_insertData_boundaries hb with hb | rfl
      · exact hs.boundary b hb
      · exact hc.index_le
  | @code a =>
    refine ⟨fun i fec hfec => ?_, fun F hF p hp ps hps => ?_, fun b hb => ?_⟩
    · cases hc with
      | @code F q hF hq =>
        rcases acc.getElem?_recordCode hfec with ⟨-, hold⟩ | ⟨rfl, rfl⟩
        · exact hs.recorded i fec hold
        · refine ⟨F, hF, ?_⟩
          cases hget : acc.fecSets[F.fecSetIndex]? with
          | none =>
            rw [show acc.fecSets[(F.codeArgs q).fecSetIndex]? = none from hget]
            exact FecSet.records_new hq _
          | some fec =>
            rw [show acc.fecSets[(F.codeArgs q).fecSetIndex]? = some fec from hget]
            exact (hs.genuine hF hget).code.record hq
    · obtain ⟨fecSets, counters, heq, -⟩ := acc.recordCode_eq a
      rw [heq] at hps
      exact hs.data F hF p hp ps hps
    · obtain ⟨fecSets, counters, heq, -⟩ := acc.recordCode_eq a
      rw [heq] at hb
      exact hs.boundary b hb
  | harvest => exact hs

/-- A call makes nothing recoverable of the sets it is not about. -/
theorem Opens.filled {c : Call} {acc₀ : SlotAccumulator} (h : Opens clock acc c acc₀)
    (hfilled : Filled F acc) (hne : c.setIndex ≠ some F.fecSetIndex) : Filled F acc₀ := by
  cases h with
  | last => exact hfilled
  | @data a hlast hge hnew =>
    have hne' : a.fecSetIndex ≠ F.fecSetIndex := by simpa [Call.setIndex, hlast] using hne
    apply hfilled.mono
    · exact fun fec hfec => hfec
    · intro k ps hps hset
      rw [insertData, BTreeMap.getElem?_insert_eq] at hps
      split_ifs at hps
      · cases hps
        exact absurd hset hne'
      · exact hps
    · exact le_rfl
    · exact fun k hk _ => Std.ExtTreeMap.mem_insert.mpr (.inr hk)
  | @code a =>
    have hne' : a.fecSetIndex ≠ F.fecSetIndex := by simpa [Call.setIndex] using hne
    obtain ⟨fecSets, counters, heq, -⟩ := acc.recordCode_eq a
    apply hfilled.mono
    · intro fec hfec
      rcases acc.getElem?_recordCode hfec with ⟨-, hold⟩ | ⟨hi, -⟩
      · exact hold
      · exact absurd hi.symm hne'
    · intro k ps hps _
      rwa [heq] at hps
    · rw [heq]
    · intro k hk _
      rwa [heq]
  | harvest => exact hfilled

end SlotAccumulator

end ShredStream
