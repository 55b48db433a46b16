import ShredStream.Accumulator.Steps

/-!
# Shreds under their own index

`push_data` files a shred under the index in its header, `try_fec_fill` a rebuilt
packet under the set's index plus its position. As long as the sets with enough
shreds at hand are honest ones (`Honest`), that is the index in the rebuilt header
(`Filed`). A call keeps both from step to step: a recovered shred belongs to the
set it was recovered for and counts for no other one.
-/

namespace ShredStream

/-- The cache stays one of codecs of the crate, whatever is reconstructed. -/
theorem ReedSolomonCache.Valid.tryReconstruct {C : Type} {rs : ReedSolomonCrate C}
    {cache : ReedSolomonCache C} (h : cache.Valid rs) (fec : FecSetBuffer)
    (dataShards : List (ℕ × Bytes)) : (fec.tryReconstruct rs dataShards cache).1.Valid rs := by
  unfold FecSetBuffer.tryReconstruct
  split_ifs
  · exact h
  split
  · simp only
    split_ifs
    · exact h
    have hvalid := (h.getOrBuild fec.numData fec.numCoding).2
    split
    · rename_i heq
      rwa [heq] at hvalid
    · rename_i heq
      rw [heq] at hvalid
      split
      · exact hvalid
      · exact hvalid
  · exact h

namespace SlotAccumulator

variable {C : Type} {env : Env C} {clock : Clock} {acc acc' : SlotAccumulator} {slot : ℕ}
  {parity : ℕ → ℕ → List Bytes → List Bytes}

/-- Every pending shred holds a packet of the slot with its own index. -/
def Filed (slot : ℕ) (acc : SlotAccumulator) : Prop :=
  ∀ (k : ℕ) (ps : PendingShred), acc.pending[k]? = some ps →
    ∃ d, parseKind ps.source.slice = .ok (.data d) ∧ d.slot = slot ∧ d.index = k

/-- What was recorded and what is at hand for the index of `F` comes from `F`. -/
structure Genuine (F : FecSet parity) (acc : SlotAccumulator) (fec : FecSetBuffer) : Prop where
  code : F.Records fec
  data : ∀ p < F.numData, ∀ ps, acc.pending[F.fecSetIndex + p]? = some ps →
    ps.fecSetIndex = F.fecSetIndex →
      ps.source.slice = F.data p ∨ ps.source.slice = F.rebuilt p

/-- The sets for which enough shreds are at hand are honest sets of the slot. -/
def Honest (parity : ℕ → ℕ → List Bytes → List Bytes) (slot : ℕ) (acc : SlotAccumulator) : Prop :=
  ∀ (i : ℕ) (fec : FecSetBuffer), acc.fecSets[i]? = some fec →
    fec.canRecoverWith (acc.dataCountFor i fec) = true →
      ∃ F : FecSet parity, F.slot = slot ∧ F.fecSetIndex = i ∧ Genuine F acc fec

/-! ## The shards at hand -/

namespace Genuine

variable {F : FecSet parity} {fec : FecSetBuffer}

theorem mono (h : Genuine F acc fec)
    (hsub : ∀ (k : ℕ) (ps : PendingShred), acc'.pending[k]? = some ps →
      ps.fecSetIndex = F.fecSetIndex → acc.pending[k]? = some ps) : Genuine F acc' fec :=
  ⟨h.code, fun p hp ps hps hset => h.data p hp ps (hsub _ ps hps hset) hset⟩

/-- A packet at hand that counts for the set. -/
theorem of_mem_filter {e : ℕ × PendingShred}
    (he : e ∈ acc.pending.toList.filter fun e =>
      e.1 ≥ F.fecSetIndex && e.1 - F.fecSetIndex < fec.numData && e.2.fecSetIndex = F.fecSetIndex) :
    acc.pending[e.1]? = some e.2 ∧ F.fecSetIndex ≤ e.1 ∧ e.1 - F.fecSetIndex < fec.numData ∧
      e.2.fecSetIndex = F.fecSetIndex := by
  obtain ⟨hmem, hcond⟩ := List.mem_filter.mp he
  simp only [Bool.and_eq_true, decide_eq_true_eq] at hcond
  exact ⟨acc.pending.mem_toList.mp hmem, hcond.1.1, hcond.1.2, hcond.2⟩

theorem refs_right (h : Genuine F acc fec) : ∀ e ∈ acc.dataRefs F.fecSetIndex fec.numData,
    e.1 < F.numData ∧
      dataShardSlice e.2 (.dataMerkle F.proofSize F.resigned) = some (F.shard e.1) := by
  intro e he
  obtain ⟨⟨k, ps⟩, hk, rfl⟩ := List.mem_map.mp he
  obtain ⟨hps, hge, hlt, hset⟩ := @of_mem_filter _ _ F fec _ hk
  have hnd := F.numData_lt
  rw [h.code.numData] at hlt
  have hpos : asU16 (k - F.fecSetIndex) = k - F.fecSetIndex := Nat.mod_eq_of_lt (by omega)
  have hk' : F.fecSetIndex + (k - F.fecSetIndex) = k := Nat.add_sub_cancel' hge
  show asU16 (k - F.fecSetIndex) < _ ∧ _ = some (F.shard (asU16 (k - F.fecSetIndex)))
  rw [hpos]
  refine ⟨hlt, ?_⟩
  rcases h.data _ hlt ps (by rw [hk']; exact hps) hset with hdata | hdata
  · show dataShardSlice ps.source.slice _ = _
    rw [hdata]
    exact F.dataShardSlice_data hlt
  · show dataShardSlice ps.source.slice _ = _
    rw [hdata]
    exact F.dataShardSlice_rebuilt hlt

theorem refs_nodup (h : Genuine F acc fec) :
    ((acc.dataRefs F.fecSetIndex fec.numData).map Prod.fst).Nodup := by
  unfold dataRefs
  rw [List.map_map, List.Nodup, List.pairwise_map]
  refine List.Pairwise.imp_of_mem ?_ (acc.pending.toList_sorted.filter _)
  intro a b ha hb hab
  obtain ⟨-, hga, hla, -⟩ := @of_mem_filter _ _ F fec _ ha
  obtain ⟨-, hgb, hlb, -⟩ := @of_mem_filter _ _ F fec _ hb
  have hnd := F.numData_lt
  rw [h.code.numData] at hla hlb
  have hpa : asU16 (a.1 - F.fecSetIndex) = a.1 - F.fecSetIndex := Nat.mod_eq_of_lt (by omega)
  have hpb : asU16 (b.1 - F.fecSetIndex) = b.1 - F.fecSetIndex := Nat.mod_eq_of_lt (by omega)
  show asU16 (a.1 - F.fecSetIndex) ≠ asU16 (b.1 - F.fecSetIndex)
  rw [hpa, hpb]
  omega

/-- Whatever is reconstructed are packets of the set at their positions. -/
theorem recovered_eq (h : Genuine F acc fec) {rs : ReedSolomonCrate C} (hrs : rs.Rebuilds parity)
    {cache cache' : ReedSolomonCache C} (hcache : cache.Valid rs) {recovered : List (ℕ × Bytes)}
    (hrec : fec.tryReconstruct rs (acc.dataRefs F.fecSetIndex fec.numData) cache =
      (cache', some recovered)) :
    ∀ r ∈ recovered, r.1 < F.numData ∧ r.2 = F.rebuilt r.1 := by
  obtain ⟨cache'', -, ⟨hnone, -⟩ | ⟨hnil, -⟩ | hall⟩ :=
    F.tryReconstruct_cases hrs hcache h.code h.refs_right h.refs_nodup
  · rw [hrec] at hnone
    cases hnone
  · rw [hrec] at hnil
    cases hnil
    exact fun r hr => by cases hr
  · rw [hrec] at hall
    cases hall
    intro r hr
    obtain ⟨h1, -, h2⟩ := F.mem_rebuiltWithout.mp hr
    exact ⟨h1, h2⟩

end Genuine

/-! ## What a step keeps -/

/-- Fewer shreds of the set, fewer at hand. -/
theorem dataCountFor_le {i : ℕ} (fec : FecSetBuffer)
    (hsub : ∀ (k : ℕ) (ps : PendingShred), acc'.pending[k]? = some ps → ps.fecSetIndex = i →
      acc.pending[k]? = some ps) : acc'.dataCountFor i fec ≤ acc.dataCountFor i fec := by
  unfold dataCountFor
  split_ifs
  · exact le_rfl
  · apply List.Subperm.length_le
    apply List.Nodup.subperm (acc'.pending.toList_nodup.filter _)
    rintro ⟨k, ps⟩ he
    obtain ⟨hmem, hcond⟩ := List.mem_filter.mp he
    have hset : ps.fecSetIndex = i := by
      simp only [Bool.and_eq_true, decide_eq_true_eq] at hcond
      exact hcond.2
    have hps := hsub k ps (acc'.pending.mem_toList.mp hmem) hset
    exact List.mem_filter.mpr ⟨acc.pending.mem_toList.mpr hps, hcond⟩

theorem canRecoverWith_mono {fec : FecSetBuffer} {m n : ℕ} (h : fec.canRecoverWith m = true)
    (hmn : m ≤ n) : fec.canRecoverWith n = true := by
  unfold FecSetBuffer.canRecoverWith at h ⊢
  simp only [Bool.and_eq_true, decide_eq_true_eq] at h ⊢
  omega

/-- Sets that were honest and did not get more shreds stay honest. -/
theorem Honest.of_sets (h : acc.Honest parity slot)
    (hsets : ∀ (i : ℕ) (fec : FecSetBuffer), acc'.fecSets[i]? = some fec →
      (∃ F : FecSet parity, F.slot = slot ∧ F.fecSetIndex = i ∧ Genuine F acc' fec) ∨
        acc.fecSets[i]? = some fec ∧ ∀ (k : ℕ) (ps : PendingShred),
          acc'.pending[k]? = some ps → ps.fecSetIndex = i → acc.pending[k]? = some ps) :
    acc'.Honest parity slot := by
  intro i fec hfec hcan
  rcases hsets i fec hfec with hF | ⟨hold, hsub⟩
  · exact hF
  · obtain ⟨F, hslot, hidx, hgen⟩ :=
      h i fec hold (canRecoverWith_mono hcan (dataCountFor_le fec hsub))
    refine ⟨F, hslot, hidx, hgen.mono fun k ps hps hset => hsub k ps hps ?_⟩
    rw [hset, hidx]

theorem tryFecFill_cache_valid (acc : SlotAccumulator) {cache : ReedSolomonCache C}
    (h : cache.Valid env.reedSolomon) (hint : ℕ) :
    (acc.tryFecFill env clock cache hint).2.1.Valid env.reedSolomon := by
  unfold SlotAccumulator.tryFecFill
  split
  · exact h
  split
  · exact h
  rename_i setIdx _ _ fec _
  split_ifs
  · exact h
  have hvalid := h.tryReconstruct fec (acc.dataRefs setIdx fec.numData)
  split
  · rename_i heq
    rwa [heq] at hvalid
  · rename_i heq
    rw [heq] at hvalid
    simp only
    split_ifs
    · exact hvalid
    · exact hvalid

/-- What the insertions of a recovery from the honest set `F` have led to: what is
    pending is filed, `F` is still honest and the other sets were left alone. -/
structure Refilling (slot : ℕ) (F : FecSet parity) (fec : FecSetBuffer)
    (acc acc₁ : SlotAccumulator) : Prop where
  filed : acc₁.Filed slot
  fecSets : acc₁.fecSets = acc.fecSets
  genuine : Genuine F acc₁ fec
  others : ∀ (k : ℕ) (ps : PendingShred), acc₁.pending[k]? = some ps →
    ps.fecSetIndex ≠ F.fecSetIndex → acc.pending[k]? = some ps

namespace Refilling

variable {F : FecSet parity} {fec : FecSetBuffer} {acc₁ acc₂ : SlotAccumulator}

/-- A packet that is a packet of the set at its position is filed under its index. -/
theorem inserts (h : Refilling slot F fec acc acc₁) (hslot : F.slot = slot) {r : ℕ × Bytes}
    (hp : r.1 < F.numData) (hbytes : r.2 = F.rebuilt r.1)
    (hins : Inserts clock F.fecSetIndex r acc₁ acc₂) : Refilling slot F fec acc acc₂ := by
  have hle := F.index_lt
  have hidx : wrapAdd32 F.fecSetIndex r.1 = F.fecSetIndex + r.1 := Nat.mod_eq_of_lt (by omega)
  cases hins with
  | skip => exact h
  | last => exact ⟨h.filed, h.fecSets, ⟨h.genuine.code, h.genuine.data⟩, h.others⟩
  | @store d hge hnew hparse hlast =>
    rw [hbytes, F.parseKind_rebuilt hp] at hparse
    cases hparse
    have hget (k : ℕ) : (acc₁.storeRecovered clock F.fecSetIndex (wrapAdd32 F.fecSetIndex r.1)
        r.2 (F.shred r.1)).pending[k]? = if F.fecSetIndex + r.1 = k then some {
          source := .recovered r.2
          payloadEnd := asU16 (dataHeaderSize + (F.shred r.1).payload.length)
          batchComplete := (F.shred r.1).batchComplete
          fecSetIndex := F.fecSetIndex } else acc₁.pending[k]? := by
      rw [storeRecovered, hidx, BTreeMap.getElem?_insert_eq]
    refine ⟨fun k ps hps => ?_, h.fecSets, ⟨h.genuine.code, fun p hp' ps hps hset => ?_⟩,
      fun k ps hps hset => ?_⟩
    · rw [hget] at hps
      split_ifs at hps with hk
      · cases hps
        refine ⟨F.shred r.1, ?_, (F.data_slot r.1 hp).trans hslot, ?_⟩
        · rw [← F.parseKind_rebuilt hp, ← hbytes]
          rfl
        · rw [F.data_index r.1 hp, hk]
      · exact h.filed k ps hps
    · rw [hget] at hps
      split_ifs at hps with hk
      · cases hps
        obtain rfl : r.1 = p := Nat.add_left_cancel hk
        exact .inr hbytes
      · exact h.genuine.data p hp' ps hps hset
    · rw [hget] at hps
      split_ifs at hps with hk
      · cases hps
        exact absurd rfl hset
      · exact h.others k ps hps hset

/-- Afterwards each set is honest or has no more shreds than before. -/
theorem sets (h : Refilling slot F fec acc acc₁) (hslot : F.slot = slot)
    (hfec : acc.fecSets[F.fecSetIndex]? = some fec) {i : ℕ} {fec' : FecSetBuffer}
    (hfec' : acc.fecSets[i]? = some fec') :
    (∃ F' : FecSet parity, F'.slot = slot ∧ F'.fecSetIndex = i ∧ Genuine F' acc₁ fec') ∨
      acc.fecSets[i]? = some fec' ∧ ∀ (k : ℕ) (ps : PendingShred),
        acc₁.pending[k]? = some ps → ps.fecSetIndex = i → acc.pending[k]? = some ps := by
  by_cases hi : F.fecSetIndex = i
  · subst hi
    rw [hfec] at hfec'
    cases hfec'
    exact .inl ⟨F, hslot, rfl, h.genuine⟩
  · exact .inr ⟨hfec', fun k ps hps hset => h.others k ps hps (hset ▸ Ne.symm hi)⟩

end Refilling

/-- Recovery from an honest set files what it rebuilds under its own index. -/
theorem Filed.tryFecFill (h : acc.Filed slot) (hh : acc.Honest parity slot)
    (hrs : env.reedSolomon.Rebuilds parity) {cache : ReedSolomonCache C}
    (hcache : cache.Valid env.reedSolomon) (hint : ℕ) :
    (acc.tryFecFill env clock cache hint).1.Filed slot ∧
      (acc.tryFecFill env clock cache hint).1.Honest parity slot := by
  rcases tryFecFill_cases env acc clock cache hint with
    ⟨cache', counters, hfill⟩ | ⟨setIdx, fec, cache', recovered, hsel, hfec, hrec, hfill⟩
  · rw [hfill]
    exact ⟨h, hh.of_sets fun i fec hfec => .inr ⟨hfec, fun _ _ hps _ => hps⟩⟩
  obtain ⟨fec', hfec', hcan⟩ := selectRecoverableSet_spec hsel
  rw [hfec] at hfec'
  cases hfec'
  obtain ⟨F, hslot, rfl, hgen⟩ := hh setIdx fec hfec hcan
  have hpackets := hgen.recovered_eq hrs hcache hrec
  have hrefill : Refilling slot F fec acc
      (recovered.foldl (insertRecovered clock F.fecSetIndex) (acc, false)).1 :=
    foldl_insertRecovered_invariant
      (fun r hr _ _ h₁ hins => h₁.inserts hslot (hpackets r hr).1 (hpackets r hr).2 hins)
      ⟨h, rfl, hgen, fun _ _ hps _ => hps⟩
  rcases hfill with hfill | ⟨counters, hfill⟩
  · rw [hfill]
    refine ⟨hrefill.filed, hh.of_sets fun i fec' hfec' => hrefill.sets hslot hfec ?_⟩
    rwa [hrefill.fecSets] at hfec'
  · rw [hfill]
    refine ⟨hrefill.filed, hh.of_sets fun i fec' hfec' => ?_⟩
    simp only [BTreeMap.getElem?_erase_eq] at hfec'
    split_ifs at hfec'
    rw [hrefill.fecSets] at hfec'
    rcases hrefill.sets hslot hfec hfec' with ⟨F', h1, h2, h3⟩ | hold
    · exact .inl ⟨F', h1, h2, h3.code, h3.data⟩
    · exact .inr hold

/-- What holds at every step of a call on the accumulator of the slot. -/
structure FiledState (env : Env C) (parity : ℕ → ℕ → List Bytes → List Bytes) (slot : ℕ)
    (s : CallState C) : Prop where
  filed : s.acc.Filed slot
  honest : s.acc.Honest parity slot
  cache : s.cache.Valid env.reedSolomon

theorem Step.filed {s s' : CallState C} (h : Step env clock s s')
    (hrs : env.reedSolomon.Rebuilds parity) (hs : FiledState env parity slot s) :
    FiledState env parity slot s' := by
  have hsame {s' : CallState C} (hpending : s'.acc.pending = s.acc.pending)
      (hsets : s'.acc.fecSets = s.acc.fecSets) (hcache : s'.cache = s.cache) :
      FiledState env parity slot s' := by
    refine ⟨fun k ps hps => hs.filed k ps (by rwa [hpending] at hps),
      hs.honest.of_sets fun i fec hfec => .inr ⟨by rwa [hsets] at hfec, fun k ps hps _ => ?_⟩, ?_⟩
    · rwa [hpending] at hps
    · rw [hcache]
      exact hs.cache
  cases h with
  | fill hint =>
    obtain ⟨h1, h2⟩ : (s.acc.tryFecFill env clock s.cache hint).1.Filed slot ∧
        (s.acc.tryFecFill env clock s.cache hint).1.Honest parity slot :=
      hs.filed.tryFecFill hs.honest hrs hs.cache hint
    exact ⟨h1, h2, tryFecFill_cache_valid s.acc hs.cache hint⟩
  | stream => exact hsame rfl rfl rfl
  | streamError => exact hsame rfl rfl rfl
  | record => exact hsame rfl rfl rfl
  | tally => exact hsame rfl rfl rfl
  | finalise txs =>
    refine ⟨fun k ps hps => hs.filed k ps ((completeBatch_pending _).mp hps).1,
      hs.honest.of_sets fun i fec hfec => .inr ⟨?_, fun k ps hps _ => ?_⟩, hs.cache⟩
    · exact ((BTreeMap.getElem?_filter_eq _).mp hfec).1
    · exact ((completeBatch_pending _).mp hps).1

theorem Steps.cache_valid {s s' : CallState C} (h : Steps env clock s s')
    (hs : s.cache.Valid env.reedSolomon) : s'.cache.Valid env.reedSolomon := by
  refine Steps.invariant (I := fun s => s.cache.Valid env.reedSolomon) ?_ h hs
  intro s s' hs hstep
  cases hstep with
  | fill hint => exact tryFecFill_cache_valid s.acc hs hint
  | _ => exact hs

/-! ## Calls -/

theorem call_cache_valid (hp : acc.Parsed) {c : Call} (hc : c.Parsed) {cache : ReedSolomonCache C}
    (hcache : cache.Valid env.reedSolomon) {fuel : ℕ} {r : CallState C}
    (h : acc.call env clock fuel cache c = some r) : r.cache.Valid env.reedSolomon := by
  rcases call_cases hp hc h with ⟨a, -, -, rfl⟩ | ⟨acc₀, s, -, hs, ⟨rfl, -⟩ | ⟨a, -, -, rfl⟩⟩
  · exact hcache
  · exact hs.cache_valid hcache
  · exact hs.cache_valid hcache

/-- A call whose recoverable sets are honest when it has opened keeps the shreds
    under their own index. -/
theorem Filed.call (h : acc.Filed slot) (hp : acc.Parsed) (hrs : env.reedSolomon.Rebuilds parity)
    {c : Call} (hc : c.Made slot)
    (hhonest : ∀ acc₀, Opens clock acc c acc₀ → acc₀.Honest parity slot)
    {cache : ReedSolomonCache C} (hcache : cache.Valid env.reedSolomon) {fuel : ℕ}
    {r : CallState C} (hr : acc.call env clock fuel cache c = some r) : r.acc.Filed slot := by
  have hopen {acc₀ : SlotAccumulator} (ho : Opens clock acc c acc₀) : acc₀.Filed slot := by
    cases ho with
    | last => exact h
    | data hlast hge hnew =>
      intro k ps hps
      rw [insertData, BTreeMap.getElem?_insert_eq] at hps
      split_ifs at hps with hk
      · cases hps
        cases hc with
        | @data handle d hparse hlen hslot => exact ⟨d, hparse, hslot, hk⟩
      · exact h k ps hps
    | @code a =>
      obtain ⟨fecSets, counters, heq, -⟩ := acc.recordCode_eq a
      rw [heq]
      exact h
    | harvest => exact h
  have hsteps {acc₀ : SlotAccumulator} {s : CallState C} (ho : Opens clock acc c acc₀)
      (hs : Steps env clock ⟨acc₀, cache, []⟩ s) : s.acc.Filed slot :=
    (Steps.invariant (fun _ _ hs hstep => hstep.filed hrs hs) hs
      ⟨hopen ho, hhonest acc₀ ho, hcache⟩ : FiledState env parity slot s).filed
  rcases call_cases hp hc.parsed hr with
    ⟨a, -, -, rfl⟩ | ⟨acc₀, s, ho, hs, ⟨rfl, -⟩ | ⟨a, -, -, rfl⟩⟩
  · exact h
  · exact hsteps ho hs
  · have hfiled : s.acc.Filed slot := hsteps ho hs
    exact hfiled

end SlotAccumulator

end ShredStream
