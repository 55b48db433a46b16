import ShredStream.Accumulator.Flush
import ShredStream.Wire.Reconstruct

/-!
# `try_fec_fill` on an honest FEC set

`FecSet.Held F acc fec`: the accumulator has recorded code packets of the set,
and what it holds at the set's indices are packets of the set.

* `FecSet.insertRecovered_rebuilt`: what the loop over the recovered packets does
  with one of them;
* `FecSet.Held.select_iff`: when `select_recoverable_set` takes the set.
* `FecSet.Held.tryFecFill_get`: what is pending after `try_fec_fill`.
-/

namespace ShredStream

open SlotAccumulator

/-- A stored packet gives back the payload `parse_kind` found in it. -/
theorem PendingShred.payload_of_parse {raw : Bytes} {d : DataShred}
    (h : parseKind raw = .ok (.data d)) (hraw : raw.length ≤ bufSize) {ps : PendingShred}
    (hsource : ps.source.slice = raw)
    (hend : ps.payloadEnd = asU16 (dataHeaderSize + d.payload.length)) :
    ps.payload = some d.payload := by
  obtain ⟨hle, hpay⟩ := payload_of_parseKind h
  unfold bufSize at hraw
  have hend' : ps.payloadEnd = dataHeaderSize + d.payload.length := by
    rw [hend, asU16, Nat.mod_eq_of_lt (by omega)]
  unfold PendingShred.payload
  simp only [hsource, hend']
  rw [if_neg (by omega), hpay]

/-- Only a set whose shreds are enough is selected. -/
theorem SlotAccumulator.selectRecoverableSet_spec {acc : SlotAccumulator} {hint setIdx : ℕ}
    (h : acc.selectRecoverableSet hint = some setIdx) :
    ∃ fec, acc.fecSets[setIdx]? = some fec ∧
      fec.canRecoverWith (acc.dataCountFor setIdx fec) = true := by
  have hcovering : ∀ p : ℕ × FecSetBuffer → Bool, (acc.fecSets.toList.find? fun e => p e &&
      e.2.canRecoverWith (acc.dataCountFor e.1 e.2)).map Prod.fst = some setIdx →
      ∃ fec, acc.fecSets[setIdx]? = some fec ∧
        fec.canRecoverWith (acc.dataCountFor setIdx fec) = true := by
    intro p hp
    obtain ⟨⟨i, fec⟩, hfind, rfl⟩ := Option.map_eq_some_iff.mp hp
    have hcan := List.find?_some hfind
    rw [Bool.and_eq_true] at hcan
    exact ⟨fec, acc.fecSets.mem_toList.mp (List.mem_of_find?_eq_some hfind), hcan.2⟩
  unfold selectRecoverableSet at h
  simp only at h
  cases hhint : acc.fecSets[hint]? with
  | none =>
    rw [hhint] at h
    exact hcovering _ h
  | some fec =>
    rw [hhint] at h
    simp only at h
    split_ifs at h with hcan
    · cases h
      exact ⟨fec, hhint, hcan⟩
    · exact hcovering _ h

/-- A set that is not selected gets no shreds. -/
theorem SlotAccumulator.tryFecFill_others {C : Type} {env : Env C} {clock : Clock}
    {acc : SlotAccumulator} {cache : ReedSolomonCache C} {hint i : ℕ}
    (hsel : acc.selectRecoverableSet hint ≠ some i) (k : ℕ) (ps : PendingShred)
    (hset : ps.fecSetIndex = i)
    (hps : (acc.tryFecFill env clock cache hint).1.pending[k]? = some ps) :
    acc.pending[k]? = some ps := by
  rcases tryFecFill_cases env acc clock cache hint with
    ⟨cache', counters, hfill⟩ | ⟨setIdx, fec, cache', recovered, hsel', -, -, hfill⟩
  · rw [hfill] at hps
    exact hps
  · have hne : setIdx ≠ i := by
      rintro rfl
      exact hsel hsel'
    have hfold := @foldl_insertRecovered_invariant (fun acc₁ => ∀ (k : ℕ) (ps : PendingShred),
      acc₁.pending[k]? = some ps → ps.fecSetIndex = i → acc.pending[k]? = some ps)
      clock setIdx recovered ?_ (acc, false) (fun _ _ hps _ => hps)
    · rcases hfill with hfill | ⟨counters, hfill⟩
      · rw [hfill] at hps
        exact hfold k ps hps hset
      · rw [hfill] at hps
        exact hfold k ps hps hset
    · intro r _ acc₁ acc₂ h₁ hinserts
      cases hinserts with
      | skip => exact h₁
      | last => exact h₁
      | store =>
        intro k ps hps hset
        rw [storeRecovered, BTreeMap.getElem?_insert_eq] at hps
        split_ifs at hps
        · cases hps
          exact absurd hset hne
        · exact h₁ k ps hps hset

namespace FecSet

variable {C : Type} {parity : ℕ → ℕ → List Bytes → List Bytes} (F : FecSet parity)

/-- The shred recovery stores for a position. -/
def recoveredShred (p : ℕ) : PendingShred where
  source := .recovered (F.rebuilt p)
  payloadEnd := asU16 (dataHeaderSize + (F.shred p).payload.length)
  batchComplete := (F.shred p).batchComplete
  fecSetIndex := F.fecSetIndex

/-- `ps` stands for the data packet at a position: same `payload()`,
    `batch_complete` and `fec_set_index`. -/
structure Matches (p : ℕ) (ps : PendingShred) : Prop where
  payload : ps.payload = some (F.shred p).payload
  batchComplete : ps.batchComplete = (F.shred p).batchComplete
  fecSetIndex : ps.fecSetIndex = F.fecSetIndex

theorem length_rebuilt {p : ℕ} (hp : p < F.numData) :
    (F.rebuilt p).length = dataShredPayloadLen := by
  have hlen := F.length_shard hp
  have := shardSize_pos F.proofSize_le F.resigned
  unfold shardLen at hlen
  unfold rebuilt FecSetBuffer.rebuildPacket
  simp only [List.length_append, List.length_replicate, hlen]
  unfold sizeOfSignature dataShredPayloadLen
  omega

theorem matches_recoveredShred {p : ℕ} (hp : p < F.numData) : F.Matches p (F.recoveredShred p) where
  payload := PendingShred.payload_of_parse (F.parseKind_rebuilt hp)
    (by rw [F.length_rebuilt hp]; decide) rfl rfl
  batchComplete := rfl
  fecSetIndex := rfl

/-- What `handle_packet_owned` hands to `push_data` of the data packet at a position. -/
def dataArgs (buf p : ℕ) : DataArgs where
  index := (F.shred p).index
  fecSetIndex := (F.shred p).fecSetIndex
  handle := ⟨buf, F.data p⟩
  payloadEnd := asU16 (dataHeaderSize + (F.shred p).payload.length)
  batchComplete := (F.shred p).batchComplete
  lastInSlot := (F.shred p).lastInSlot

/-- What it hands to `push_code` of the code packet at a position. -/
def codeArgs (q : ℕ) : CodeArgs where
  fecSetIndex := F.fecSetIndex
  numData := F.numData
  numCoding := F.numCoding
  position := q
  coded := F.coded q
  variant := .codeMerkle F.proofSize F.resigned

/-- A data packet that arrives is stored as a shred that matches it. -/
theorem matches_dataArgs {p : ℕ} (hp : p < F.numData) (buf : ℕ) :
    F.Matches p (F.dataArgs buf p).shred where
  payload := PendingShred.payload_of_parse (F.data_parse p hp)
    (by rw [F.data_length p hp]; decide) rfl rfl
  batchComplete := rfl
  fecSetIndex := F.data_fecSetIndex p hp

/-! ## Storing what was recovered -/

/-- A recovered shred is stored. -/
def store (clock : Clock) (acc : SlotAccumulator) (p : ℕ) : SlotAccumulator :=
  { acc with
    pending := acc.pending.insert (F.fecSetIndex + p) (F.recoveredShred p)
    batchCompleteIndices :=
      if (F.shred p).batchComplete then
        acc.batchCompleteIndices.insertIfNew (F.fecSetIndex + p) (clock.now (F.fecSetIndex + p))
      else acc.batchCompleteIndices }

/-- A rebuilt packet is dropped when it is not needed, only marks the slot when
    it is its last shred, and is stored otherwise. -/
theorem insertRecovered_rebuilt (clock : Clock) (acc : SlotAccumulator) (any : Bool) {p : ℕ}
    (hp : p < F.numData) :
    insertRecovered clock F.fecSetIndex (acc, any) (p, F.rebuilt p) =
      if F.fecSetIndex + p < acc.batchStart ∨ F.fecSetIndex + p ∈ acc.pending then (acc, any)
      else if (F.shred p).lastInSlot then (acc.completeSlot (F.fecSetIndex + p), any)
      else (F.store clock acc p, true) := by
  have hwrap : wrapAdd32 F.fecSetIndex p = F.fecSetIndex + p :=
    wrapAdd32_of_lt (by have := F.index_lt; omega)
  unfold insertRecovered
  simp only [hwrap, F.parseKind_rebuilt hp]
  rfl

/-- Position `p` is stored when its index is needed and it is not the last shred. -/
def Stores (acc : SlotAccumulator) (p : ℕ) : Prop :=
  acc.batchStart ≤ F.fecSetIndex + p ∧ F.fecSetIndex + p ∉ acc.pending ∧
    (F.shred p).lastInSlot = false

instance (acc : SlotAccumulator) (p : ℕ) : Decidable (F.Stores acc p) :=
  inferInstanceAs (Decidable (_ ∧ _ ∧ _))

theorem getElem?_store {clock : Clock} {acc : SlotAccumulator} {p i : ℕ} :
    (F.store clock acc p).pending[i]? =
      if F.fecSetIndex + p = i then some (F.recoveredShred p) else acc.pending[i]? :=
  acc.pending.getElem?_insert_eq

/-- Nothing is stored of a rebuilt packet that is not needed. -/
theorem insertRecovered_of_not_stores (clock : Clock) {acc : SlotAccumulator} (any : Bool) {p : ℕ}
    (hp : p < F.numData) (hstore : ¬F.Stores acc p) :
    ∃ acc' any', insertRecovered clock F.fecSetIndex (acc, any) (p, F.rebuilt p) = (acc', any') ∧
      acc'.batchStart = acc.batchStart ∧ acc'.pending = acc.pending := by
  rw [F.insertRecovered_rebuilt clock acc any hp]
  split_ifs with hskip hlast
  · exact ⟨_, _, rfl, rfl, rfl⟩
  · exact ⟨_, _, rfl, rfl, rfl⟩
  · rw [not_or] at hskip
    exact absurd ⟨by omega, hskip.2, by simpa using hlast⟩ hstore

/-- Storing one position leaves it open whether another one is stored. -/
theorem stores_store {clock : Clock} {acc : SlotAccumulator} {p p' : ℕ} (hne : p' ≠ p) :
    F.Stores (F.store clock acc p) p' ↔ F.Stores acc p' := by
  have hmem : F.fecSetIndex + p' ∈ (F.store clock acc p).pending ↔
      F.fecSetIndex + p' ∈ acc.pending := by
    rw [BTreeMap.mem_iff_getElem?, BTreeMap.mem_iff_getElem?, getElem?_store, if_neg (by omega)]
  unfold Stores
  rw [hmem]
  rfl

theorem foldl_insertRecovered_get (clock : Clock) {ps : List ℕ} (hps : ∀ p ∈ ps, p < F.numData)
    (hnodup : ps.Nodup) : ∀ s : SlotAccumulator × Bool,
      let s' := (ps.map fun p => (p, F.rebuilt p)).foldl
        (insertRecovered clock F.fecSetIndex) s
      s'.1.batchStart = s.1.batchStart ∧
      (∀ p ∈ ps, F.Stores s.1 p → s'.1.pending[F.fecSetIndex + p]? = some (F.recoveredShred p)) ∧
      ∀ i, (∀ p ∈ ps, F.Stores s.1 p → F.fecSetIndex + p ≠ i) →
        s'.1.pending[i]? = s.1.pending[i]? := by
  induction ps with
  | nil => exact fun s => ⟨rfl, by simp, fun i _ => rfl⟩
  | cons p ps ih =>
    rintro ⟨acc, any⟩
    rw [List.forall_mem_cons] at hps
    rw [List.nodup_cons] at hnodup
    have hother : ∀ p' ∈ ps, p' ≠ p := by
      rintro p' hp' rfl
      exact hnodup.1 hp'
    simp only [List.map_cons, List.foldl_cons]
    by_cases hstore : F.Stores acc p
    · have hstep : insertRecovered clock F.fecSetIndex (acc, any) (p, F.rebuilt p) =
          (F.store clock acc p, true) := by
        obtain ⟨hge, hnew, hlast⟩ := hstore
        rw [F.insertRecovered_rebuilt clock acc any hps.1,
          if_neg (by rw [not_or]; exact ⟨by omega, hnew⟩), if_neg (by simp [hlast])]
      rw [hstep]
      obtain ⟨h1, h2, h3⟩ := ih hps.2 hnodup.2 (F.store clock acc p, true)
      refine ⟨h1, ?_, fun i hi => ?_⟩
      · rw [List.forall_mem_cons]
        refine ⟨fun _ => ?_, fun p' hp' hs =>
          h2 p' hp' ((F.stores_store (hother p' hp')).mpr hs)⟩
        rw [h3 _ fun p' hp' _ => ?_, getElem?_store, if_pos rfl]
        have hne := hother p' hp'
        omega
      · rw [List.forall_mem_cons] at hi
        rw [h3 i fun p' hp' hs => hi.2 p' hp' ((F.stores_store (hother p' hp')).mp hs),
          getElem?_store, if_neg (hi.1 hstore)]
    · obtain ⟨acc', any', hstep, hstart, hpend⟩ :=
        F.insertRecovered_of_not_stores clock any hps.1 hstore
      rw [hstep]
      obtain ⟨h1, h2, h3⟩ := ih hps.2 hnodup.2 (acc', any')
      have hsame : ∀ p', F.Stores acc' p' ↔ F.Stores acc p' := by
        intro p'
        unfold Stores
        rw [hstart, hpend]
      refine ⟨h1.trans hstart, ?_, fun i hi => ?_⟩
      · rw [List.forall_mem_cons]
        exact ⟨fun hs => absurd hs hstore, fun p' hp' hs => h2 p' hp' ((hsame p').mpr hs)⟩
      · rw [List.forall_mem_cons] at hi
        rw [h3 i fun p' hp' hs => hi.2 p' hp' ((hsame p').mp hs), hpend]

/-! ## What the accumulator holds of a set -/

/-- The accumulator holds packets of the set, and no others where its data
    shreds belong. -/
structure Held (acc : SlotAccumulator) (fec : FecSetBuffer) : Prop where
  recorded : acc.fecSets[F.fecSetIndex]? = some fec
  code : F.Records fec
  data : ∀ p < F.numData, ∀ ps, acc.pending[F.fecSetIndex + p]? = some ps →
    ps.fecSetIndex = F.fecSetIndex ∧
      (ps.source.slice = F.data p ∨ ps.source.slice = F.rebuilt p)

/-- The positions of the set that are pending. -/
def positions (acc : SlotAccumulator) : List ℕ :=
  (List.range F.numData).filter (F.fecSetIndex + · ∈ acc.pending)

/-- Those of them that `select_recoverable_set` counts: the saturating end of its range
    leaves out index `u32::MAX`. -/
def counted (acc : SlotAccumulator) : List ℕ :=
  (F.positions acc).filter (F.fecSetIndex + · < u32Max)

/-- Together with the code shreds they are enough. -/
def Enough (acc : SlotAccumulator) (fec : FecSetBuffer) : Prop :=
  F.numData ≤ (F.counted acc).length + fec.code.size

instance (acc : SlotAccumulator) (fec : FecSetBuffer) : Decidable (F.Enough acc fec) :=
  inferInstanceAs (Decidable (_ ≤ _))

/-- All pending shreds of the set count, unless it reaches `u32::MAX`. -/
theorem counted_eq (hmax : F.fecSetIndex + F.numData ≤ u32Max) (acc : SlotAccumulator) :
    F.counted acc = F.positions acc := by
  refine List.filter_eq_self.mpr fun p hp => ?_
  rw [positions, List.mem_filter, List.mem_range] at hp
  rw [decide_eq_true_eq]
  omega

variable {F}

namespace Held

variable {acc : SlotAccumulator} {fec : FecSetBuffer}

theorem mem_refs (h : F.Held acc fec) {e : ℕ × Bytes} :
    e ∈ acc.dataRefs F.fecSetIndex F.numData ↔ ∃ p < F.numData, ∃ ps,
      acc.pending[F.fecSetIndex + p]? = some ps ∧ e = (p, ps.source.slice) := by
  have hlt := F.numData_lt
  unfold dataRefs
  simp only [List.mem_map, List.mem_filter, Prod.exists, BTreeMap.mem_toList, Bool.and_eq_true,
    decide_eq_true_eq]
  constructor
  · rintro ⟨i, ps, ⟨hget, ⟨hge, hnd⟩, -⟩, rfl⟩
    refine ⟨i - F.fecSetIndex, hnd, ps, ?_, ?_⟩
    · rwa [Nat.add_sub_of_le hge]
    · rw [asU16, Nat.mod_eq_of_lt (by omega)]
  · rintro ⟨p, hp, ps, hget, rfl⟩
    refine ⟨F.fecSetIndex + p, ps, ⟨hget, ⟨by omega, by omega⟩, (h.data p hp ps hget).1⟩, ?_⟩
    rw [Nat.add_sub_cancel_left, asU16, Nat.mod_eq_of_lt (by omega)]

theorem refs_right (h : F.Held acc fec) : ∀ e ∈ acc.dataRefs F.fecSetIndex F.numData,
    e.1 < F.numData ∧
      dataShardSlice e.2 (.dataMerkle F.proofSize F.resigned) = some (F.shard e.1) := by
  intro e he
  obtain ⟨p, hp, ps, hget, rfl⟩ := h.mem_refs.mp he
  refine ⟨hp, ?_⟩
  rcases (h.data p hp ps hget).2 with hdata | hrebuilt
  · rw [hdata]
    exact F.dataShardSlice_data hp
  · rw [hrebuilt]
    exact F.dataShardSlice_rebuilt hp

theorem refs_fst (h : F.Held acc fec) :
    (acc.dataRefs F.fecSetIndex F.numData).map Prod.fst = F.positions acc := by
  have hlt := F.numData_lt
  apply List.Pairwise.eq_of_mem_iff (r := (· < ·))
  · unfold dataRefs
    rw [List.map_map, List.pairwise_map]
    refine (acc.pending.toList_sorted.filter _).imp_of_mem fun {a b} ha hb hab => ?_
    simp only [List.mem_filter, Bool.and_eq_true, decide_eq_true_eq] at ha hb
    simp only [Function.comp_apply, asU16]
    rw [Nat.mod_eq_of_lt (by omega), Nat.mod_eq_of_lt (by omega)]
    omega
  · exact List.pairwise_lt_range.filter _
  · intro p
    rw [List.mem_map, positions, List.mem_filter, List.mem_range, decide_eq_true_eq,
      BTreeMap.mem_iff_getElem?]
    constructor
    · rintro ⟨e, he, rfl⟩
      obtain ⟨p, hp, ps, hget, rfl⟩ := h.mem_refs.mp he
      exact ⟨hp, ps, hget⟩
    · rintro ⟨hp, ps, hget⟩
      exact ⟨_, h.mem_refs.mpr ⟨p, hp, ps, hget, rfl⟩, rfl⟩

theorem refs_nodup (h : F.Held acc fec) :
    ((acc.dataRefs F.fecSetIndex F.numData).map Prod.fst).Nodup := by
  rw [h.refs_fst]
  exact List.nodup_range.filter _

/-- The shreds `select_recoverable_set` counts are among those at hand. -/
theorem dataCountFor_le (h : F.Held acc fec) :
    acc.dataCountFor F.fecSetIndex fec ≤ (acc.dataRefs F.fecSetIndex F.numData).length := by
  have hpos := F.numData_pos
  unfold dataCountFor dataRefs
  rw [h.code.numData, if_neg (by omega), List.length_map, ← List.countP_eq_length_filter,
    ← List.countP_eq_length_filter]
  apply List.countP_mono_left
  intro e _ he
  have : satAdd32 F.fecSetIndex F.numData ≤ F.fecSetIndex + F.numData := min_le_left _ _
  simp only [Bool.and_eq_true, decide_eq_true_eq] at he ⊢
  exact ⟨⟨he.1.1, by omega⟩, he.2⟩

/-- They are those below `u32::MAX`. -/
theorem dataCountFor_eq (h : F.Held acc fec) :
    acc.dataCountFor F.fecSetIndex fec = (F.counted acc).length := by
  have hpos := F.numData_pos
  have hlt := F.numData_lt
  have hsat : satAdd32 F.fecSetIndex F.numData = min (F.fecSetIndex + F.numData) u32Max := rfl
  have hcounted : F.counted acc = ((acc.dataRefs F.fecSetIndex F.numData).map Prod.fst).filter
      (F.fecSetIndex + · < u32Max) := by
    rw [h.refs_fst]
    rfl
  rw [hcounted, dataCountFor, h.code.numData, if_neg (by omega), dataRefs, List.map_map,
    List.filter_map, List.length_map, List.filter_filter]
  apply congrArg List.length
  apply List.filter_congr
  intro e _
  rw [Bool.eq_iff_iff]
  simp only [Bool.and_eq_true, decide_eq_true_eq, Function.comp_apply, asU16]
  constructor
  · rintro ⟨⟨hge, hend⟩, hset⟩
    rw [Nat.mod_eq_of_lt (by omega)]
    exact ⟨by omega, ⟨hge, by omega⟩, hset⟩
  · rintro ⟨hbelow, ⟨hge, hnd⟩, hset⟩
    rw [Nat.mod_eq_of_lt (by omega)] at hbelow
    exact ⟨⟨hge, by omega⟩, hset⟩

/-- The set is selected by its own index when the shreds that count are enough, and only
    then. -/
theorem select_iff (h : F.Held acc fec) :
    acc.selectRecoverableSet F.fecSetIndex = some F.fecSetIndex ↔ F.Enough acc fec := by
  have hpos := F.numData_pos
  have hcan : fec.canRecoverWith (acc.dataCountFor F.fecSetIndex fec) = true ↔
      F.Enough acc fec := by
    unfold FecSetBuffer.canRecoverWith Enough
    rw [h.dataCountFor_eq, h.code.numData]
    simp only [Bool.and_eq_true, decide_eq_true_eq]
    omega
  rw [← hcan]
  constructor
  · intro hsel
    obtain ⟨fec', hfec', hcan'⟩ := selectRecoverableSet_spec hsel
    rw [h.recorded] at hfec'
    cases hfec'
    exact hcan'
  · intro hcan'
    unfold selectRecoverableSet
    simp only [h.recorded]
    rw [if_pos hcan']

/-! ## Recovery -/

/-- The shreds of a set that is selected are enough. -/
theorem count_of_select (h : F.Held acc fec) {hint : ℕ}
    (hsel : acc.selectRecoverableSet hint = some F.fecSetIndex) :
    F.numData ≤ (acc.dataRefs F.fecSetIndex F.numData).length + fec.code.size := by
  obtain ⟨fec', hfec', hcan⟩ := selectRecoverableSet_spec hsel
  rw [h.recorded] at hfec'
  cases hfec'
  have hle := h.dataCountFor_le
  unfold FecSetBuffer.canRecoverWith at hcan
  rw [h.code.numData] at hcan
  simp only [Bool.and_eq_true, decide_eq_true_eq] at hcan
  omega

/-- A set that is selected is recovered. -/
theorem tryFecFill_get (h : F.Held acc fec) {env : Env C} (hrs : env.reedSolomon.Rebuilds parity)
    (hnew : (env.reedSolomon.new F.numData F.numCoding).isSome) {cache : ReedSolomonCache C}
    (hcache : cache.Valid env.reedSolomon) (clock : Clock) {hint : ℕ}
    (hsel : acc.selectRecoverableSet hint = some F.fecSetIndex) {p : ℕ} (hp : p < F.numData) :
    (acc.tryFecFill env clock cache hint).1.pending[F.fecSetIndex + p]? =
      if F.Stores acc p then some (F.recoveredShred p)
      else acc.pending[F.fecSetIndex + p]? := by
  have hpos := F.numData_pos
  obtain ⟨cache', -, hrec⟩ := tryReconstruct_eq hrs hnew hcache h.code h.refs_right h.refs_nodup
    (h.count_of_select hsel)
  rw [h.refs_fst] at hrec
  have hmissing : ∀ p', p' ∈ (List.range F.numData).filter (· ∉ F.positions acc) ↔
      p' < F.numData ∧ F.fecSetIndex + p' ∉ acc.pending := by
    intro p'
    simp only [positions, List.mem_filter, List.mem_range, decide_eq_true_eq]
    tauto
  obtain ⟨-, hstored, hkept⟩ := F.foldl_insertRecovered_get clock
    (fun p' hp' => ((hmissing p').mp hp').1) (List.nodup_range.filter _) (acc, false)
  have hpending : (acc.tryFecFill env clock cache hint).1.pending =
      ((F.rebuiltWithout (F.positions acc)).foldl (insertRecovered clock F.fecSetIndex)
        (acc, false)).1.pending := by
    unfold tryFecFill
    simp only [hsel, h.recorded, h.code.numData, if_neg (show ¬F.numData = 0 by omega), hrec]
    split_ifs
    · rfl
    · rfl
  rw [hpending]
  split_ifs with hstores
  · exact hstored p ((hmissing p).mpr ⟨hp, hstores.2.1⟩) hstores
  · apply hkept
    intro p' _ hs heq
    obtain rfl : p' = p := by omega
    exact hstores hs

end Held

theorem recordCode_fresh (cfg : AccumulatorConfig) (a : CodeArgs) :
    (withConfig cfg).recordCode a = { withConfig cfg with
      fecSets := (∅ : BTreeMap FecSetBuffer).insert a.fecSetIndex
        ((FecSetBuffer.new a.fecSetIndex).recordCode a.position a.numData a.numCoding a.coded
          a.variant) } := by
  have hnone : (withConfig cfg).fecSets.toList.head? = none := by
    rw [List.head?_eq_none_iff, ← List.isEmpty_iff, Std.ExtTreeMap.isEmpty_toList]
    rfl
  unfold recordCode
  simp only [hnone, ite_self]
  rw [show (withConfig cfg).fecSets = ∅ from rfl, Std.ExtTreeMap.getElem?_empty]
  rfl

/-- A fresh accumulator that was handed a code packet of the set. -/
theorem held_fresh (cfg : AccumulatorConfig) {q : ℕ} (hq : q < F.numCoding) :
    F.Held ((withConfig cfg).recordCode (F.codeArgs q)) (F.record (.new F.fecSetIndex) q) where
  recorded := by
    rw [recordCode_fresh]
    exact Std.ExtTreeMap.getElem?_insert_self
  code := records_new hq _
  data p hp ps h := by
    rw [recordCode_fresh] at h
    simp [withConfig] at h

end FecSet

end ShredStream
