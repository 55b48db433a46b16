import ShredStream.Accumulator.Recovered
import ShredStream.Decoder.LegacyWire
import ShredStream.Wire.PairCode

/-!
# Lost shreds come back

`recovered_shreds_match_iff`: from any `num_data` packets of an honest FEC set
`try_reconstruct` gives back the shreds that were lost. `try_fec_fill` stores them,
unless the last shred of the slot is among them, or too few packets are at hand when a
data shred of index `u32::MAX` does not count.
-/

namespace ShredStream.FecSet

open SlotAccumulator

/-- Whatever is lost is recovered, but for the last shred of the slot, and but for a set
    of which too few shreds count. -/
theorem recovered_shreds_match_iff {C : Type} {parity : ℕ → ℕ → List Bytes → List Bytes} {env : Env C}
    (hrs : env.reedSolomon.Rebuilds parity) (F : FecSet parity)
    (hnew : (env.reedSolomon.new F.numData F.numCoding).isSome) :
    -- `try_reconstruct` on any `num_data` packets
    (∀ (Q D : List ℕ) (cache : ReedSolomonCache C), (∀ q ∈ Q, q < F.numCoding) →
      (∀ p ∈ D, p < F.numData) → D.Nodup → F.numData ≤ D.length + Q.dedup.length →
      cache.Valid env.reedSolomon →
      ∃ cache', ((Q.map F.code).foldl recordPacket (.new F.fecSetIndex)).tryReconstruct
        env.reedSolomon (D.map fun p => (p, F.data p)) cache =
          (cache', some (F.rebuiltWithout D))) ∧
    -- what the parser makes of a rebuilt packet
    (∀ p < F.numData, parseKind (F.rebuilt p) = parseKind (F.data p)) ∧
    -- the shreds that count are all pending ones, unless the set reaches `u32::MAX`
    (F.fecSetIndex + F.numData ≤ u32Max → ∀ acc fec,
      (F.Enough acc fec ↔ F.numData ≤ (F.positions acc).length + fec.code.size)) ∧
    -- what `try_fec_fill` leaves
    ∀ acc fec (cache : ReedSolomonCache C) clock, F.Held acc fec → cache.Valid env.reedSolomon →
      ((∀ p < F.numData, acc.batchStart ≤ F.fecSetIndex + p → F.fecSetIndex + p ∉ acc.pending →
        ∃ ps, (acc.tryFecFill env clock cache F.fecSetIndex).1.pending[F.fecSetIndex + p]? =
            some ps ∧
          ∀ buf, ps.payload = (F.dataArgs buf p).shred.payload ∧
            ps.batchComplete = (F.dataArgs buf p).shred.batchComplete ∧
            ps.fecSetIndex = (F.dataArgs buf p).shred.fecSetIndex) ↔
        ∀ p < F.numData, acc.batchStart ≤ F.fecSetIndex + p → F.fecSetIndex + p ∉ acc.pending →
          (F.shred p).lastInSlot = false ∧ F.Enough acc fec) := by
  refine ⟨fun Q D cache hQ hD hnodup hcount hcache =>
      tryReconstruct_received hrs hnew hcache hQ hD hnodup hcount,
    fun p hp => (F.parseKind_rebuilt hp).trans (F.data_parse p hp).symm,
    fun hmax acc fec => by rw [Enough, F.counted_eq hmax acc], ?_⟩
  intro acc fec cache clock h hcache
  refine forall₄_congr fun p hp hge hnew' => ?_
  have hmissing : acc.pending[F.fecSetIndex + p]? = none := Std.ExtTreeMap.getElem?_eq_none hnew'
  constructor
  · rintro ⟨ps, hps, hsame⟩
    obtain ⟨-, -, hset⟩ := hsame 0
    have hset' : ps.fecSetIndex = F.fecSetIndex := hset.trans (F.data_fecSetIndex p hp)
    -- a shred of this set comes from this set
    have hsel : acc.selectRecoverableSet F.fecSetIndex = some F.fecSetIndex := by
      by_contra hsel
      have hold := tryFecFill_others hsel _ ps hset' hps
      rw [hmissing] at hold
      cases hold
    rw [h.tryFecFill_get hrs hnew hcache clock hsel hp] at hps
    refine ⟨?_, h.select_iff.mp hsel⟩
    by_contra hlast
    rw [if_neg fun hs => hlast hs.2.2, hmissing] at hps
    cases hps
  · rintro ⟨hlast, henough⟩
    rw [h.tryFecFill_get hrs hnew hcache clock (h.select_iff.mpr henough) hp,
      if_pos ⟨hge, hnew', hlast⟩]
    refine ⟨_, rfl, fun buf => ?_⟩
    have hlost := F.matches_dataArgs hp buf
    have hback := F.matches_recoveredShred hp
    exact ⟨hback.payload.trans hlost.payload.symm, hback.batchComplete.trans hlost.batchComplete.symm,
      hback.fecSetIndex.trans hlost.fecSetIndex.symm⟩

/-! ## Merkle packets -/

/-- A Merkle data packet with proof size 0. -/
def merkleData (index fecSetIndex : ℕ) (flags : UInt8) (payload : Bytes) : Bytes :=
  let packet := List.replicate sizeOfSignature 0 ++ (0x90 : UInt8) :: leBytes 8 0 ++
    leBytes 4 index ++ leBytes 2 0 ++ leBytes 4 fecSetIndex ++ leBytes 2 0 ++
    flags :: leBytes 2 (dataHeaderSize + payload.length) ++ payload
  packet ++ List.replicate (dataShredPayloadLen - packet.length) 0

/-- A Merkle code packet with proof size 0. -/
def merkleCode (fecSetIndex numData numCoding position : ℕ) (shard : Bytes) : Bytes :=
  List.replicate sizeOfSignature 0 ++ (0x60 : UInt8) :: leBytes 8 0 ++
    leBytes 4 (fecSetIndex + position) ++ leBytes 2 0 ++ leBytes 4 fecSetIndex ++
    leBytes 2 numData ++ leBytes 2 numCoding ++ leBytes 2 position ++ shard ++
    List.replicate sizeOfMerkleRoot 0

/-- What `parse_kind` makes of the data packet. -/
def merkleShred (index fecSetIndex : ℕ) (flags : UInt8) (payload : Bytes) : DataShred where
  slot := 0
  index := index
  version := 0
  fecSetIndex := fecSetIndex
  parentOffset := 0
  payload := payload
  batchComplete := isBatchComplete flags
  lastInSlot := isLastInSlot flags
  variant := .dataMerkle 0 false
  rawLen := dataShredPayloadLen

section

variable (parity : ℕ → ℕ → List Bytes → List Bytes) (i nd nc : ℕ) (payload : ℕ → Bytes)
  (flags : ℕ → UInt8)

/-- The code packet at a position of a set of such data packets. -/
def merkleParity (q : ℕ) : Bytes :=
  merkleCode i nd nc q (((parity nd nc ((List.range nd).map fun p =>
    dataShard 0 false (merkleData (i + p) i (flags p) (payload p))))[q]?).getD [])

/-- The packets fit and parse as they should. -/
def MakesSet : Prop :=
  (0 < nd ∧ nd < 2 ^ 16 ∧ i + nd ≤ 2 ^ 32) ∧
  (∀ p < nd, (merkleData (i + p) i (flags p) (payload p)).length = dataShredPayloadLen ∧
    parseKind (merkleData (i + p) i (flags p) (payload p)) =
      .ok (.data (merkleShred (i + p) i (flags p) (payload p))) ∧
    ∀ size ∈ readU16 (merkleData (i + p) i (flags p) (payload p)) dataSizeOffset,
      size ≤ sizeOfSignature + shardSize 0 false) ∧
  ∀ q < nc, (merkleParity parity i nd nc payload flags q).length = codeShredPayloadLen ∧
    parseKind (merkleParity parity i nd nc payload flags q) = .ok (.code {
      slot := 0, index := i + q, version := 0, fecSetIndex := i, numDataShreds := nd
      numCodingShreds := nc, position := q
      coded := codedPart 0 false (merkleParity parity i nd nc payload flags q)
      variant := .codeMerkle 0 false }) ∧
    (parity nd nc ((List.range nd).map fun p =>
        dataShard 0 false (merkleData (i + p) i (flags p) (payload p))))[q]? =
      some ((codedPart 0 false (merkleParity parity i nd nc payload flags q)).drop
        sizeOfCodingShredHeaders)

instance : Decidable (MakesSet parity i nd nc payload flags) :=
  inferInstanceAs (Decidable (_ ∧ _ ∧ _))

variable {parity i nd nc payload flags}

/-- The set of these packets. -/
def merkleSet (h : MakesSet parity i nd nc payload flags) : FecSet parity where
  slot := 0
  fecSetIndex := i
  numData := nd
  numCoding := nc
  proofSize := 0
  resigned := false
  data p := merkleData (i + p) i (flags p) (payload p)
  shred p := merkleShred (i + p) i (flags p) (payload p)
  code := merkleParity parity i nd nc payload flags
  numData_pos := h.1.1
  numData_lt := h.1.2.1
  index_lt := h.1.2.2
  proofSize_le := by decide
  data_length p hp := (h.2.1 p hp).1
  data_parse p hp := (h.2.1 p hp).2.1
  data_variant _ _ := rfl
  data_slot _ _ := rfl
  data_index _ _ := rfl
  data_fecSetIndex _ _ := rfl
  data_size p hp := (h.2.1 p hp).2.2
  code_length q hq := (h.2.2 q hq).1
  code_parse q hq := ⟨_, (h.2.2 q hq).2.1, rfl, rfl, rfl, rfl, rfl, rfl⟩
  code_parity q hq := (h.2.2 q hq).2.2

end

/-- One parity shard for one data shard is a copy of it. -/
def copyParity (_ _ : ℕ) (data : List Bytes) : List Bytes := data

/-- The crate, for that geometry. -/
def copyCrate : ReedSolomonCrate Unit where
  new nd nc := if nd = 1 ∧ nc = 1 then some () else none
  reconstructData _ shards :=
    match shards with
    | [some s, t] => some [some s, t]
    | [none, some s] => some [some s, some s]
    | _ => none

theorem copyCrate_rebuilds : copyCrate.Rebuilds copyParity := by
  intro nd nc codec hnew data shards len hdata _ _ hlen hright hcount
  have hgeom : nd = 1 ∧ nc = 1 := by
    by_contra h
    simp [copyCrate, h] at hnew
  obtain ⟨rfl, rfl⟩ := hgeom
  obtain ⟨s, rfl⟩ := List.length_eq_one_iff.mp hdata
  obtain ⟨a, b, rfl⟩ := List.length_eq_two.mp hlen
  have hfirst : ∀ t, a = some t → s = t := fun t ht => by simpa [ht] using hright 0 t
  have hsecond : ∀ t, b = some t → s = t := fun t ht => by
    simpa [ht, copyParity] using hright 1 t
  cases a with
  | some t =>
    obtain rfl := hfirst t rfl
    exact ⟨_, rfl, by simp⟩
  | none =>
    cases b with
    | some t =>
      obtain rfl := hsecond t rfl
      exact ⟨_, rfl, by simp⟩
    | none => simp at hcount

/-- A set of one data packet and its copy. -/
def loneSet (flags : UInt8) (h : flags = 0x40 ∨ flags = 0xC0) : FecSet copyParity where
  slot := 0
  fecSetIndex := 0
  numData := 1
  numCoding := 1
  proofSize := 0
  resigned := false
  data _ := merkleData 0 0 flags [7]
  shred _ := {
    slot := 0, index := 0, version := 0, fecSetIndex := 0, parentOffset := 0, payload := [7]
    batchComplete := true, lastInSlot := isLastInSlot flags
    variant := .dataMerkle 0 false, rawLen := 1203 }
  code _ := merkleCode 0 1 1 0 (dataShard 0 false (merkleData 0 0 flags [7]))
  numData_pos := by decide
  numData_lt := by decide
  index_lt := by decide
  proofSize_le := by decide
  data_length := by
    rcases h with rfl | rfl
    · decide +kernel
    · decide +kernel
  data_parse := by
    rcases h with rfl | rfl
    · decide +kernel
    · decide +kernel
  data_variant _ _ := rfl
  data_slot _ _ := rfl
  data_index p hp := by
    rw [Nat.lt_one_iff.mp hp]
  data_fecSetIndex _ _ := rfl
  data_size := by
    rcases h with rfl | rfl
    · decide +kernel
    · decide +kernel
  code_length := by
    rcases h with rfl | rfl
    · decide +kernel
    · decide +kernel
  code_parse q hq := by
    rw [Nat.lt_one_iff.mp hq]
    refine ⟨{
      slot := 0, index := 0, version := 0, fecSetIndex := 0, numDataShreds := 1
      numCodingShreds := 1, position := 0
      coded := codedPart 0 false (merkleCode 0 1 1 0 (dataShard 0 false (merkleData 0 0 flags [7])))
      variant := .codeMerkle 0 false }, ?_, rfl, rfl, rfl, rfl, rfl, rfl⟩
    rcases h with rfl | rfl
    · decide +kernel
    · decide +kernel
  code_parity := by
    rcases h with rfl | rfl
    · decide +kernel
    · decide +kernel

/-- The crate for that geometry, and the wire format of the tests. -/
def copyEnv : Env Unit where
  wincode := LegacyWire.wincode
  reedSolomon := copyCrate

/-- The crate for one or two data shards and one parity shard. -/
def pairEnv : Env Unit where
  wincode := LegacyWire.wincode
  reedSolomon := pairCrate

/-- A shred that ends a batch, and the last shred of a slot. -/
def batchEnd : FecSet copyParity := loneSet 0x40 (.inl rfl)
def slotEnd : FecSet copyParity := loneSet 0xC0 (.inr rfl)

/-- A fresh accumulator that was handed the code packet of the set. -/
def awaiting (F : FecSet copyParity) : SlotAccumulator :=
  (withConfig {}).recordCode (F.codeArgs 0)

/-- No time passes. -/
def stillClock : Clock := ⟨fun _ => 0, fun _ _ => 0⟩

theorem held_awaiting (F : FecSet copyParity) (hF : 0 < F.numCoding) :
    F.Held (awaiting F) (F.record (.new F.fecSetIndex) 0) := held_fresh {} hF

theorem not_mem_awaiting (F : FecSet copyParity) (i : ℕ) : i ∉ (awaiting F).pending := by
  rw [awaiting, recordCode_fresh]
  simp [withConfig]

theorem count_awaiting (F : FecSet copyParity) (hF : F.numData ≤ 1) :
    F.numData ≤ (F.positions (awaiting F)).length +
      (F.record (.new F.fecSetIndex) 0).code.size := by
  have hsize : (F.record (.new F.fecSetIndex) 0).code.size = 1 := by
    show ((∅ : BTreeMap Bytes).insertIfNew 0 (F.coded 0)).size = 1
    rw [Std.ExtTreeMap.size_insertIfNew, if_neg Std.ExtTreeMap.not_mem_empty,
      Std.ExtTreeMap.size_empty]
  omega

theorem valid_empty : ReedSolomonCache.Valid copyCrate {} := fun e he => by cases he

/-- Two data packets, the second of which ends a batch, and a code packet. -/
def pairSet : FecSet pairParity :=
  merkleSet (show MakesSet pairParity 0 2 1 (fun p => [7, .ofNat p])
    (fun p => if p = 1 then 0x40 else 0) by decide +kernel)

/-- A fresh accumulator that was handed the code packet and the first data packet. -/
def halfReceived : SlotAccumulator :=
  ((withConfig {}).recordCode (pairSet.codeArgs 0)).insertData stillClock (pairSet.dataArgs 0 0)

theorem getElem?_halfReceived (i : ℕ) :
    halfReceived.pending[i]? = if 0 = i then some (pairSet.dataArgs 0 0).shred else none := by
  have hpending : halfReceived.pending =
      (∅ : BTreeMap PendingShred).insert 0 (pairSet.dataArgs 0 0).shred := by
    rw [halfReceived, recordCode_fresh]
    rfl
  rw [hpending, BTreeMap.getElem?_insert_eq, Std.ExtTreeMap.getElem?_empty]

theorem held_halfReceived :
    pairSet.Held halfReceived (pairSet.record (.new pairSet.fecSetIndex) 0) where
  recorded := (held_fresh (F := pairSet) {} Nat.one_pos).recorded
  code := records_new Nat.one_pos _
  data p hp ps h := by
    rw [getElem?_halfReceived] at h
    split_ifs at h with hi
    cases h
    obtain rfl : p = 0 := by
      have hstart : pairSet.fecSetIndex = 0 := rfl
      omega
    exact ⟨rfl, .inl rfl⟩

theorem enough_halfReceived :
    pairSet.Enough halfReceived (pairSet.record (.new pairSet.fecSetIndex) 0) := by
  decide +kernel

theorem valid_empty_pair : ReedSolomonCache.Valid pairCrate {} := fun e he => by cases he

/-- The second data packet is lost. -/
theorem recovered_shreds_match_iff_second :
    (∃ cache', (([0].map pairSet.code).foldl recordPacket
      (.new pairSet.fecSetIndex)).tryReconstruct pairCrate
        ([0].map fun p => (p, pairSet.data p)) {} =
          (cache', some (pairSet.rebuiltWithout [0]))) ∧
    ∃ ps, (halfReceived.tryFecFill pairEnv stillClock {} pairSet.fecSetIndex).1.pending[
        pairSet.fecSetIndex + 1]? = some ps ∧
      ∀ buf, ps.payload = (pairSet.dataArgs buf 1).shred.payload ∧
        ps.batchComplete = (pairSet.dataArgs buf 1).shred.batchComplete ∧
        ps.fecSetIndex = (pairSet.dataArgs buf 1).shred.fecSetIndex := by
  obtain ⟨hreconstruct, -, -, hfill⟩ := recovered_shreds_match_iff
    (show pairEnv.reedSolomon.Rebuilds pairParity from pairCrate_rebuilds) pairSet rfl
  have hlast : ∀ p < pairSet.numData, (pairSet.shred p).lastInSlot = false := by decide
  have hback := (hfill _ _ {} stillClock held_halfReceived valid_empty_pair).mpr
    fun p hp _ _ => ⟨hlast p hp, enough_halfReceived⟩
  refine ⟨hreconstruct [0] [0] {} (by decide) (by decide) (List.nodup_singleton 0) (by decide)
    valid_empty_pair, hback 1 (by decide) (Nat.zero_le _) ?_⟩
  rw [BTreeMap.mem_iff_getElem?, getElem?_halfReceived, if_neg (by decide)]
  simp

/-- The last shred of a slot is not recovered. -/
theorem last_shred_not_recovered :
    ¬∀ (F : FecSet copyParity) (acc : SlotAccumulator) (fec : FecSetBuffer)
      (cache : ReedSolomonCache Unit) (clock : Clock), F.Held acc fec → cache.Valid copyCrate →
      (copyCrate.new F.numData F.numCoding).isSome →
      F.numData ≤ (F.positions acc).length + fec.code.size →
      ∀ p < F.numData, acc.batchStart ≤ F.fecSetIndex + p → F.fecSetIndex + p ∉ acc.pending →
        ∃ ps, (acc.tryFecFill copyEnv clock cache F.fecSetIndex).1.pending[F.fecSetIndex + p]? =
            some ps ∧
          ∀ buf, ps.payload = (F.dataArgs buf p).shred.payload ∧
            ps.batchComplete = (F.dataArgs buf p).shred.batchComplete ∧
            ps.fecSetIndex = (F.dataArgs buf p).shred.fecSetIndex := by
  intro h
  have hheld := held_awaiting slotEnd Nat.one_pos
  have hcount := count_awaiting slotEnd le_rfl
  have hlast : ¬slotEnd.Stores (awaiting slotEnd) 0 := by
    intro hs
    exact absurd hs.2.2 (by decide)
  have henough : slotEnd.Enough (awaiting slotEnd) (slotEnd.record (.new slotEnd.fecSetIndex) 0) := by
    rw [Enough, slotEnd.counted_eq (by decide)]
    exact hcount
  obtain ⟨ps, hps, -⟩ := h slotEnd _ _ {} stillClock hheld valid_empty rfl hcount 0 Nat.one_pos
    (Nat.zero_le _) (not_mem_awaiting _ _)
  rw [hheld.tryFecFill_get (show copyEnv.reedSolomon.Rebuilds copyParity from copyCrate_rebuilds) rfl
    valid_empty stillClock
    (hheld.select_iff.mpr henough) Nat.one_pos, if_neg hlast] at hps
  exact not_mem_awaiting _ _ (BTreeMap.mem_iff_getElem? _ |>.mpr ⟨ps, hps⟩)

end ShredStream.FecSet
