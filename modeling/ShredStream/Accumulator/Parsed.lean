import ShredStream.Accumulator.Calls
import ShredStream.Accumulator.Recovered

/-!
# Shreds as the parser saw them

`Call.Made slot c`: the listener makes the call `c` on the accumulator of `slot`,
for a packet that `parse_kind` accepted. A shred that is stored, from a pool
buffer or recovered, holds a packet with which `payload_end` agrees
(`PendingShred.Holds`), so `payload()` gives what the parser found in it. The
accumulator keeps this (`Parsed`) through `push_data`'s insertion and
`try_fec_fill`.
-/

namespace ShredStream

/-- What `handle_packet_owned` hands to `push_data` (lines 413–421). -/
def DataShred.args (d : DataShred) (handle : BufferHandle) : SlotAccumulator.DataArgs where
  index := d.index
  fecSetIndex := d.fecSetIndex
  handle
  payloadEnd := asU16 (dataHeaderSize + d.payload.length)
  batchComplete := d.batchComplete
  lastInSlot := d.lastInSlot

/-- What it hands to `push_code` (lines 462–470). -/
def CodeShred.args (c : CodeShred) : SlotAccumulator.CodeArgs where
  fecSetIndex := c.fecSetIndex
  numData := c.numDataShreds
  numCoding := c.numCodingShreds
  position := c.position
  coded := c.coded
  variant := c.variant

/-- A call that the listener makes on the accumulator of `slot` for a packet. -/
inductive SlotAccumulator.Call.Made (slot : ℕ) : SlotAccumulator.Call → Prop
  | data {handle : BufferHandle} {d : DataShred} :
      parseKind handle.bytes = .ok (.data d) → handle.bytes.length ≤ bufSize → d.slot = slot →
      Made slot (.data (d.args handle))
  | code {raw : Bytes} {c : CodeShred} :
      parseKind raw = .ok (.code c) → raw.length ≤ bufSize → c.slot = slot →
      Made slot (.code c.args)

/-! ## Shreds -/

/-- The shred holds a packet that parses as `d`, and says so. -/
structure PendingShred.Holds (ps : PendingShred) (d : DataShred) : Prop where
  parse : parseKind ps.source.slice = .ok (.data d)
  length : ps.source.slice.length ≤ bufSize
  payloadEnd : ps.payloadEnd = asU16 (dataHeaderSize + d.payload.length)
  batchComplete : ps.batchComplete = d.batchComplete

theorem PendingShred.Holds.payload_eq {ps : PendingShred} {d : DataShred} (h : ps.Holds d) :
    ps.payload = some d.payload :=
  PendingShred.payload_of_parse h.parse h.length rfl h.payloadEnd

theorem DataShred.holds_args {d : DataShred} {handle : BufferHandle}
    (hparse : parseKind handle.bytes = .ok (.data d)) (hlen : handle.bytes.length ≤ bufSize) :
    (d.args handle).shred.Holds d :=
  ⟨hparse, hlen, rfl, rfl⟩

/-! ## Rebuilt packets -/

namespace FecSetBuffer

/-- A shard of the set fits into a data packet behind the signature. -/
def FitsPacket (fec : FecSetBuffer) : Prop :=
  sizeOfSignature + fec.shardSize ≤ dataShredPayloadLen

theorem fitsPacket_new (i : ℕ) : (new i).FitsPacket := by
  show 64 + 0 ≤ 1203
  decide

theorem FitsPacket.recordCode {fec : FecSetBuffer} (h : fec.FitsPacket)
    (position numData numCoding : ℕ) (raw : Bytes) (variant : VariantKind) :
    (fec.recordCode position numData numCoding raw variant).FitsPacket := by
  unfold FitsPacket FecSetBuffer.recordCode
  unfold FitsPacket at h
  simp only
  split_ifs with hzero
  · cases variant with
    | codeMerkle proofSize resigned =>
      simp only
      unfold ShredStream.shardSize codeShredPayloadLen sizeOfCodingShredHeaders sizeOfMerkleRoot
        sizeOfSignature dataShredPayloadLen
      omega
    | _ => exact h
  · exact h

theorem length_rebuildPacket {shard : Bytes} (h : sizeOfSignature + shard.length ≤ dataShredPayloadLen) :
    (rebuildPacket shard).length = dataShredPayloadLen := by
  unfold rebuildPacket
  simp only [List.length_append, List.length_replicate]
  omega

/-- Every packet `try_reconstruct` returns has the length of a data packet. -/
theorem length_of_tryReconstruct {C : Type} {rs : ReedSolomonCrate C} {fec : FecSetBuffer}
    (hfec : fec.FitsPacket) {dataShards : List (ℕ × Bytes)} {cache cache' : ReedSolomonCache C}
    {recovered : List (ℕ × Bytes)}
    (h : fec.tryReconstruct rs dataShards cache = (cache', some recovered)) :
    ∀ r ∈ recovered, r.2.length = dataShredPayloadLen := by
  intro r hr
  unfold tryReconstruct at h
  split_ifs at h
  · cases h
    cases hr
  split at h
  · simp only at h
    split_ifs at h
    · cases h
      cases hr
    split at h
    · cases h
    split at h
    · cases h
    · cases h
      obtain ⟨pos, -, hpos⟩ := List.mem_filterMap.mp hr
      split_ifs at hpos
      split at hpos
      · split_ifs at hpos with hlen
        cases hpos
        apply length_rebuildPacket
        rw [hlen]
        exact hfec
      · cases hpos
  · cases h
    cases hr

end FecSetBuffer

/-! ## Accumulators -/

namespace SlotAccumulator

/-- Every pending shred holds the packet it stands for, and what recovery could
    add would. -/
structure Parsed (acc : SlotAccumulator) : Prop where
  pending : ∀ (i : ℕ) (ps : PendingShred), acc.pending[i]? = some ps → ∃ d, ps.Holds d
  fecSets : ∀ (i : ℕ) (fec : FecSetBuffer), acc.fecSets[i]? = some fec → fec.FitsPacket

theorem parsed_withConfig (cfg : AccumulatorConfig) : (withConfig cfg).Parsed where
  pending i ps h := by simp [withConfig] at h
  fecSets i fec h := by simp [withConfig] at h

namespace Parsed

variable {C : Type} {acc : SlotAccumulator}

theorem payload (h : acc.Parsed) {i : ℕ} {ps : PendingShred} (hps : acc.pending[i]? = some ps) :
    ∃ payload, ps.payload = some payload := by
  obtain ⟨d, hd⟩ := h.pending i ps hps
  exact ⟨d.payload, hd.payload_eq⟩

/-- Storing a shred that holds its packet, received or recovered. -/
theorem store (h : acc.Parsed) (idx : ℕ) {ps : PendingShred} {d : DataShred} (hps : ps.Holds d)
    (boundaries : BTreeMap ℕ) : Parsed { acc with
      pending := acc.pending.insert idx ps, batchCompleteIndices := boundaries } where
  pending i ps' hps' := by
    rw [BTreeMap.getElem?_insert_eq] at hps'
    split_ifs at hps'
    · cases hps'
      exact ⟨d, hps⟩
    · exact h.pending i ps' hps'
  fecSets := h.fecSets

theorem insertData (h : acc.Parsed) (clock : Clock) {a : DataArgs} {d : DataShred}
    (ha : a.shred.Holds d) : (acc.insertData clock a).Parsed := h.store a.index ha _

theorem recordCode (h : acc.Parsed) (a : CodeArgs) : (acc.recordCode a).Parsed := by
  refine ⟨fun i ps hps => ?_, fun i fec hfec => ?_⟩
  · obtain ⟨fecSets, counters, heq, -⟩ := acc.recordCode_cases a
    rw [heq] at hps
    exact h.pending i ps hps
  · rcases acc.getElem?_recordCode hfec with ⟨-, hold⟩ | ⟨-, rfl⟩
    · exact h.fecSets i fec hold
    · apply FecSetBuffer.FitsPacket.recordCode
      cases hget : acc.fecSets[a.fecSetIndex]? with
      | none => exact FecSetBuffer.fitsPacket_new _
      | some fec => exact h.fecSets _ fec hget

theorem tryFecFill (env : Env C) (h : acc.Parsed) (clock : Clock) (cache : ReedSolomonCache C)
    (hint : ℕ) : (acc.tryFecFill env clock cache hint).1.Parsed := by
  apply tryFecFill_invariant env acc clock cache hint h
  · intro setIdx fec cache' recovered r acc₁ acc₂ hfec hrec hr h₁ hinserts
    have hlen := FecSetBuffer.length_of_tryReconstruct (h.fecSets setIdx fec hfec) hrec r hr
    cases hinserts with
    | skip => exact h₁
    | last => exact ⟨h₁.pending, h₁.fecSets⟩
    | @store d _ _ hparse =>
      have hfits : r.2.length ≤ bufSize := by
        rw [hlen]
        decide
      have hholds : PendingShred.Holds ⟨.recovered r.2, asU16 (dataHeaderSize + d.payload.length),
          d.batchComplete, setIdx⟩ d := ⟨hparse, hfits, rfl, rfl⟩
      exact h₁.store _ hholds _
  · exact fun _ _ h₁ => ⟨h₁.pending, h₁.fecSets⟩
  · intro acc₁ k h₁
    refine ⟨h₁.pending, fun i fec hfec => ?_⟩
    rw [BTreeMap.getElem?_erase_eq] at hfec
    split_ifs at hfec
    exact h₁.fecSets i fec hfec

theorem completeBatch (h : acc.Parsed) (bcIdx : ℕ) : (acc.completeBatch bcIdx).Parsed where
  pending i ps hps := h.pending i ps ((completeBatch_pending _).mp hps).1
  fecSets i fec hfec := h.fecSets i fec ((BTreeMap.getElem?_filter_eq _).mp hfec).1

theorem finalise (h : acc.Parsed) (txs : List VersionedTransaction) (counters : Counters)
    (bcIdx : ℕ) : (acc.finalise txs counters bcIdx).Parsed := by
  have hrecord : Parsed { acc.record txs with counters } := ⟨h.pending, h.fecSets⟩
  exact hrecord.completeBatch bcIdx

end Parsed

end SlotAccumulator

end ShredStream
