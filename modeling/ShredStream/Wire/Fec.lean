import ShredStream.Library.OrderedMap
import ShredStream.Wire.Variant

/-!
# FEC sets and the Reed-Solomon cache (`src/fec.rs`)

The `reed-solomon-erasure` crate is the parameter `ReedSolomonCrate`; the
model never looks inside a codec.
-/

namespace ShredStream

/-- `CACHE_CAPACITY` (line 7). -/
def cacheCapacity : ℕ := 32

def sizeOfSignature : ℕ := 64
def sizeOfCodingShredHeaders : ℕ := 89
def sizeOfMerkleRoot : ℕ := 32
def sizeOfMerkleProofEntry : ℕ := 20
def dataShredPayloadLen : ℕ := 1203
def codeShredPayloadLen : ℕ := 1228

/-- `shard_size` (lines 17–23). The parser only makes variants with
    `proof_size ≤ 15`, so the `usize` subtraction never underflows. -/
def shardSize (proofSize : ℕ) (resigned : Bool) : ℕ :=
  codeShredPayloadLen - sizeOfCodingShredHeaders - sizeOfMerkleRoot
    - proofSize * sizeOfMerkleProofEntry - (if resigned then sizeOfSignature else 0)

/-- `data_shard_slice` (lines 25–37). -/
def dataShardSlice (raw : Bytes) : VariantKind → Option Bytes
  | .dataMerkle proofSize resigned =>
    getRange raw sizeOfSignature (sizeOfSignature + shardSize proofSize resigned)
  | _ => none

/-- `code_shard_slice` (lines 39–51). -/
def codeShardSlice (raw : Bytes) : VariantKind → Option Bytes
  | .codeMerkle proofSize resigned =>
    getRange raw sizeOfCodingShredHeaders (sizeOfCodingShredHeaders + shardSize proofSize resigned)
  | _ => none

/-- `variant_as_data` (lines 223–234). -/
def variantAsData : VariantKind → VariantKind
  | .codeMerkle proofSize resigned => .dataMerkle proofSize resigned
  | other => other

/-! ## The crate and the cache -/

/-- What the code uses of `reed-solomon-erasure`. -/
structure ReedSolomonCrate (C : Type) where
  /-- `ReedSolomon::new(data, parity)`; `none` is `Err`. -/
  new : ℕ → ℕ → Option C
  /-- `ReedSolomon::reconstruct_data`; `none` is `Err`. -/
  reconstructData : C → List (Option Bytes) → Option (List (Option Bytes))

/-- `ReedSolomonCache` (lines 53–55). -/
structure ReedSolomonCache (C : Type) where
  entries : List ((ℕ × ℕ) × C) := []

/-- `Vec::swap_remove`: the last element takes the place of the removed one. -/
def swapRemove {α : Type} (l : List α) (i : ℕ) : List α :=
  match l.getLast? with
  | none => []
  | some last => (l.set i last).dropLast

variable {C : Type}

/-- `ReedSolomonCache::get_or_build` (lines 70–86). -/
def ReedSolomonCache.getOrBuild (rs : ReedSolomonCrate C) (cache : ReedSolomonCache C)
    (data coding : ℕ) : ReedSolomonCache C × Option C :=
  match cache.entries.zipIdx.find? fun e => e.1.1 = (data, coding) with
  | some (entry, pos) => ({ entries := swapRemove cache.entries pos ++ [entry] }, some entry.2)
  | none =>
    match rs.new data coding with
    | none => (cache, none)
    | some codec =>
      let entries :=
        if cache.entries.length ≥ cacheCapacity then cache.entries.eraseIdx 0 else cache.entries
      ({ entries := entries ++ [((data, coding), codec)] }, some codec)

/-! ## FEC sets -/

/-- `FecSetBuffer` (lines 89–97). -/
structure FecSetBuffer where
  fecSetIndex : ℕ
  numData : ℕ := 0
  numCoding : ℕ := 0
  shardSize : ℕ := 0
  variant : Option VariantKind := none
  code : BTreeMap Bytes := ∅

namespace FecSetBuffer

/-- `FecSetBuffer::new` (lines 100–109). -/
def new (fecSetIndex : ℕ) : FecSetBuffer := { fecSetIndex }

/-- `FecSetBuffer::record_code` (lines 111–138): the first code shred of the
    set fixes its geometry, the first one of a position its bytes. -/
def recordCode (fec : FecSetBuffer) (position numData numCoding : ℕ) (raw : Bytes)
    (variant : VariantKind) : FecSetBuffer :=
  { fec with
    numData := if fec.numData = 0 then numData else fec.numData
    numCoding := if fec.numCoding = 0 then numCoding else fec.numCoding
    variant := if fec.variant.isNone then some variant else fec.variant
    shardSize :=
      if fec.shardSize = 0 then
        match variant with
        | .codeMerkle proofSize resigned => ShredStream.shardSize proofSize resigned
        | _ => fec.shardSize
      else fec.shardSize
    code := fec.code.insertIfNew position raw }

/-- `FecSetBuffer::can_recover_with` (lines 140–142). -/
def canRecoverWith (fec : FecSetBuffer) (dataReceived : ℕ) : Bool :=
  fec.numData > 0 && dataReceived + fec.code.size ≥ fec.numData

/-- The shards taken from the recorded code packets (lines 170–180). -/
def placeCode (nd total shardLen : ℕ) (variant : VariantKind) (shards : List (Option Bytes)) :
    List (ℕ × Bytes) → List (Option Bytes)
  | [] => shards
  | (pos, raw) :: rest =>
    let idx := nd + pos
    let shards :=
      if idx ≥ total then shards
      else
        match codeShardSlice raw variant with
        | some s => if s.length = shardLen then shards.set idx (some s) else shards
        | none => shards
    placeCode nd total shardLen variant shards rest

/-- The shards taken from the data packets at hand (lines 182–192). -/
def placeData (nd shardLen : ℕ) (variant : VariantKind) (shards : List (Option Bytes)) :
    List (ℕ × Bytes) → List (Option Bytes)
  | [] => shards
  | (p, raw) :: rest =>
    let shards :=
      if p ≥ nd ∨ (shards[p]?.join).isSome then shards
      else
        match dataShardSlice raw (variantAsData variant) with
        | some s => if s.length = shardLen then shards.set p (some s) else shards
        | none => shards
    placeData nd shardLen variant shards rest

/-- A data packet of `DATA_SHRED_PAYLOAD_LEN` bytes, zero but for the shard
    (lines 215–216). -/
def rebuildPacket (shard : Bytes) : Bytes :=
  List.replicate sizeOfSignature 0 ++ shard ++
    List.replicate (dataShredPayloadLen - (sizeOfSignature + shard.length)) 0

/-- The packets of the data positions that were not supplied (lines 202–218). -/
def rebuiltPackets (nd shardLen : ℕ) (present : List ℕ) (shards : List (Option Bytes)) :
    List (ℕ × Bytes) :=
  (List.range nd).filterMap fun pos =>
    if pos ∈ present then none
    else
      match shards[pos]?.join with
      | some s => if s.length = shardLen then some (pos, rebuildPacket s) else none
      | none => none

/-- `FecSetBuffer::try_reconstruct` (lines 144–220); `none` is `Err`. -/
def tryReconstruct (rs : ReedSolomonCrate C) (fec : FecSetBuffer) (dataShards : List (ℕ × Bytes))
    (cache : ReedSolomonCache C) : ReedSolomonCache C × Option (List (ℕ × Bytes)) :=
  if fec.numData = 0 ∨ fec.shardSize = 0 then (cache, some [])
  else
    match fec.variant with
    | some (.codeMerkle proofSize resigned) =>
      let variant := .codeMerkle proofSize resigned
      let nd := fec.numData
      let nc := fec.numCoding
      let total := nd + nc
      let shardLen := fec.shardSize
      let shards := placeCode nd total shardLen variant (List.replicate total none) fec.code.toList
      let shards := placeData nd shardLen variant shards dataShards
      let have_ := (shards.filter Option.isSome).length
      if have_ < nd then (cache, some [])
      else
        match cache.getOrBuild rs nd nc with
        | (cache, none) => (cache, none)
        | (cache, some codec) =>
          match rs.reconstructData codec shards with
          | none => (cache, none)
          | some shards =>
            (cache, some (rebuiltPackets nd shardLen (dataShards.map Prod.fst) shards))
    | _ => (cache, some [])

theorem pos_lt_of_mem_rebuiltPackets {nd shardLen : ℕ} {present : List ℕ}
    {shards : List (Option Bytes)} {r : ℕ × Bytes}
    (h : r ∈ rebuiltPackets nd shardLen present shards) : r.1 < nd := by
  obtain ⟨pos, hpos, hr⟩ := List.mem_filterMap.mp h
  have hr1 : r.1 = pos := by
    split_ifs at hr
    split at hr
    · split_ifs at hr
      cases hr
      rfl
    · cases hr
  rw [hr1]
  exact List.mem_range.mp hpos

/-- Only data positions of the set are rebuilt. -/
theorem pos_lt_of_tryReconstruct {rs : ReedSolomonCrate C} {fec : FecSetBuffer}
    {dataShards : List (ℕ × Bytes)} {cache cache' : ReedSolomonCache C}
    {recovered : List (ℕ × Bytes)}
    (h : fec.tryReconstruct rs dataShards cache = (cache', some recovered)) :
    ∀ r ∈ recovered, r.1 < fec.numData := by
  intro r hr
  unfold tryReconstruct at h
  split_ifs at h
  · cases h
    cases hr
  split at h
  · simp only at h
    split_ifs at h
    · cases h
      cases hr
    · split at h
      · cases h
      · split at h
        · cases h
        · cases h
          exact pos_lt_of_mem_rebuiltPackets hr
  · cases h
    cases hr

end FecSetBuffer

end ShredStream
