import ShredStream.Wire.Variant

/-!
# The shred parser (`src/parser.rs`)
-/

namespace ShredStream

/-! ## Header layout (lines 3–21) -/

def variantOffset : ℕ := 0x40
def slotOffset : ℕ := 0x41
def indexOffset : ℕ := 0x49
def versionOffset : ℕ := 0x4D
def fecSetIndexOffset : ℕ := 0x4F
def dataParentOffset : ℕ := 0x53
def dataFlagsOffset : ℕ := 0x55
def dataSizeOffset : ℕ := 0x56
def dataHeaderSize : ℕ := 0x58

def codeNumDataOffset : ℕ := 0x53
def codeNumCodingOffset : ℕ := 0x55
def codePositionOffset : ℕ := 0x57
def codeHeaderSize : ℕ := 0x59

def dataComplete : UInt8 := 0b01000000
def lastInSlotMask : UInt8 := 0b11000000

def maxDataShredSize : ℕ := 1203

/-! ## Parsed shreds -/

/-- `DataShred` (lines 30–41). -/
structure DataShred where
  slot : ℕ
  index : ℕ
  version : ℕ
  fecSetIndex : ℕ
  parentOffset : ℕ
  payload : Bytes
  batchComplete : Bool
  lastInSlot : Bool
  variant : VariantKind
  rawLen : ℕ
  deriving DecidableEq, Repr

/-- `CodeShred` (lines 44–54). -/
structure CodeShred where
  slot : ℕ
  index : ℕ
  version : ℕ
  fecSetIndex : ℕ
  numDataShreds : ℕ
  numCodingShreds : ℕ
  position : ℕ
  coded : Bytes
  variant : VariantKind
  deriving DecidableEq, Repr

/-- `ShredKind` (lines 24–27). -/
inductive ShredKind
  | data (d : DataShred)
  | code (c : CodeShred)
  deriving DecidableEq, Repr

/-- `ParseError` (lines 66–70). -/
inductive ParseError
  | tooShort
  | unknownVariant
  | payloadInvalid
  deriving DecidableEq, Repr

/-! ## Field access -/

/-- `read_u16` (lines 73–77). -/
def readU16 (raw : Bytes) (offset : ℕ) : Option ℕ := (getRange raw offset (offset + 2)).map leNat

/-- `read_u32` (lines 80–84). -/
def readU32 (raw : Bytes) (offset : ℕ) : Option ℕ := (getRange raw offset (offset + 4)).map leNat

/-- `read_u64` (lines 87–91). -/
def readU64 (raw : Bytes) (offset : ℕ) : Option ℕ := (getRange raw offset (offset + 8)).map leNat

/-- `.ok_or(ParseError::PayloadInvalid)?`. -/
def orInvalid {α : Type} (o : Option α) : Except ParseError α :=
  match o with
  | some a => .ok a
  | none => .error .payloadInvalid

/-- `flags & DATA_COMPLETE != 0`. -/
def isBatchComplete (flags : UInt8) : Bool := flags &&& dataComplete != 0

/-- `flags & LAST_IN_SLOT == LAST_IN_SLOT`. -/
def isLastInSlot (flags : UInt8) : Bool := flags &&& lastInSlotMask == lastInSlotMask

/-- The payload of a data shred whose size field is `size`. -/
def dataPayload (raw : Bytes) (size : ℕ) : Except ParseError Bytes :=
  if size > dataHeaderSize then orInvalid (getRange raw dataHeaderSize size) else .ok []

/-! ## Parsing -/

/-- `parse_data_legacy_fallback` (lines 192–219). -/
def parseDataLegacyFallback (raw : Bytes) (slot index : ℕ) : Except ParseError ShredKind := do
  let flags ← orInvalid raw[dataFlagsOffset]?
  let size ← orInvalid (readU16 raw dataSizeOffset)
  if size > raw.length then throw .payloadInvalid
  let payload ← dataPayload raw size
  return .data {
    slot, index, version := 0, fecSetIndex := index, parentOffset := 0, payload
    batchComplete := isBatchComplete flags
    lastInSlot := isLastInSlot flags
    variant := .dataLegacy
    rawLen := raw.length }

/-- `parse_data_with_kind` (lines 116–153). -/
def parseDataWithKind (raw : Bytes) (slot index version fecSetIndex : ℕ) (variant : VariantKind) :
    Except ParseError ShredKind :=
  if fecSetIndex > index then parseDataLegacyFallback raw slot index
  else do
    let parentOffset ← orInvalid (readU16 raw dataParentOffset)
    let flags ← orInvalid raw[dataFlagsOffset]?
    let size ← orInvalid (readU16 raw dataSizeOffset)
    if size > maxDataShredSize then parseDataLegacyFallback raw slot index
    else do
      if size > raw.length then throw .payloadInvalid
      let payload ← dataPayload raw size
      return .data {
        slot, index, version, fecSetIndex, parentOffset, payload
        batchComplete := isBatchComplete flags
        lastInSlot := isLastInSlot flags
        variant
        rawLen := raw.length }

/-- `parse_code_with_kind` (lines 155–190). -/
def parseCodeWithKind (raw : Bytes) (slot index version fecSetIndex : ℕ) (variant : VariantKind) :
    Except ParseError ShredKind := do
  if raw.length < codeHeaderSize then throw .tooShort
  let numDataShreds ← orInvalid (readU16 raw codeNumDataOffset)
  let numCodingShreds ← orInvalid (readU16 raw codeNumCodingOffset)
  let position ← orInvalid (readU16 raw codePositionOffset)
  if numDataShreds = 0 ∨ numCodingShreds = 0 ∨ position ≥ numCodingShreds then
    throw .payloadInvalid
  let suffix := variant.merkleSuffix
  if suffix ≥ raw.length then throw .payloadInvalid
  let codedEnd := raw.length - suffix
  let coded ← orInvalid (getRange raw 0 codedEnd)
  return .code {
    slot, index, version, fecSetIndex, numDataShreds, numCodingShreds, position, coded, variant }

/-- `parse_kind` (lines 94–114). -/
def parseKind (raw : Bytes) : Except ParseError ShredKind := do
  if raw.length < dataHeaderSize then throw .tooShort
  let variantByte ← orInvalid raw[variantOffset]?
  let slot ← orInvalid (readU64 raw slotOffset)
  let index ← orInvalid (readU32 raw indexOffset)
  let version ← orInvalid (readU16 raw versionOffset)
  let fecSetIndex ← orInvalid (readU32 raw fecSetIndexOffset)
  let legacy : Except ParseError ShredKind :=
    match parseDataLegacyFallback raw slot index with
    | .ok k => .ok k
    | .error _ => .error .unknownVariant
  match classifyVariant variantByte with
  | some kind =>
    if kind.isData then parseDataWithKind raw slot index version fecSetIndex kind
    else if kind.isCode then parseCodeWithKind raw slot index version fecSetIndex kind
    else legacy
  | none => legacy

end ShredStream
