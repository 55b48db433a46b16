import ShredStream.Wire.Parser

/-!
# The packet format

Specification: a packet is a common header (`CommonHeader.bytes`) followed by the
fields of a data shred (`dataPacket`) or of a code shred (`codePacket`) and a
body. `Encodes kind raw` says that the packet `raw` stands for the shred `kind`.

Main results:

* `classifyVariant_iff`: the variant byte and the variant determine each other.
* `parseKind_iff`: the parser accepts exactly the packets of the format, and
  returns the shred they stand for; which error each other packet gets.
-/

namespace ShredStream

/-! ## Little-endian integers -/

@[simp] theorem length_leBytes (n x : ℕ) : (leBytes n x).length = n := by
  induction n generalizing x with
  | zero => rfl
  | succ n ih => rw [leBytes, List.length_cons, ih]

theorem leNat_leBytes {n x : ℕ} (h : x < 256 ^ n) : leNat (leBytes n x) = x := by
  induction n generalizing x with
  | zero =>
    have hx : x = 0 := by simpa using h
    rw [hx, leBytes, leNat]
  | succ n ih =>
    have hhigh : x / 256 < 256 ^ n := by
      rw [pow_succ] at h
      omega
    have hlow : (UInt8.ofNat (x % 256)).toNat = x % 256 := by simp
    rw [leBytes, leNat, ih hhigh, hlow]
    omega

theorem leBytes_leNat (bs : Bytes) : leBytes bs.length (leNat bs) = bs := by
  induction bs with
  | nil => rfl
  | cons b bs ih =>
    have hb : b.toNat < 256 := b.toNat_lt
    have hlow : (b.toNat + 256 * leNat bs) % 256 = b.toNat := by omega
    have hhigh : (b.toNat + 256 * leNat bs) / 256 = leNat bs := by omega
    rw [List.length_cons, leNat, leBytes, hlow, hhigh, ih, UInt8.ofNat_toNat]

/-- A byte string begins with the encoding of a number that fits. -/
theorem exists_leBytes {raw : Bytes} {n : ℕ} (h : n ≤ raw.length) :
    ∃ x rest, x < 256 ^ n ∧ raw = leBytes n x ++ rest := by
  refine ⟨leNat (raw.take n), raw.drop n, ?_, ?_⟩
  · have hlt := leNat_lt (raw.take n)
    rwa [List.length_take_of_le h] at hlt
  · have henc := leBytes_leNat (raw.take n)
    rw [List.length_take_of_le h] at henc
    rw [henc, List.take_append_drop]

/-! ## Reading fields -/

/-- Reading behind a prefix. -/
theorem getRange_append_right {pre post : Bytes} {a b : ℕ} (h : pre.length ≤ a) (hab : a ≤ b) :
    getRange (pre ++ post) a b = getRange post (a - pre.length) (b - pre.length) := by
  by_cases hb : b ≤ pre.length + post.length
  · rw [getRange_of_le hab (by simpa using hb), getRange_of_le (by omega) (by omega),
      List.take_append, List.take_of_length_le (by omega), List.drop_append,
      List.drop_eq_nil_of_le h, List.nil_append]
  · unfold getRange
    rw [if_neg (by rw [List.length_append]; omega), if_neg (by omega)]

/-- A little-endian field of `n` bytes at its offset. -/
theorem readField {n x a : ℕ} {pre post : Bytes} (ha : pre.length = a) (h : x < 256 ^ n) :
    (getRange (pre ++ (leBytes n x ++ post)) a (a + n)).map leNat = some x := by
  rw [getRange_append_right ha.le (by omega), ha, Nat.sub_self, Nat.add_sub_cancel_left,
    getRange_of_le (Nat.zero_le n) (by simp), List.drop_zero,
    List.take_left' (length_leBytes n x), Option.map_some, leNat_leBytes h]

/-! ## Variants -/

namespace VariantKind

/-- `VariantKind::proof_size` (lines 40–47 of `src/variant.rs`). -/
def proofSize : VariantKind → ℕ
  | dataMerkle proofSize _ | codeMerkle proofSize _ => proofSize
  | dataLegacy | codeLegacy => 0

/-- Specification: the byte that stands for a variant. -/
def byte : VariantKind → UInt8
  | dataLegacy => 0xA5
  | codeLegacy => 0x5A
  | codeMerkle proofSize resigned => (if resigned then 0x70 else 0x60) + UInt8.ofNat proofSize
  | dataMerkle proofSize resigned => (if resigned then 0xB0 else 0x90) + UInt8.ofNat proofSize

end VariantKind

theorem classifyVariant_byte {kind : VariantKind} (h : kind.proofSize < 16) :
    classifyVariant kind.byte = some kind := by
  have hmerkle : ∀ p < 16, ∀ r, classifyVariant (VariantKind.dataMerkle p r).byte =
        some (.dataMerkle p r) ∧
      classifyVariant (VariantKind.codeMerkle p r).byte = some (.codeMerkle p r) := by
    decide
  cases kind with
  | dataLegacy => rfl
  | codeLegacy => rfl
  | dataMerkle p r => exact (hmerkle p h r).1
  | codeMerkle p r => exact (hmerkle p h r).2

/-- The byte and the variant determine each other. -/
theorem classifyVariant_iff {b : UInt8} {kind : VariantKind} :
    classifyVariant b = some kind ↔ kind.proofSize < 16 ∧ kind.byte = b := by
  refine ⟨fun h => ?_, fun ⟨h, hb⟩ => hb ▸ classifyVariant_byte h⟩
  have hall : ∀ i : Fin 256, ∀ kind ∈ classifyVariant (UInt8.ofNat i.val),
      kind.proofSize < 16 ∧ kind.byte = UInt8.ofNat i.val := by
    decide +kernel
  have hb := hall ⟨b.toNat, b.toNat_lt⟩
  rw [UInt8.ofNat_toNat] at hb
  exact hb kind h

/-! ## Packets -/

/-- What every packet begins with, but for the variant byte. -/
structure CommonHeader where
  signature : Bytes
  slot : ℕ
  index : ℕ
  version : ℕ
  fecSetIndex : ℕ

/-- The fields fit into their bytes. -/
structure CommonHeader.Valid (h : CommonHeader) : Prop where
  signature : h.signature.length = variantOffset
  slot : h.slot < 256 ^ 8
  index : h.index < 256 ^ 4
  version : h.version < 256 ^ 2
  fecSetIndex : h.fecSetIndex < 256 ^ 4

/-- The header with the variant byte `b`. -/
def CommonHeader.bytes (h : CommonHeader) (b : UInt8) : Bytes :=
  h.signature ++ ([b] ++ (leBytes 8 h.slot ++ (leBytes 4 h.index ++
    (leBytes 2 h.version ++ leBytes 4 h.fecSetIndex))))

/-- A packet with the fields of a data shred. -/
def dataPacket (h : CommonHeader) (b : UInt8) (parentOffset : ℕ) (flags : UInt8) (size : ℕ)
    (body : Bytes) : Bytes :=
  h.bytes b ++ (leBytes 2 parentOffset ++ ([flags] ++ (leBytes 2 size ++ body)))

/-- A packet with the fields of a code shred. -/
def codePacket (h : CommonHeader) (b : UInt8) (numData numCoding position : ℕ) (body : Bytes) :
    Bytes :=
  h.bytes b ++ (leBytes 2 numData ++ (leBytes 2 numCoding ++ (leBytes 2 position ++ body)))

variable {h : CommonHeader} {b flags : UInt8} {rest body : Bytes}
  {parentOffset size numData numCoding position slot index version fecSetIndex : ℕ}
  {variant : VariantKind}

theorem CommonHeader.Valid.length_bytes (hv : h.Valid) (b : UInt8) :
    (h.bytes b).length = dataParentOffset := by
  simp [CommonHeader.bytes, hv.signature, variantOffset, dataParentOffset]

theorem length_dataPacket (hv : h.Valid) :
    (dataPacket h b parentOffset flags size body).length = dataHeaderSize + body.length := by
  rw [dataPacket, List.length_append, hv.length_bytes]
  simp [dataParentOffset, dataHeaderSize]
  omega

theorem length_codePacket (hv : h.Valid) :
    (codePacket h b numData numCoding position body).length = codeHeaderSize + body.length := by
  rw [codePacket, List.length_append, hv.length_bytes]
  simp [dataParentOffset, codeHeaderSize]
  omega

/-- Every byte string that is long enough begins with a header. -/
theorem exists_header {raw : Bytes} (hlen : dataParentOffset ≤ raw.length) :
    ∃ h b rest, CommonHeader.Valid h ∧ raw = h.bytes b ++ rest := by
  unfold dataParentOffset at hlen
  obtain ⟨b, r₁, hb⟩ : ∃ b r₁, raw.drop variantOffset = b :: r₁ :=
    List.exists_cons_of_length_pos (by rw [List.length_drop, variantOffset]; omega)
  have hr₁ : raw.length = variantOffset + (r₁.length + 1) := by
    have := congrArg List.length hb
    rw [List.length_drop, List.length_cons, variantOffset] at this
    rw [variantOffset]
    omega
  rw [variantOffset] at hr₁
  obtain ⟨slot, r₂, hslot, rfl⟩ := exists_leBytes (show 8 ≤ r₁.length by omega)
  simp only [List.length_append, length_leBytes] at hr₁
  obtain ⟨index, r₃, hindex, rfl⟩ := exists_leBytes (show 4 ≤ r₂.length by omega)
  simp only [List.length_append, length_leBytes] at hr₁
  obtain ⟨version, r₄, hversion, rfl⟩ := exists_leBytes (show 2 ≤ r₃.length by omega)
  simp only [List.length_append, length_leBytes] at hr₁
  obtain ⟨fecSetIndex, rest, hfec, rfl⟩ := exists_leBytes (show 4 ≤ r₄.length by omega)
  refine ⟨⟨raw.take variantOffset, slot, index, version, fecSetIndex⟩, b, rest,
    ⟨?_, hslot, hindex, hversion, hfec⟩, ?_⟩
  · exact List.length_take_of_le (by rw [variantOffset]; omega)
  · calc raw = raw.take variantOffset ++ raw.drop variantOffset :=
          (List.take_append_drop _ _).symm
      _ = _ := by
        rw [hb]
        simp [CommonHeader.bytes]

/-- A packet read as a data packet. -/
theorem exists_dataPacket (hv : h.Valid) (hlen : dataHeaderSize ≤ (h.bytes b ++ rest).length) :
    ∃ parentOffset flags size body, parentOffset < 256 ^ 2 ∧ size < 256 ^ 2 ∧
      h.bytes b ++ rest = dataPacket h b parentOffset flags size body := by
  rw [List.length_append, hv.length_bytes, dataParentOffset, dataHeaderSize] at hlen
  obtain ⟨parentOffset, r₁, hparent, rfl⟩ := exists_leBytes (show 2 ≤ rest.length by omega)
  simp only [List.length_append, length_leBytes] at hlen
  obtain ⟨flags, r₂, rfl⟩ := List.exists_cons_of_length_pos (show 0 < r₁.length by omega)
  rw [List.length_cons] at hlen
  obtain ⟨size, body, hsize, rfl⟩ := exists_leBytes (show 2 ≤ r₂.length by omega)
  exact ⟨parentOffset, flags, size, body, hparent, hsize, rfl⟩

/-- A packet read as a code packet. -/
theorem exists_codePacket (hv : h.Valid) (hlen : codeHeaderSize ≤ (h.bytes b ++ rest).length) :
    ∃ numData numCoding position body, numData < 256 ^ 2 ∧ numCoding < 256 ^ 2 ∧
      position < 256 ^ 2 ∧ h.bytes b ++ rest = codePacket h b numData numCoding position body := by
  rw [List.length_append, hv.length_bytes, dataParentOffset, codeHeaderSize] at hlen
  obtain ⟨numData, r₁, hdata, rfl⟩ := exists_leBytes (show 2 ≤ rest.length by omega)
  simp only [List.length_append, length_leBytes] at hlen
  obtain ⟨numCoding, r₂, hcoding, rfl⟩ := exists_leBytes (show 2 ≤ r₁.length by omega)
  simp only [List.length_append, length_leBytes] at hlen
  obtain ⟨position, body, hpos, rfl⟩ := exists_leBytes (show 2 ≤ r₂.length by omega)
  exact ⟨numData, numCoding, position, body, hdata, hcoding, hpos, rfl⟩

/-! ## What the parser reads -/

theorem readSlot (hv : h.Valid) : readU64 (h.bytes b ++ rest) slotOffset = some h.slot := by
  have hshape : h.bytes b ++ rest = (h.signature ++ [b]) ++ (leBytes 8 h.slot ++
      (leBytes 4 h.index ++ (leBytes 2 h.version ++ leBytes 4 h.fecSetIndex) ++ rest)) := by
    simp [CommonHeader.bytes]
  rw [hshape]
  exact readField (by simp [hv.signature, variantOffset, slotOffset]) hv.slot

theorem readIndex (hv : h.Valid) : readU32 (h.bytes b ++ rest) indexOffset = some h.index := by
  have hshape : h.bytes b ++ rest = (h.signature ++ ([b] ++ leBytes 8 h.slot)) ++
      (leBytes 4 h.index ++ ((leBytes 2 h.version ++ leBytes 4 h.fecSetIndex) ++ rest)) := by
    simp [CommonHeader.bytes]
  rw [hshape]
  exact readField (by simp [hv.signature, variantOffset, indexOffset]) hv.index

theorem readVersion (hv : h.Valid) :
    readU16 (h.bytes b ++ rest) versionOffset = some h.version := by
  have hshape : h.bytes b ++ rest = (h.signature ++ ([b] ++ (leBytes 8 h.slot ++
      leBytes 4 h.index))) ++ (leBytes 2 h.version ++ (leBytes 4 h.fecSetIndex ++ rest)) := by
    simp [CommonHeader.bytes]
  rw [hshape]
  exact readField (by simp [hv.signature, variantOffset, versionOffset]) hv.version

theorem readFecSetIndex (hv : h.Valid) :
    readU32 (h.bytes b ++ rest) fecSetIndexOffset = some h.fecSetIndex := by
  have hshape : h.bytes b ++ rest = (h.signature ++ ([b] ++ (leBytes 8 h.slot ++
      (leBytes 4 h.index ++ leBytes 2 h.version)))) ++ (leBytes 4 h.fecSetIndex ++ rest) := by
    simp [CommonHeader.bytes]
  rw [hshape]
  exact readField (by simp [hv.signature, variantOffset, fecSetIndexOffset]) hv.fecSetIndex

theorem readVariantByte (hv : h.Valid) : (h.bytes b ++ rest)[variantOffset]? = some b := by
  rw [CommonHeader.bytes, List.append_assoc, List.getElem?_append_right hv.signature.le,
    hv.signature, Nat.sub_self]
  rfl

section Dispatch

variable (hv : h.Valid) (hlen : dataHeaderSize ≤ (h.bytes b ++ rest).length)

include hv hlen

theorem parseKind_data (hb : classifyVariant b = some variant) (hdata : variant.isData) :
    parseKind (h.bytes b ++ rest) =
      parseDataWithKind (h.bytes b ++ rest) h.slot h.index h.version h.fecSetIndex variant := by
  unfold parseKind
  rw [if_neg (by omega), readVariantByte hv, readSlot hv, readIndex hv, readVersion hv,
    readFecSetIndex hv]
  simp [orInvalid, hb, hdata, bind, Except.bind]

theorem parseKind_code (hb : classifyVariant b = some variant) (hcode : variant.isCode) :
    parseKind (h.bytes b ++ rest) =
      parseCodeWithKind (h.bytes b ++ rest) h.slot h.index h.version h.fecSetIndex variant := by
  have hdata : variant.isData = false := by
    cases variant <;> first | rfl | cases hcode
  unfold parseKind
  rw [if_neg (by omega), readVariantByte hv, readSlot hv, readIndex hv, readVersion hv,
    readFecSetIndex hv]
  simp [orInvalid, hb, hdata, hcode, bind, Except.bind]

theorem parseKind_unknown (hb : classifyVariant b = none) :
    parseKind (h.bytes b ++ rest) =
      (parseDataLegacyFallback (h.bytes b ++ rest) h.slot h.index).mapError
        fun _ => .unknownVariant := by
  unfold parseKind
  rw [if_neg (by omega), readVariantByte hv, readSlot hv, readIndex hv, readVersion hv,
    readFecSetIndex hv]
  simp only [orInvalid, hb, bind, Except.bind]
  cases parseDataLegacyFallback (h.bytes b ++ rest) h.slot h.index <;> rfl

end Dispatch

/-! ## Data shreds -/

section Data

variable (hv : h.Valid) (hparent : parentOffset < 256 ^ 2) (hsize : size < 256 ^ 2)

include hv

theorem readParentOffset (hparent : parentOffset < 256 ^ 2) :
    readU16 (dataPacket h b parentOffset flags size body) dataParentOffset =
      some parentOffset :=
  readField (hv.length_bytes b) hparent

theorem readFlags :
    (dataPacket h b parentOffset flags size body)[dataFlagsOffset]? = some flags := by
  have hshape : dataPacket h b parentOffset flags size body =
      (h.bytes b ++ leBytes 2 parentOffset) ++ ([flags] ++ (leBytes 2 size ++ body)) := by
    simp [dataPacket]
  have hlen : (h.bytes b ++ leBytes 2 parentOffset).length = dataFlagsOffset := by
    simp [hv.length_bytes, dataParentOffset, dataFlagsOffset]
  rw [hshape, List.getElem?_append_right hlen.le, hlen, Nat.sub_self]
  rfl

theorem readSize (hsize : size < 256 ^ 2) :
    readU16 (dataPacket h b parentOffset flags size body) dataSizeOffset = some size := by
  have hshape : dataPacket h b parentOffset flags size body =
      (h.bytes b ++ (leBytes 2 parentOffset ++ [flags])) ++ (leBytes 2 size ++ body) := by
    simp [dataPacket]
  rw [hshape]
  exact readField (by simp [hv.length_bytes, dataParentOffset, dataSizeOffset]) hsize

theorem dataPayload_dataPacket (hfits : size ≤ dataHeaderSize + body.length) :
    dataPayload (dataPacket h b parentOffset flags size body) size =
      .ok (body.take (size - dataHeaderSize)) := by
  have hshape : dataPacket h b parentOffset flags size body =
      (h.bytes b ++ (leBytes 2 parentOffset ++ ([flags] ++ leBytes 2 size))) ++ body := by
    simp [dataPacket]
  have hlen : (h.bytes b ++ (leBytes 2 parentOffset ++ ([flags] ++ leBytes 2 size))).length =
      dataHeaderSize := by
    simp [hv.length_bytes, dataParentOffset, dataHeaderSize]
  unfold dataPayload
  split_ifs with hbig
  · rw [hshape, getRange_append_right hlen.le hbig.le, hlen, Nat.sub_self,
      getRange_of_le (Nat.zero_le _) (by omega)]
    rfl
  · rw [Nat.sub_eq_zero_of_le (by omega), List.take_zero]

/-- The shred that the fallback makes of a packet. -/
def fallbackShred (h : CommonHeader) (flags : UInt8) (size : ℕ) (body : Bytes) : DataShred where
  slot := h.slot
  index := h.index
  version := 0
  fecSetIndex := h.index
  parentOffset := 0
  payload := body.take (size - dataHeaderSize)
  batchComplete := isBatchComplete flags
  lastInSlot := isLastInSlot flags
  variant := .dataLegacy
  rawLen := dataHeaderSize + body.length

/-- The shred of a packet whose fields are plausible. -/
def dataShredOf (h : CommonHeader) (variant : VariantKind) (parentOffset : ℕ) (flags : UInt8)
    (size : ℕ) (body : Bytes) : DataShred where
  slot := h.slot
  index := h.index
  version := h.version
  fecSetIndex := h.fecSetIndex
  parentOffset
  payload := body.take (size - dataHeaderSize)
  batchComplete := isBatchComplete flags
  lastInSlot := isLastInSlot flags
  variant
  rawLen := dataHeaderSize + body.length

theorem parseDataLegacyFallback_dataPacket (hsize : size < 256 ^ 2) :
    parseDataLegacyFallback (dataPacket h b parentOffset flags size body) h.slot h.index =
      if size > dataHeaderSize + body.length then .error .payloadInvalid
      else .ok (.data (fallbackShred h flags size body)) := by
  unfold parseDataLegacyFallback
  rw [readFlags hv, readSize hv hsize, length_dataPacket hv]
  split_ifs with hbig
  · simp [orInvalid, hbig, bind, Except.bind, throw, throwThe, MonadExceptOf.throw]
  · simp [orInvalid, hbig, dataPayload_dataPacket hv (not_lt.mp hbig), bind, Except.bind, pure,
      Except.pure, fallbackShred]

theorem parseDataWithKind_dataPacket (hparent : parentOffset < 256 ^ 2) (hsize : size < 256 ^ 2) :
    parseDataWithKind (dataPacket h b parentOffset flags size body) h.slot h.index h.version
        h.fecSetIndex variant =
      if size > dataHeaderSize + body.length then .error .payloadInvalid
      else if h.fecSetIndex > h.index ∨ size > maxDataShredSize then
        .ok (.data (fallbackShred h flags size body))
      else .ok (.data (dataShredOf h variant parentOffset flags size body)) := by
  unfold parseDataWithKind
  rw [readParentOffset hv hparent, readFlags hv, readSize hv hsize, length_dataPacket hv,
    parseDataLegacyFallback_dataPacket hv hsize]
  by_cases hfec : h.fecSetIndex > h.index
  · simp [hfec]
  · by_cases hmax : size > maxDataShredSize
    · simp [orInvalid, hfec, hmax, bind, Except.bind]
    · by_cases hbig : size > dataHeaderSize + body.length
      · simp [orInvalid, hfec, hmax, hbig, bind, Except.bind, throw, throwThe,
          MonadExceptOf.throw]
      · simp [orInvalid, hfec, hmax, hbig, dataPayload_dataPacket hv (not_lt.mp hbig), bind,
          Except.bind, pure, Except.pure, dataShredOf]

end Data

/-! ## Code shreds -/

/-- The shred of a code packet, whose coded part ends before the Merkle suffix. -/
def codeShredOf (h : CommonHeader) (variant : VariantKind) (numData numCoding position : ℕ)
    (coded : Bytes) : CodeShred where
  slot := h.slot
  index := h.index
  version := h.version
  fecSetIndex := h.fecSetIndex
  numDataShreds := numData
  numCodingShreds := numCoding
  position
  coded
  variant

/-- The counts that a code packet may carry, and the room its Merkle suffix needs. -/
def PlausibleCode (variant : VariantKind) (numData numCoding position : ℕ) (raw : Bytes) : Prop :=
  numData ≠ 0 ∧ position < numCoding ∧ variant.merkleSuffix < raw.length

instance (variant : VariantKind) (numData numCoding position : ℕ) (raw : Bytes) :
    Decidable (PlausibleCode variant numData numCoding position raw) :=
  inferInstanceAs (Decidable (_ ∧ _))

theorem parseCodeWithKind_codePacket {raw : Bytes} (hv : h.Valid) (hdata : numData < 256 ^ 2)
    (hcoding : numCoding < 256 ^ 2) (hposition : position < 256 ^ 2)
    (hraw : raw = codePacket h b numData numCoding position body) :
    parseCodeWithKind raw h.slot h.index h.version h.fecSetIndex variant =
      if PlausibleCode variant numData numCoding position raw then
        .ok (.code (codeShredOf h variant numData numCoding position
          (raw.take (raw.length - variant.merkleSuffix))))
      else .error .payloadInvalid := by
  have hlen : ¬raw.length < codeHeaderSize := by
    rw [hraw, length_codePacket hv]
    omega
  have hreadData : readU16 raw codeNumDataOffset = some numData := by
    rw [hraw]
    exact readField (hv.length_bytes b) hdata
  have hreadCoding : readU16 raw codeNumCodingOffset = some numCoding := by
    have hshape : raw = (h.bytes b ++ leBytes 2 numData) ++
        (leBytes 2 numCoding ++ (leBytes 2 position ++ body)) := by
      rw [hraw]
      simp [codePacket]
    rw [hshape]
    exact readField (by simp [hv.length_bytes, dataParentOffset, codeNumCodingOffset]) hcoding
  have hreadPosition : readU16 raw codePositionOffset = some position := by
    have hshape : raw = (h.bytes b ++ (leBytes 2 numData ++ leBytes 2 numCoding)) ++
        (leBytes 2 position ++ body) := by
      rw [hraw]
      simp [codePacket]
    rw [hshape]
    exact readField (by simp [hv.length_bytes, dataParentOffset, codePositionOffset]) hposition
  have hcoded : getRange raw 0 (raw.length - variant.merkleSuffix) =
      some (raw.take (raw.length - variant.merkleSuffix)) := by
    rw [getRange_of_le (Nat.zero_le _) (Nat.sub_le _ _), List.drop_zero]
  unfold parseCodeWithKind
  rw [hreadData, hreadCoding, hreadPosition]
  by_cases hcounts : numData = 0 ∨ numCoding = 0 ∨ position ≥ numCoding
  · have hbad : ¬PlausibleCode variant numData numCoding position raw := by
      rintro ⟨h₁, h₂, -⟩
      omega
    simp [orInvalid, hlen, hcounts, hbad, bind, Except.bind, throw, throwThe,
      MonadExceptOf.throw]
  · by_cases hsuffix : variant.merkleSuffix ≥ raw.length
    · have hbad : ¬PlausibleCode variant numData numCoding position raw := by
        rintro ⟨-, -, h₃⟩
        omega
      simp [orInvalid, hlen, hcounts, hsuffix, hbad, bind, Except.bind, throw, throwThe,
        MonadExceptOf.throw]
    · have hgood : PlausibleCode variant numData numCoding position raw :=
        ⟨by omega, by omega, by omega⟩
      simp [orInvalid, hlen, hcounts, hsuffix, hgood, hcoded, bind, Except.bind, pure, Except.pure,
        codeShredOf]

/-! ## The format -/

/-- The packet cannot be read as a shred of the variant it names, because it names
    none, or because it is a data shred before its own FEC set or above the size
    limit. -/
def NeedsFallback (h : CommonHeader) (b : UInt8) (size : ℕ) : Prop :=
  classifyVariant b = none ∨
    (∃ variant ∈ classifyVariant b, variant.isData) ∧
      (h.fecSetIndex > h.index ∨ size > maxDataShredSize)

/-- Specification: the packets that stand for a shred. -/
inductive Encodes : ShredKind → Bytes → Prop
  | data {h : CommonHeader} {variant : VariantKind} {parentOffset size : ℕ} {flags : UInt8}
      {body : Bytes} : h.Valid → variant.isData → variant.proofSize < 16 →
      parentOffset < 256 ^ 2 → h.fecSetIndex ≤ h.index → size ≤ maxDataShredSize →
      size ≤ dataHeaderSize + body.length →
      Encodes (.data (dataShredOf h variant parentOffset flags size body))
        (dataPacket h variant.byte parentOffset flags size body)
  | fallback {h : CommonHeader} {b flags : UInt8} {parentOffset size : ℕ} {body : Bytes} :
      h.Valid → parentOffset < 256 ^ 2 → size < 256 ^ 2 → NeedsFallback h b size →
      size ≤ dataHeaderSize + body.length →
      Encodes (.data (fallbackShred h flags size body))
        (dataPacket h b parentOffset flags size body)
  | code {h : CommonHeader} {variant : VariantKind} {numData numCoding position : ℕ}
      {body raw : Bytes} : h.Valid → variant.isCode → variant.proofSize < 16 →
      numData < 256 ^ 2 → numCoding < 256 ^ 2 → position < 256 ^ 2 →
      raw = codePacket h variant.byte numData numCoding position body →
      PlausibleCode variant numData numCoding position raw →
      Encodes (.code (codeShredOf h variant numData numCoding position
        (raw.take (raw.length - variant.merkleSuffix)))) raw

/-- Specification: the packets that stand for none, with the reason. -/
inductive Rejects : ParseError → Bytes → Prop
  | tooShort {raw : Bytes} : raw.length < dataHeaderSize → Rejects .tooShort raw
  | codeTooShort {h : CommonHeader} {variant : VariantKind} {rest : Bytes} : h.Valid →
      variant.isCode → variant.proofSize < 16 →
      dataHeaderSize ≤ (h.bytes variant.byte ++ rest).length →
      (h.bytes variant.byte ++ rest).length < codeHeaderSize →
      Rejects .tooShort (h.bytes variant.byte ++ rest)
  | dataSize {h : CommonHeader} {variant : VariantKind} {parentOffset size : ℕ} {flags : UInt8}
      {body : Bytes} : h.Valid → variant.isData → variant.proofSize < 16 →
      parentOffset < 256 ^ 2 → size < 256 ^ 2 → size > dataHeaderSize + body.length →
      Rejects .payloadInvalid (dataPacket h variant.byte parentOffset flags size body)
  | unknownSize {h : CommonHeader} {b flags : UInt8} {parentOffset size : ℕ} {body : Bytes} :
      h.Valid → classifyVariant b = none → parentOffset < 256 ^ 2 → size < 256 ^ 2 →
      size > dataHeaderSize + body.length →
      Rejects .unknownVariant (dataPacket h b parentOffset flags size body)
  | code {h : CommonHeader} {variant : VariantKind} {numData numCoding position : ℕ}
      {body raw : Bytes} : h.Valid → variant.isCode → variant.proofSize < 16 →
      numData < 256 ^ 2 → numCoding < 256 ^ 2 → position < 256 ^ 2 →
      raw = codePacket h variant.byte numData numCoding position body →
      ¬PlausibleCode variant numData numCoding position raw → Rejects .payloadInvalid raw

theorem Encodes.parse {kind : ShredKind} {raw : Bytes} (he : Encodes kind raw) :
    parseKind raw = .ok kind := by
  cases he with
  | @data h variant parentOffset size flags body hv hdata hproof hparent hfec hmax hfits =>
    have hsize : size < 256 ^ 2 := by
      rw [maxDataShredSize] at hmax
      omega
    have hlen : dataHeaderSize ≤
        (dataPacket h variant.byte parentOffset flags size body).length := by
      rw [length_dataPacket hv]
      omega
    rw [dataPacket, parseKind_data hv hlen (classifyVariant_byte hproof) hdata]
    refine (parseDataWithKind_dataPacket hv hparent hsize).trans ?_
    rw [if_neg (by omega), if_neg (by omega)]
  | @fallback h b flags parentOffset size body hv hparent hsize hneeds hfits =>
    have hlen : dataHeaderSize ≤ (dataPacket h b parentOffset flags size body).length := by
      rw [length_dataPacket hv]
      omega
    rcases hneeds with hb | ⟨⟨variant, hb, hdata⟩, himplausible⟩
    · rw [dataPacket, parseKind_unknown hv hlen hb, ← dataPacket,
        parseDataLegacyFallback_dataPacket hv hsize, if_neg (by omega)]
      rfl
    · rw [dataPacket, parseKind_data hv hlen hb hdata]
      refine (parseDataWithKind_dataPacket hv hparent hsize).trans ?_
      rw [if_neg (by omega), if_pos himplausible]
  | @code h variant numData numCoding position body _ hv hcode hproof hdata hcoding hposition
      hraw hplausible =>
    have hlen : dataHeaderSize ≤ raw.length := by
      rw [hraw, length_codePacket hv, dataHeaderSize, codeHeaderSize]
      omega
    have hparse : parseKind raw =
        parseCodeWithKind raw h.slot h.index h.version h.fecSetIndex variant := by
      rw [hraw] at hlen ⊢
      exact parseKind_code hv hlen (classifyVariant_byte hproof) hcode
    rw [hparse, parseCodeWithKind_codePacket hv hdata hcoding hposition hraw, if_pos hplausible]

theorem Rejects.parse {e : ParseError} {raw : Bytes} (hr : Rejects e raw) :
    parseKind raw = .error e := by
  cases hr with
  | tooShort hshort =>
    unfold parseKind
    rw [if_pos hshort]
    rfl
  | @codeTooShort h variant rest hv hcode hproof hlen hshort =>
    rw [parseKind_code hv hlen (classifyVariant_byte hproof) hcode, parseCodeWithKind,
      if_pos hshort]
    rfl
  | @dataSize h variant parentOffset size flags body hv hdata hproof hparent hsize hbig =>
    have hlen : dataHeaderSize ≤
        (dataPacket h variant.byte parentOffset flags size body).length := by
      rw [length_dataPacket hv]
      omega
    rw [dataPacket, parseKind_data hv hlen (classifyVariant_byte hproof) hdata]
    refine (parseDataWithKind_dataPacket hv hparent hsize).trans ?_
    rw [if_pos hbig]
  | @unknownSize h b flags parentOffset size body hv hb hparent hsize hbig =>
    have hlen : dataHeaderSize ≤ (dataPacket h b parentOffset flags size body).length := by
      rw [length_dataPacket hv]
      omega
    rw [dataPacket, parseKind_unknown hv hlen hb, ← dataPacket,
      parseDataLegacyFallback_dataPacket hv hsize, if_pos hbig]
    rfl
  | @code h variant numData numCoding position body _ hv hcode hproof hdata hcoding hposition
      hraw himplausible =>
    have hlen : dataHeaderSize ≤ raw.length := by
      rw [hraw, length_codePacket hv, dataHeaderSize, codeHeaderSize]
      omega
    have hparse : parseKind raw =
        parseCodeWithKind raw h.slot h.index h.version h.fecSetIndex variant := by
      rw [hraw] at hlen ⊢
      exact parseKind_code hv hlen (classifyVariant_byte hproof) hcode
    rw [hparse, parseCodeWithKind_codePacket hv hdata hcoding hposition hraw, if_neg himplausible]

/-- Every byte string stands for a shred, or there is a reason why not. -/
theorem encodes_or_rejects (raw : Bytes) :
    (∃ kind, Encodes kind raw) ∨ ∃ e, Rejects e raw := by
  by_cases hshort : raw.length < dataHeaderSize
  · exact .inr ⟨_, .tooShort hshort⟩
  rw [not_lt] at hshort
  have hlen : dataParentOffset ≤ raw.length := by
    rw [dataParentOffset]
    rw [dataHeaderSize] at hshort
    omega
  obtain ⟨h, b, rest, hv, rfl⟩ := exists_header hlen
  cases hb : classifyVariant b with
  | none =>
    obtain ⟨parentOffset, flags, size, body, hparent, hsize, hraw⟩ := exists_dataPacket hv hshort
    rw [hraw]
    by_cases hbig : size > dataHeaderSize + body.length
    · exact .inr ⟨_, .unknownSize hv hb hparent hsize hbig⟩
    · exact .inl ⟨_, .fallback hv hparent hsize (.inl hb) (not_lt.mp hbig)⟩
  | some variant =>
    obtain ⟨hproof, rfl⟩ := classifyVariant_iff.mp hb
    by_cases hdata : variant.isData
    · obtain ⟨parentOffset, flags, size, body, hparent, hsize, hraw⟩ :=
        exists_dataPacket hv hshort
      rw [hraw]
      by_cases hbig : size > dataHeaderSize + body.length
      · exact .inr ⟨_, .dataSize hv hdata hproof hparent hsize hbig⟩
      rw [not_lt] at hbig
      by_cases himplausible : h.fecSetIndex > h.index ∨ size > maxDataShredSize
      · exact .inl ⟨_, .fallback hv hparent hsize (.inr ⟨⟨variant, hb, hdata⟩, himplausible⟩)
          hbig⟩
      · rw [not_or, not_lt, not_lt] at himplausible
        exact .inl ⟨_, .data hv hdata hproof hparent himplausible.1 himplausible.2 hbig⟩
    · have hcode : variant.isCode := by
        cases variant with
        | dataLegacy => exact absurd rfl hdata
        | dataMerkle => exact absurd rfl hdata
        | codeLegacy => rfl
        | codeMerkle => rfl
      by_cases hlong : codeHeaderSize ≤ (h.bytes variant.byte ++ rest).length
      · obtain ⟨numData, numCoding, position, body, h₁, h₂, h₃, hraw⟩ :=
          exists_codePacket hv hlong
        by_cases hplausible : PlausibleCode variant numData numCoding position
          (h.bytes variant.byte ++ rest)
        · exact .inl ⟨_, .code hv hcode hproof h₁ h₂ h₃ hraw hplausible⟩
        · exact .inr ⟨_, .code hv hcode hproof h₁ h₂ h₃ hraw hplausible⟩
      · exact .inr ⟨_, .codeTooShort hv hcode hproof hshort (not_le.mp hlong)⟩

/-- The parser accepts exactly the packets of the format and returns the shred that
    they stand for. It rejects all others, with the error that the format gives. -/
theorem parseKind_iff (raw : Bytes) :
    (∀ kind, parseKind raw = .ok kind ↔ Encodes kind raw) ∧
      ∀ e, parseKind raw = .error e ↔ Rejects e raw := by
  refine ⟨fun kind => ⟨fun hparse => ?_, Encodes.parse⟩,
    fun e => ⟨fun hparse => ?_, Rejects.parse⟩⟩
  · rcases encodes_or_rejects raw with ⟨kind', he⟩ | ⟨e, hr⟩
    · cases hparse.symm.trans he.parse
      exact he
    · cases hparse.symm.trans hr.parse
  · rcases encodes_or_rejects raw with ⟨kind, he⟩ | ⟨e', hr⟩
    · cases hparse.symm.trans he.parse
    · cases hparse.symm.trans hr.parse
      exact hr

end ShredStream
