import ShredStream.Wire.Fec
import ShredStream.Wire.Parser

/-!
# What Reed-Solomon recovery gives back

A `FecSet` is an honest FEC set: Merkle data packets, and code packets that
carry the parity of their bytes `[64, 64 + shard_size)`. `parity` stands for the
encoder of the crate, and `ReedSolomonCrate.Rebuilds` is what its decoder
promises.

* `FecSet.tryReconstruct_eq`: `try_reconstruct` returns exactly the positions
  that were not supplied, each as a zero-padded packet;
* `FecSet.parseKind_rebuilt`: such a packet is parsed like the one that was lost.
-/

namespace ShredStream

/-! ## The crate -/

variable {C : Type}

/-- What the code relies on: with `data` shards of one length and the codec of
    their geometry, `reconstruct_data` fills in the data shards when at least as
    many of all shards are there. -/
def ReedSolomonCrate.Rebuilds (rs : ReedSolomonCrate C)
    (parity : ℕ → ℕ → List Bytes → List Bytes) : Prop :=
  ∀ (nd nc : ℕ) (codec : C), rs.new nd nc = some codec →
    ∀ (data : List Bytes) (shards : List (Option Bytes)) (len : ℕ), data.length = nd →
      0 < len → (∀ s ∈ data, s.length = len) → shards.length = nd + nc →
      (∀ (i : ℕ) (s : Bytes), shards[i]? = some (some s) → (data ++ parity nd nc data)[i]? = some s) →
      nd ≤ (shards.filter Option.isSome).length →
      ∃ rebuilt, rs.reconstructData codec shards = some rebuilt ∧
        ∀ i < nd, rebuilt[i]? = some data[i]?

/-- Every codec in the cache is one the crate built for its geometry. -/
def ReedSolomonCache.Valid (rs : ReedSolomonCrate C) (cache : ReedSolomonCache C) : Prop :=
  ∀ e ∈ cache.entries, rs.new e.1.1 e.1.2 = some e.2

theorem mem_of_mem_swapRemove {α : Type} {l : List α} {i : ℕ} {a : α} (h : a ∈ swapRemove l i) :
    a ∈ l := by
  unfold swapRemove at h
  cases hlast : l.getLast? with
  | none =>
    rw [hlast] at h
    cases h
  | some last =>
    rw [hlast] at h
    rcases List.mem_or_eq_of_mem_set (List.mem_of_mem_dropLast h) with h | rfl
    · exact h
    · exact List.mem_of_getLast? hlast

/-- The cache never changes what is built. -/
theorem ReedSolomonCache.Valid.getOrBuild {rs : ReedSolomonCrate C} {cache : ReedSolomonCache C}
    (h : cache.Valid rs) (data coding : ℕ) :
    (cache.getOrBuild rs data coding).2 = rs.new data coding ∧
      (cache.getOrBuild rs data coding).1.Valid rs := by
  unfold ReedSolomonCache.getOrBuild
  cases hfind : cache.entries.zipIdx.find? fun e => e.1.1 = (data, coding) with
  | some e =>
    obtain ⟨entry, pos⟩ := e
    have hkey := List.find?_some hfind
    rw [decide_eq_true_eq] at hkey
    have hmem : entry ∈ cache.entries :=
      List.mem_of_getElem? (List.mem_zipIdx_iff_getElem?.mp (List.mem_of_find?_eq_some hfind))
    have hnew := h entry hmem
    simp only at hkey
    rw [hkey] at hnew
    refine ⟨hnew.symm, fun e he => ?_⟩
    rcases List.mem_append.mp he with he | he
    · exact h e (mem_of_mem_swapRemove he)
    · rw [List.mem_singleton.mp he]
      exact h entry hmem
  | none =>
    cases hnew : rs.new data coding with
    | none => exact ⟨rfl, h⟩
    | some codec =>
      refine ⟨rfl, fun e he => ?_⟩
      rcases List.mem_append.mp he with he | he
      · apply h
        split_ifs at he
        · exact List.mem_of_mem_eraseIdx he
        · exact he
      · rw [List.mem_singleton.mp he]
        exact hnew

/-! ## Parsing a rebuilt packet -/

/-- A slice of the middle part of a packet does not depend on the other parts. -/
theorem getRange_middle {pre mid post : Bytes} {a b : ℕ} (ha : pre.length ≤ a) (hab : a ≤ b)
    (hb : b ≤ pre.length + mid.length) :
    getRange (pre ++ mid ++ post) a b = getRange mid (a - pre.length) (b - pre.length) := by
  rw [getRange_of_le hab (by simp; omega), getRange_of_le (by omega) (by omega)]
  apply congrArg some
  rw [List.take_append_of_le_length (by simp; omega), List.take_append, List.drop_append,
    List.take_of_length_le (by omega), List.drop_eq_nil_of_le ha, List.nil_append]

theorem getElem?_middle {pre mid post : Bytes} {i : ℕ} (h1 : pre.length ≤ i)
    (h2 : i < pre.length + mid.length) : (pre ++ mid ++ post)[i]? = mid[i - pre.length]? := by
  rw [List.append_assoc, List.getElem?_append_right h1, List.getElem?_append_left (by omega)]

/-- A code packet parses to a code shred with the packet less its Merkle suffix. -/
theorem parseCodeWithKind_eq_ok {raw : Bytes} {slot index version fecSetIndex : ℕ}
    {variant : VariantKind} {kind : ShredKind}
    (h : parseCodeWithKind raw slot index version fecSetIndex variant = .ok kind) :
    ∃ c, kind = .code c ∧ c.variant = variant ∧
      c.coded = raw.take (raw.length - variant.merkleSuffix) := by
  unfold parseCodeWithKind at h
  by_cases hshort : raw.length < codeHeaderSize
  · rw [if_pos hshort] at h
    cases h
  rw [if_neg hshort] at h
  generalize readU16 raw codeNumDataOffset = numData at h
  rcases numData with _ | numData
  · cases h
  generalize readU16 raw codeNumCodingOffset = numCoding at h
  rcases numCoding with _ | numCoding
  · cases h
  generalize readU16 raw codePositionOffset = position at h
  rcases position with _ | position
  · cases h
  simp only [orInvalid, bind, Except.bind] at h
  by_cases hgeom : numData = 0 ∨ numCoding = 0 ∨ position ≥ numCoding
  · rw [if_pos hgeom] at h
    cases h
  rw [if_neg hgeom] at h
  by_cases hsuffix : variant.merkleSuffix ≥ raw.length
  · rw [if_pos hsuffix] at h
    cases h
  rw [if_neg hsuffix, getRange_of_le (Nat.zero_le _) (Nat.sub_le _ _)] at h
  cases h
  exact ⟨_, rfl, rfl, rfl⟩

theorem parseDataLegacyFallback_ne_code {raw : Bytes} {slot index : ℕ} {c : CodeShred} :
    parseDataLegacyFallback raw slot index ≠ .ok (.code c) := by
  intro h
  unfold parseDataLegacyFallback at h
  generalize raw[dataFlagsOffset]? = flags at h
  rcases flags with _ | flags
  · cases h
  generalize readU16 raw dataSizeOffset = size at h
  rcases size with _ | size
  · cases h
  simp only [orInvalid, bind, Except.bind] at h
  by_cases hsize : size > raw.length
  · rw [if_pos hsize] at h
    cases h
  rw [if_neg hsize] at h
  cases hpay : dataPayload raw size with
  | error e => rw [hpay] at h; cases h
  | ok payload => rw [hpay] at h; cases h

theorem parseDataWithKind_ne_code {raw : Bytes} {slot index version fecSetIndex : ℕ}
    {variant : VariantKind} {c : CodeShred} :
    parseDataWithKind raw slot index version fecSetIndex variant ≠ .ok (.code c) := by
  intro h
  unfold parseDataWithKind at h
  split_ifs at h
  · exact parseDataLegacyFallback_ne_code h
  generalize readU16 raw dataParentOffset = parent at h
  rcases parent with _ | parent
  · cases h
  generalize raw[dataFlagsOffset]? = flags at h
  rcases flags with _ | flags
  · cases h
  generalize readU16 raw dataSizeOffset = size at h
  rcases size with _ | size
  · cases h
  simp only [orInvalid, bind, Except.bind] at h
  by_cases hmax : size > maxDataShredSize
  · rw [if_pos hmax] at h
    exact parseDataLegacyFallback_ne_code h
  rw [if_neg hmax] at h
  by_cases hsize : size > raw.length
  · rw [if_pos hsize] at h
    cases h
  rw [if_neg hsize] at h
  cases hpay : dataPayload raw size with
  | error e => rw [hpay] at h; cases h
  | ok payload => rw [hpay] at h; cases h

/-- The payload of a data shred is a slice of its packet. -/
def PayloadOf (raw : Bytes) (kind : ShredKind) : Prop :=
  ∀ d, kind = .data d → dataHeaderSize + d.payload.length ≤ raw.length ∧
    (raw.take (dataHeaderSize + d.payload.length)).drop dataHeaderSize = d.payload

theorem payloadOf_dataPayload {raw payload : Bytes} {size : ℕ} (hraw : dataHeaderSize ≤ raw.length)
    (h : dataPayload raw size = .ok payload) :
    dataHeaderSize + payload.length ≤ raw.length ∧
      (raw.take (dataHeaderSize + payload.length)).drop dataHeaderSize = payload := by
  unfold dataPayload at h
  split_ifs at h with hsize
  · cases hr : getRange raw dataHeaderSize size with
    | none =>
      rw [hr] at h
      cases h
    | some s =>
      rw [hr] at h
      cases h
      obtain ⟨h1, h2, h3⟩ := getRange_eq_some.mp hr
      have hlen := length_of_getRange hr
      rw [hlen, Nat.add_sub_of_le h1]
      exact ⟨h2, h3⟩
  · cases h
    refine ⟨hraw, ?_⟩
    rw [List.length_nil, Nat.add_zero, List.drop_eq_nil_of_le (by simp)]

theorem payloadOf_legacy {raw : Bytes} {slot index : ℕ} {kind : ShredKind}
    (hraw : dataHeaderSize ≤ raw.length)
    (h : parseDataLegacyFallback raw slot index = .ok kind) : PayloadOf raw kind := by
  unfold parseDataLegacyFallback at h
  generalize raw[dataFlagsOffset]? = flags at h
  rcases flags with _ | flags
  · cases h
  generalize readU16 raw dataSizeOffset = size at h
  rcases size with _ | size
  · cases h
  simp only [orInvalid, bind, Except.bind] at h
  by_cases hsize : size > raw.length
  · rw [if_pos hsize] at h
    cases h
  rw [if_neg hsize] at h
  cases hpay : dataPayload raw size with
  | error e =>
    rw [hpay] at h
    cases h
  | ok payload =>
    rw [hpay] at h
    cases h
    intro d hd
    cases hd
    exact payloadOf_dataPayload hraw hpay

theorem payloadOf_withKind {raw : Bytes} {slot index version fecSetIndex : ℕ}
    {variant : VariantKind} {kind : ShredKind} (hraw : dataHeaderSize ≤ raw.length)
    (h : parseDataWithKind raw slot index version fecSetIndex variant = .ok kind) :
    PayloadOf raw kind := by
  unfold parseDataWithKind at h
  split_ifs at h
  · exact payloadOf_legacy hraw h
  generalize readU16 raw dataParentOffset = parent at h
  rcases parent with _ | parent
  · cases h
  generalize raw[dataFlagsOffset]? = flags at h
  rcases flags with _ | flags
  · cases h
  generalize readU16 raw dataSizeOffset = size at h
  rcases size with _ | size
  · cases h
  simp only [orInvalid, bind, Except.bind] at h
  by_cases hmax : size > maxDataShredSize
  · rw [if_pos hmax] at h
    exact payloadOf_legacy hraw h
  rw [if_neg hmax] at h
  by_cases hsize : size > raw.length
  · rw [if_pos hsize] at h
    cases h
  rw [if_neg hsize] at h
  cases hpay : dataPayload raw size with
  | error e =>
    rw [hpay] at h
    cases h
  | ok payload =>
    rw [hpay] at h
    cases h
    intro d hd
    cases hd
    exact payloadOf_dataPayload hraw hpay

/-- A packet is read as a legacy data shred, or as its variant says. -/
theorem parseKind_eq_ok {raw : Bytes} {kind : ShredKind} (h : parseKind raw = .ok kind) :
    dataHeaderSize ≤ raw.length ∧ ∃ slot index version fecSetIndex,
      readU32 raw indexOffset = some index ∧ (parseDataLegacyFallback raw slot index = .ok kind ∨
        ∃ variant, parseDataWithKind raw slot index version fecSetIndex variant = .ok kind ∨
          parseCodeWithKind raw slot index version fecSetIndex variant = .ok kind) := by
  unfold parseKind at h
  by_cases hshort : raw.length < dataHeaderSize
  · rw [if_pos hshort] at h
    cases h
  refine ⟨by omega, ?_⟩
  rw [if_neg hshort] at h
  generalize raw[variantOffset]? = variantByte at h
  rcases variantByte with _ | variantByte
  · cases h
  generalize readU64 raw slotOffset = slot at h
  rcases slot with _ | slot
  · cases h
  generalize readU32 raw indexOffset = index at h ⊢
  rcases index with _ | index
  · cases h
  generalize readU16 raw versionOffset = version at h
  rcases version with _ | version
  · cases h
  generalize readU32 raw fecSetIndexOffset = fec at h
  rcases fec with _ | fec
  · cases h
  simp only [orInvalid, bind, Except.bind] at h
  refine ⟨slot, index, version, fec, rfl, ?_⟩
  -- the fallback is tried for a byte that is no variant, and for one that is not known
  cases hclass : classifyVariant variantByte with
  | none =>
    rw [hclass] at h
    cases hfall : parseDataLegacyFallback raw slot index with
    | error e =>
      rw [hfall] at h
      cases h
    | ok kind' =>
      rw [hfall] at h
      exact .inl h
  | some variant =>
    rw [hclass] at h
    simp only at h
    split_ifs at h
    · exact .inr ⟨variant, .inl h⟩
    · exact .inr ⟨variant, .inr h⟩
    · cases hfall : parseDataLegacyFallback raw slot index with
      | error e =>
        rw [hfall] at h
        cases h
      | ok kind' =>
        rw [hfall] at h
        exact .inl h

/-- `coded` is the packet without its Merkle suffix. -/
theorem coded_of_parseKind {raw : Bytes} {c : CodeShred} (h : parseKind raw = .ok (.code c)) :
    c.coded = raw.take (raw.length - c.variant.merkleSuffix) := by
  obtain ⟨-, slot, index, version, fec, -, hlegacy | ⟨variant, hdata | hcode⟩⟩ := parseKind_eq_ok h
  · exact absurd hlegacy parseDataLegacyFallback_ne_code
  · exact absurd hdata parseDataWithKind_ne_code
  · obtain ⟨c', hc', hvariant, hcoded⟩ := parseCodeWithKind_eq_ok hcode
    cases hc'
    rw [hcoded, hvariant]

/-- The payload of a data shred is what its packet holds behind the header. -/
theorem payload_of_parseKind {raw : Bytes} {d : DataShred} (h : parseKind raw = .ok (.data d)) :
    dataHeaderSize + d.payload.length ≤ raw.length ∧
      (raw.take (dataHeaderSize + d.payload.length)).drop dataHeaderSize = d.payload := by
  obtain ⟨hraw, slot, index, version, fec, -, hlegacy | ⟨variant, hdata | hcode⟩⟩ :=
    parseKind_eq_ok h
  · exact payloadOf_legacy hraw hlegacy d rfl
  · exact payloadOf_withKind hraw hdata d rfl
  · obtain ⟨c, hc, -⟩ := parseCodeWithKind_eq_ok hcode
    cases hc

theorem index_of_legacy {raw : Bytes} {slot index : ℕ} {d : DataShred}
    (h : parseDataLegacyFallback raw slot index = .ok (.data d)) : d.index = index := by
  unfold parseDataLegacyFallback at h
  generalize raw[dataFlagsOffset]? = flags at h
  rcases flags with _ | flags
  · cases h
  generalize readU16 raw dataSizeOffset = size at h
  rcases size with _ | size
  · cases h
  simp only [orInvalid, bind, Except.bind] at h
  by_cases hsize : size > raw.length
  · rw [if_pos hsize] at h
    cases h
  rw [if_neg hsize] at h
  generalize dataPayload raw size = payload at h
  rcases payload with _ | payload
  · cases h
  · cases h
    rfl

theorem index_of_withKind {raw : Bytes} {slot index version fecSetIndex : ℕ}
    {variant : VariantKind} {d : DataShred}
    (h : parseDataWithKind raw slot index version fecSetIndex variant = .ok (.data d)) :
    d.index = index := by
  unfold parseDataWithKind at h
  split_ifs at h
  · exact index_of_legacy h
  generalize readU16 raw dataParentOffset = parent at h
  rcases parent with _ | parent
  · cases h
  generalize raw[dataFlagsOffset]? = flags at h
  rcases flags with _ | flags
  · cases h
  generalize readU16 raw dataSizeOffset = size at h
  rcases size with _ | size
  · cases h
  simp only [orInvalid, bind, Except.bind] at h
  by_cases hmax : size > maxDataShredSize
  · rw [if_pos hmax] at h
    exact index_of_legacy h
  rw [if_neg hmax] at h
  by_cases hsize : size > raw.length
  · rw [if_pos hsize] at h
    cases h
  rw [if_neg hsize] at h
  generalize dataPayload raw size = payload at h
  rcases payload with _ | payload
  · cases h
  · cases h
    rfl

/-- The index of a data shred is a `u32`. -/
theorem index_le_of_parseKind {raw : Bytes} {d : DataShred} (h : parseKind raw = .ok (.data d)) :
    d.index ≤ u32Max := by
  obtain ⟨-, slot, index, version, fec, hread, hparse⟩ := parseKind_eq_ok h
  have hindex : d.index = index := by
    rcases hparse with hlegacy | ⟨variant, hdata | hcode⟩
    · exact index_of_legacy hlegacy
    · exact index_of_withKind hdata
    · obtain ⟨c, hc, -⟩ := parseCodeWithKind_eq_ok hcode
      cases hc
  obtain ⟨bs, hbs, rfl⟩ := Option.map_eq_some_iff.mp hread
  have hlt := leNat_lt bs
  rw [length_of_getRange hbs] at hlt
  unfold indexOffset at hlt
  unfold u32Max
  omega

section parse

variable {pre mid post pre' post' : Bytes} (hpre : pre.length = sizeOfSignature)
  (hpre' : pre'.length = sizeOfSignature)

include hpre hpre'

theorem getRange_congr {a b : ℕ} (ha : sizeOfSignature ≤ a) (hab : a ≤ b)
    (hb : b ≤ sizeOfSignature + mid.length) :
    getRange (pre' ++ mid ++ post') a b = getRange (pre ++ mid ++ post) a b := by
  rw [getRange_middle (by omega) hab (by omega), getRange_middle (by omega) hab (by omega), hpre,
    hpre']

theorem getElem?_congr {i : ℕ} (h1 : sizeOfSignature ≤ i) (h2 : i < sizeOfSignature + mid.length) :
    (pre' ++ mid ++ post')[i]? = (pre ++ mid ++ post)[i]? := by
  rw [getElem?_middle (by omega) (by omega), getElem?_middle (by omega) (by omega), hpre, hpre']

variable (hpost : post'.length = post.length)
  (hmid : dataHeaderSize ≤ sizeOfSignature + mid.length)
  (hsize : ∀ size ∈ readU16 (pre ++ mid ++ post) dataSizeOffset,
    size ≤ sizeOfSignature + mid.length)

include hpost

theorem length_congr : (pre' ++ mid ++ post').length = (pre ++ mid ++ post).length := by
  simp only [List.length_append]
  omega

include hmid hsize

theorem parseDataLegacyFallback_congr (slot index : ℕ) :
    parseDataLegacyFallback (pre' ++ mid ++ post') slot index =
      parseDataLegacyFallback (pre ++ mid ++ post) slot index := by
  unfold dataHeaderSize sizeOfSignature at hmid
  have hflags : (pre' ++ mid ++ post')[dataFlagsOffset]? = (pre ++ mid ++ post)[dataFlagsOffset]? :=
    getElem?_congr hpre hpre' (by decide) (by unfold dataFlagsOffset sizeOfSignature; omega)
  have hread : readU16 (pre' ++ mid ++ post') dataSizeOffset =
      readU16 (pre ++ mid ++ post) dataSizeOffset := by
    unfold readU16
    rw [getRange_congr hpre hpre' (by decide) (by decide)
      (by unfold dataSizeOffset sizeOfSignature; omega)]
  unfold parseDataLegacyFallback
  rw [hflags, hread, length_congr hpre hpre' hpost]
  cases hs : readU16 (pre ++ mid ++ post) dataSizeOffset with
  | none => rfl
  | some size =>
    have hpay : dataPayload (pre' ++ mid ++ post') size = dataPayload (pre ++ mid ++ post) size := by
      unfold dataPayload
      split_ifs with h
      · rw [getRange_congr hpre hpre' (by decide) h.le (hsize size hs)]
      · rfl
    simp only [orInvalid, bind, Except.bind, hpay]

theorem parseDataWithKind_congr (slot index version fecSetIndex : ℕ) (variant : VariantKind) :
    parseDataWithKind (pre' ++ mid ++ post') slot index version fecSetIndex variant =
      parseDataWithKind (pre ++ mid ++ post) slot index version fecSetIndex variant := by
  have hlegacy := parseDataLegacyFallback_congr hpre hpre' hpost hmid hsize slot index
  unfold dataHeaderSize sizeOfSignature at hmid
  have hflags : (pre' ++ mid ++ post')[dataFlagsOffset]? = (pre ++ mid ++ post)[dataFlagsOffset]? :=
    getElem?_congr hpre hpre' (by decide) (by unfold dataFlagsOffset sizeOfSignature; omega)
  have hread : ∀ offset, sizeOfSignature ≤ offset → offset + 2 ≤ dataHeaderSize →
      readU16 (pre' ++ mid ++ post') offset = readU16 (pre ++ mid ++ post) offset := by
    intro offset h1 h2
    unfold readU16
    unfold dataHeaderSize at h2
    rw [getRange_congr hpre hpre' h1 (by omega) (by unfold sizeOfSignature; omega)]
  unfold parseDataWithKind
  rw [hlegacy, hflags, hread dataParentOffset (by decide) (by decide),
    hread dataSizeOffset (by decide) (by decide), length_congr hpre hpre' hpost]
  cases hs : readU16 (pre ++ mid ++ post) dataSizeOffset with
  | none => rfl
  | some size =>
    have hpay : dataPayload (pre' ++ mid ++ post') size = dataPayload (pre ++ mid ++ post) size := by
      unfold dataPayload
      split_ifs with h
      · rw [getRange_congr hpre hpre' (by decide) h.le (hsize size hs)]
      · rfl
    simp only [orInvalid, bind, Except.bind, hpay]

/-- Two packets of one length that agree from the signature on, up to the end of
    the payload, are the same data shred. -/
theorem parseKind_congr {d : DataShred} (h : parseKind (pre ++ mid ++ post) = .ok (.data d)) :
    parseKind (pre' ++ mid ++ post') = .ok (.data d) := by
  have hlegacy := parseDataLegacyFallback_congr hpre hpre' hpost hmid hsize
  have hdata := parseDataWithKind_congr hpre hpre' hpost hmid hsize
  unfold dataHeaderSize sizeOfSignature at hmid
  have hrange : ∀ a b, sizeOfSignature ≤ a → a ≤ b → b ≤ dataHeaderSize →
      getRange (pre' ++ mid ++ post') a b = getRange (pre ++ mid ++ post) a b := by
    intro a b h1 h2 h3
    unfold dataHeaderSize at h3
    exact getRange_congr hpre hpre' h1 h2 (by unfold sizeOfSignature; omega)
  have hvariant : (pre' ++ mid ++ post')[variantOffset]? = (pre ++ mid ++ post)[variantOffset]? :=
    getElem?_congr hpre hpre' (by decide) (by unfold variantOffset sizeOfSignature; omega)
  unfold parseKind readU64 readU32 readU16 at h ⊢
  rw [length_congr hpre hpre' hpost, hvariant, hrange slotOffset _ (by decide) (by decide) (by decide),
    hrange indexOffset _ (by decide) (by decide) (by decide),
    hrange versionOffset _ (by decide) (by decide) (by decide),
    hrange fecSetIndexOffset _ (by decide) (by decide) (by decide)]
  simp only [hlegacy, hdata]
  -- all that could differ is a code packet
  generalize (pre ++ mid ++ post)[variantOffset]? = variantByte at h ⊢
  generalize getRange (pre ++ mid ++ post) slotOffset (slotOffset + 8) = slot at h ⊢
  generalize getRange (pre ++ mid ++ post) indexOffset (indexOffset + 4) = index at h ⊢
  generalize getRange (pre ++ mid ++ post) versionOffset (versionOffset + 2) = version at h ⊢
  generalize getRange (pre ++ mid ++ post) fecSetIndexOffset (fecSetIndexOffset + 4) = fec at h ⊢
  by_cases hshort : (pre ++ mid ++ post).length < dataHeaderSize
  · rw [if_pos hshort] at h
    cases h
  rw [if_neg hshort] at h ⊢
  rcases variantByte with _ | variantByte
  · cases h
  rcases slot with _ | slot
  · cases h
  rcases index with _ | index
  · cases h
  rcases version with _ | version
  · cases h
  rcases fec with _ | fec
  · cases h
  cases hclass : classifyVariant variantByte with
  | none =>
    simp only [Option.map_some, orInvalid, bind, Except.bind, hclass] at h ⊢
    exact h
  | some kind =>
    simp only [Option.map_some, orInvalid, bind, Except.bind, hclass] at h ⊢
    by_cases hkind : kind.isData
    · rw [if_pos hkind] at h ⊢
      exact h
    · rw [if_neg hkind] at h ⊢
      split_ifs at h ⊢
      · obtain ⟨c, hc, -⟩ := parseCodeWithKind_eq_ok h
        cases hc
      · exact h

end parse

/-! ## Honest FEC sets -/

theorem shardSize_pos {proofSize : ℕ} (h : proofSize ≤ 15) (resigned : Bool) :
    24 ≤ shardSize proofSize resigned ∧ shardSize proofSize resigned ≤ 1107 := by
  unfold shardSize codeShredPayloadLen sizeOfCodingShredHeaders sizeOfMerkleRoot
    sizeOfMerkleProofEntry sizeOfSignature
  split_ifs <;> omega

/-- The bytes of a data packet that its set protects. -/
def dataShard (proofSize : ℕ) (resigned : Bool) (raw : Bytes) : Bytes :=
  (raw.take (sizeOfSignature + shardSize proofSize resigned)).drop sizeOfSignature

/-- The bytes of a code packet in front of its Merkle proof. -/
def codedPart (proofSize : ℕ) (resigned : Bool) (raw : Bytes) : Bytes :=
  raw.take (sizeOfCodingShredHeaders + shardSize proofSize resigned)

/-- An honest FEC set: Merkle packets of one `(proof_size, resigned)` and one
    `(num_data, num_coding)`. `parity` is the encoder of the crate. -/
structure FecSet (parity : ℕ → ℕ → List Bytes → List Bytes) where
  slot : ℕ
  fecSetIndex : ℕ
  numData : ℕ
  numCoding : ℕ
  proofSize : ℕ
  resigned : Bool
  /-- The data packet at a position, and what `parse_kind` makes of it. -/
  data : ℕ → Bytes
  shred : ℕ → DataShred
  /-- The code packet at a position. -/
  code : ℕ → Bytes
  numData_pos : 0 < numData
  numData_lt : numData < 2 ^ 16
  index_lt : fecSetIndex + numData ≤ 2 ^ 32
  proofSize_le : proofSize ≤ 15
  data_length : ∀ p < numData, (data p).length = dataShredPayloadLen
  data_parse : ∀ p < numData, parseKind (data p) = .ok (.data (shred p))
  data_variant : ∀ p < numData, (shred p).variant = .dataMerkle proofSize resigned
  data_slot : ∀ p < numData, (shred p).slot = slot
  data_index : ∀ p < numData, (shred p).index = fecSetIndex + p
  data_fecSetIndex : ∀ p < numData, (shred p).fecSetIndex = fecSetIndex
  data_size : ∀ p < numData, ∀ size ∈ readU16 (data p) dataSizeOffset,
    size ≤ sizeOfSignature + shardSize proofSize resigned
  code_length : ∀ q < numCoding, (code q).length = codeShredPayloadLen
  code_parse : ∀ q < numCoding, ∃ c, parseKind (code q) = .ok (.code c) ∧ c.slot = slot ∧
    c.fecSetIndex = fecSetIndex ∧ c.numDataShreds = numData ∧ c.numCodingShreds = numCoding ∧
    c.position = q ∧ c.variant = .codeMerkle proofSize resigned
  code_parity : ∀ q < numCoding,
    (parity numData numCoding ((List.range numData).map fun p =>
      dataShard proofSize resigned (data p)))[q]? =
      some ((codedPart proofSize resigned (code q)).drop sizeOfCodingShredHeaders)

namespace FecSet

variable {parity : ℕ → ℕ → List Bytes → List Bytes} (F : FecSet parity)

/-- The shard of a data packet. -/
def shard (p : ℕ) : Bytes := dataShard F.proofSize F.resigned (F.data p)

/-- What `parse_kind` keeps of a code packet. -/
def coded (q : ℕ) : Bytes := codedPart F.proofSize F.resigned (F.code q)

/-- The packet recovery makes of the shard at a position. -/
def rebuilt (p : ℕ) : Bytes := FecSetBuffer.rebuildPacket (F.shard p)

/-- The length of the shards. -/
def shardLen : ℕ := shardSize F.proofSize F.resigned

theorem length_shard {p : ℕ} (hp : p < F.numData) : (F.shard p).length = F.shardLen := by
  have := shardSize_pos F.proofSize_le F.resigned
  have hlen := F.data_length p hp
  unfold dataShredPayloadLen at hlen
  unfold shard dataShard shardLen
  rw [List.length_drop, List.length_take, hlen]
  unfold sizeOfSignature
  omega

theorem length_coded {q : ℕ} (hq : q < F.numCoding) :
    (F.coded q).length = sizeOfCodingShredHeaders + F.shardLen := by
  have := shardSize_pos F.proofSize_le F.resigned
  have hlen := F.code_length q hq
  unfold codeShredPayloadLen at hlen
  unfold coded codedPart shardLen
  rw [List.length_take, hlen]
  unfold sizeOfCodingShredHeaders
  omega

/-- The parser strips from a code packet what lies behind its shard. -/
theorem coded_eq {q : ℕ} (hq : q < F.numCoding) {c : CodeShred}
    (hc : parseKind (F.code q) = .ok (.code c)) : c.coded = F.coded q := by
  obtain ⟨c', hc', -, -, -, -, -, hvariant⟩ := F.code_parse q hq
  rw [hc] at hc'
  cases hc'
  rw [coded_of_parseKind hc, hvariant, F.code_length q hq]
  unfold coded codedPart
  apply congrArg (List.take · _)
  have := F.proofSize_le
  unfold VariantKind.merkleSuffix shardSize codeShredPayloadLen sizeOfCodingShredHeaders
    sizeOfMerkleRoot sizeOfMerkleProofEntry sizeOfSignature proofNodeSize resignedExtra
  simp only
  split_ifs <;> omega

/-- A data packet around its shard. -/
theorem data_eq {p : ℕ} (hp : p < F.numData) :
    ∃ pre post, F.data p = pre ++ F.shard p ++ post ∧ pre.length = sizeOfSignature ∧
      post.length = dataShredPayloadLen - (sizeOfSignature + F.shardLen) := by
  have hlen := F.data_length p hp
  have := shardSize_pos F.proofSize_le F.resigned
  refine ⟨(F.data p).take sizeOfSignature, (F.data p).drop (sizeOfSignature + F.shardLen), ?_, ?_, ?_⟩
  · unfold shard dataShard shardLen
    rw [List.append_assoc, List.drop_take, Nat.add_sub_cancel_left, ← List.drop_drop,
      List.take_append_drop, List.take_append_drop]
  · rw [List.length_take, hlen]
    decide
  · rw [List.length_drop, hlen]

/-- A rebuilt packet is parsed like the one that was lost. -/
theorem parseKind_rebuilt {p : ℕ} (hp : p < F.numData) :
    parseKind (F.rebuilt p) = .ok (.data (F.shred p)) := by
  obtain ⟨pre, post, hdata, hpre, hpost⟩ := F.data_eq hp
  have hlen := F.length_shard hp
  have hparse := F.data_parse p hp
  have hsize := F.data_size p hp
  have := shardSize_pos F.proofSize_le F.resigned
  rw [hdata] at hparse hsize
  refine parseKind_congr hpre (by decide) ?_ ?_ ?_ hparse
  · rw [List.length_replicate, hpost, hlen]
  · rw [hlen]
    unfold dataHeaderSize sizeOfSignature shardLen
    omega
  · rw [hlen]
    exact hsize

theorem dataShardSlice_rebuilt {p : ℕ} (hp : p < F.numData) :
    dataShardSlice (F.rebuilt p) (.dataMerkle F.proofSize F.resigned) = some (F.shard p) := by
  have hlen := F.length_shard hp
  have := shardSize_pos F.proofSize_le F.resigned
  unfold shardLen at hlen
  unfold dataShardSlice rebuilt FecSetBuffer.rebuildPacket
  simp only
  rw [getRange_middle (by simp) (by omega) (by simp [hlen]), List.length_replicate, Nat.sub_self,
    Nat.add_sub_cancel_left, ← hlen, getRange_of_le (Nat.zero_le _) le_rfl, List.take_length,
    List.drop_zero]

theorem dataShardSlice_data {p : ℕ} (hp : p < F.numData) :
    dataShardSlice (F.data p) (.dataMerkle F.proofSize F.resigned) = some (F.shard p) := by
  have := shardSize_pos F.proofSize_le F.resigned
  have hlen := F.data_length p hp
  unfold dataShredPayloadLen at hlen
  exact getRange_of_le (by unfold sizeOfSignature; omega) (by unfold sizeOfSignature; omega)

theorem codeShardSlice_coded {q : ℕ} (hq : q < F.numCoding) :
    codeShardSlice (F.coded q) (.codeMerkle F.proofSize F.resigned) =
      some ((F.coded q).drop sizeOfCodingShredHeaders) := by
  have hlen := F.length_coded hq
  unfold shardLen at hlen
  unfold codeShardSlice
  simp only
  rw [getRange_of_le (by omega) (by omega), ← hlen, List.take_length]

end FecSet

end ShredStream
