import ShredStream.Wire.Bytes

/-!
# Shred variants (`src/variant.rs`)
-/

namespace ShredStream

/-- `PROOF_NODE_SIZE` and `RESIGNED_EXTRA` (lines 1–2). -/
def proofNodeSize : ℕ := 20
def resignedExtra : ℕ := 64

/-- `VariantKind` (lines 5–10). -/
inductive VariantKind
  | dataLegacy
  | codeLegacy
  | dataMerkle (proofSize : ℕ) (resigned : Bool)
  | codeMerkle (proofSize : ℕ) (resigned : Bool)
  deriving DecidableEq, Repr

namespace VariantKind

/-- `VariantKind::is_data` (line 13). -/
def isData : VariantKind → Bool
  | dataLegacy | dataMerkle _ _ => true
  | _ => false

/-- `VariantKind::is_code` (line 17). -/
def isCode : VariantKind → Bool
  | codeLegacy | codeMerkle _ _ => true
  | _ => false

/-- `VariantKind::merkle_suffix` (lines 21–38). -/
def merkleSuffix : VariantKind → ℕ
  | dataLegacy | codeLegacy => 0
  | dataMerkle proofSize resigned | codeMerkle proofSize resigned =>
    let proof := proofSize * proofNodeSize
    let merkleRoot := 32
    let resignedSig := if resigned then resignedExtra else 0
    proof + merkleRoot + resignedSig

end VariantKind

/-- `classify_variant` (lines 57–79). -/
def classifyVariant (b : UInt8) : Option VariantKind :=
  if b = 0xA5 then some .dataLegacy
  else if b = 0x5A then some .codeLegacy
  else if 0x60 ≤ b ∧ b ≤ 0x6F then some (.codeMerkle (b &&& 0x0F).toNat false)
  else if 0x70 ≤ b ∧ b ≤ 0x7F then some (.codeMerkle (b &&& 0x0F).toNat true)
  else if 0x90 ≤ b ∧ b ≤ 0x9F then some (.dataMerkle (b &&& 0x0F).toNat false)
  else if 0xB0 ≤ b ∧ b ≤ 0xBF then some (.dataMerkle (b &&& 0x0F).toNat true)
  else none

end ShredStream
