import ShredStream.Library.SelfDelimiting
import ShredStream.Wire.Bytes

/-!
# Entry decoders (`src/decoder.rs`)

`wincode` is the parameter `Wincode`. What the code relies on is
`Wincode.Lawful`: an `Entry` is self-delimiting, takes `serialized_size`
bytes, and is reported as truncated exactly on strict prefixes; a `Vec<Entry>`
is a `u64` count followed by that many entries.
-/

namespace ShredStream

open SelfDelimiting

/-- `MAX_ENTRY_COUNT` (line 6). -/
def maxEntryCount : ℕ := 50000

abbrev Signature := Vector UInt8 64

/-- `VersionedTransaction`; the message is kept as its serialized bytes. -/
structure VersionedTransaction where
  signatures : List Signature
  message : Bytes
  deriving DecidableEq, Repr

/-- `Entry`. -/
structure Entry where
  numHashes : ℕ
  hash : Bytes
  transactions : List VersionedTransaction
  deriving DecidableEq, Repr

/-- `wincode::ReadError`; `readSizeLimit` is `Io(ReadSizeLimit(_))`. -/
inductive ReadError
  | readSizeLimit (needed : ℕ)
  | other (message : String)

/-- `is_truncated` (lines 9–14). -/
def isTruncated : ReadError → Bool
  | .readSizeLimit _ => true
  | .other _ => false

/-- `e.to_string()` of a read error. Only errors other than `ReadSizeLimit`
    are ever printed. -/
def ReadError.toString : ReadError → String
  | .readSizeLimit _ => ""
  | .other message => message

/-- `DecodeError::Corruption` (`src/error.rs`). -/
structure DecodeError where
  corruption : String

/-- What the code uses of `wincode`. -/
structure Wincode where
  /-- `wincode::deserialize::<Entry>`. -/
  deserializeEntry : Bytes → Except ReadError Entry
  /-- `wincode::deserialize::<Vec<Entry>>`. -/
  deserializeEntries : Bytes → Except ReadError (List Entry)
  /-- `wincode::serialized_size(&entry)`; an error carries its text. -/
  serializedSizeEntry : Entry → Except String ℕ
  /-- `wincode::serialized_size(&entries)`. -/
  serializedSizeEntries : List Entry → Except String ℕ

namespace Wincode

/-- `wincode` as a decoder of single entries. -/
def entry (w : Wincode) : Decoder UInt8 Entry where
  read b :=
    match w.deserializeEntry b with
    | .ok e => .item e
    | .error err => if isTruncated err then .short else .invalid
  size e :=
    match w.serializedSizeEntry e with
    | .ok n => n
    | .error _ => 0

/-- The documented behaviour of `wincode` on entries. -/
structure Lawful (w : Wincode) : Prop where
  entry : w.entry.Lawful
  /-- Entries that were read can be measured, and take at least 48 bytes (a
      `u64`, a 32-byte hash and a `u64` length). -/
  entry_size : ∀ b e, w.deserializeEntry b = .ok e →
    ∃ n, w.serializedSizeEntry e = .ok n ∧ 48 ≤ n
  entries : ∀ b es, leNat (b.take 8) ≤ maxEntryCount →
    (w.deserializeEntries b = .ok es ↔
      8 ≤ b.length ∧ w.entry.readMany (leNat (b.take 8)) (b.drop 8) = .item es)
  entries_size : ∀ b es, w.deserializeEntries b = .ok es →
    w.serializedSizeEntries es = .ok (8 + w.entry.total es)

end Wincode

variable (w : Wincode)

/-! ## One-shot decoding -/

/-- `extract_txs` (lines 148–154). -/
def extractTxs (entries : List Entry) : List VersionedTransaction :=
  entries.flatMap Entry.transactions

/-- `validate_vec_prefix` (lines 130–146). -/
def validateVecPrefix (bytes : Bytes) : Bool :=
  if bytes.length < 8 then false
  else
    let count := leNat (bytes.take 8)
    if count > maxEntryCount then false
    else if min (count * 48) u64Max > bytes.length then false
    else true

/-- `decode_batch` (lines 97–103). -/
def decodeBatch (bytes : Bytes) : Option (List VersionedTransaction) :=
  if ¬validateVecPrefix bytes then none
  else
    match w.deserializeEntries bytes with
    | .ok entries => some (extractTxs entries)
    | .error _ => none

/-- The loop of `decode_concatenated` (lines 108–126). An iteration that does
    not leave the loop moves `offset` forward, so the `fuel` the caller passes
    is never used up. -/
def decodeConcatenatedFrom (bytes : Bytes) : ℕ → ℕ → List VersionedTransaction
  | 0, _ => []
  | fuel + 1, offset =>
    if offset + 8 ≤ bytes.length then
      let remaining := bytes.drop offset
      if ¬validateVecPrefix remaining then []
      else
        match w.deserializeEntries remaining with
        | .error _ => []
        | .ok entries =>
          match w.serializedSizeEntries entries with
          | .error _ => []
          | .ok consumed =>
            if consumed = 0 then []
            else extractTxs entries ++ decodeConcatenatedFrom bytes fuel (offset + consumed)
    else []

/-- `decode_concatenated` (lines 105–128). -/
def decodeConcatenated (bytes : Bytes) : List VersionedTransaction :=
  decodeConcatenatedFrom w bytes (bytes.length + 1) 0

/-! ## Incremental decoding -/

/-- `StreamingDecoder` (lines 16–21). -/
structure StreamingDecoder where
  buffer : Bytes := []
  cursor : ℕ := 0
  expectedCount : Option ℕ := none
  entriesYielded : ℕ := 0
  deriving DecidableEq, Repr

namespace StreamingDecoder

/-- `StreamingDecoder::reset` (lines 42–47). -/
def reset (_d : StreamingDecoder) : StreamingDecoder := {}

/-- The `while self.entries_yielded < expected` loop of `try_deserialize`
    (lines 68–85), for the `expected - entries_yielded` entries still to come;
    `txs` are the transactions collected so far. `none` is the panic of
    `&self.buffer[self.cursor..]` when the cursor lies beyond the buffer. -/
def readEntries : ℕ → StreamingDecoder → List VersionedTransaction →
    Option (StreamingDecoder × Except DecodeError (List VersionedTransaction))
  | 0, d, txs => some (d, .ok txs)
  | n + 1, d, txs =>
    if d.buffer.length < d.cursor then none
    else
      let remaining := d.buffer.drop d.cursor
      if remaining.isEmpty then some (d, .ok txs)
      else
        match w.deserializeEntry remaining with
        | .ok entry =>
          match w.serializedSizeEntry entry with
          | .error message => some (d, .error ⟨message⟩)
          | .ok consumed =>
            readEntries n
              { d with cursor := d.cursor + consumed, entriesYielded := d.entriesYielded + 1 }
              (txs ++ entry.transactions)
        | .error e =>
          if isTruncated e then some (d, .ok txs) else some (d, .error ⟨e.toString⟩)

/-- `StreamingDecoder::try_deserialize` (lines 49–88). -/
def tryDeserialize (d : StreamingDecoder) :
    Option (StreamingDecoder × Except DecodeError (List VersionedTransaction)) :=
  if d.expectedCount.isNone ∧ d.buffer.length ≥ d.cursor + 8 then
    let count := leNat ((d.buffer.drop d.cursor).take 8)
    if count > maxEntryCount then some (d, .error ⟨"invalid entry count"⟩)
    else
      let d := { d with cursor := d.cursor + 8, expectedCount := some count }
      readEntries w (count - d.entriesYielded) d []
  else
    match d.expectedCount with
    | none => some (d, .ok [])
    | some expected => readEntries w (expected - d.entriesYielded) d []

/-- `StreamingDecoder::push` (lines 33–40). -/
def push (d : StreamingDecoder) (payload : Bytes) :
    Option (StreamingDecoder × Except DecodeError (List VersionedTransaction)) :=
  tryDeserialize w { d with buffer := d.buffer ++ payload }

end StreamingDecoder

end ShredStream
