import ShredStream.Decoder.Basic

/-!
# The wire format of entries with legacy transactions

A concrete `Wincode` for entries whose transactions carry legacy messages
without instructions: a `u64` hash count, a 32-byte hash and a `u64` number of
transactions; a transaction is a one-byte count of signatures, the signatures,
and the message (three header bytes, a one-byte count of account keys, the
keys, the recent blockhash, a zero count of instructions). Lengths are compact
`u16`s of one byte. Anything else is reported as invalid. It shows that
`Wincode.Lawful` can be met, and lets the model run on real encodings.
-/

namespace ShredStream.LegacyWire

open SelfDelimiting

/-- A compact length of one byte. -/
def shortLen : Decoder UInt8 ℕ :=
  (Decoder.take 1).map (fun b => if leNat b < 128 then some (leNat b) else none) fun _ => 1

def signature : Decoder UInt8 Signature :=
  (Decoder.take 64).map
    (fun b => if h : b.length = 64 then some ⟨b.toArray, by simpa using h⟩ else none) fun _ => 64

/-- The message is kept as raw bytes. -/
def message : Decoder UInt8 Bytes :=
  ((Decoder.take 4).bind fun head => Decoder.take (32 * (head.getD 3 0).toNat + 33)).map
    (fun p => if (p.1.getD 0 0).toNat < 128 ∧ (p.1.getD 3 0).toNat < 128 ∧ p.2.getLast? = some 0
      then some (p.1 ++ p.2) else none)
    List.length

def transaction : Decoder UInt8 VersionedTransaction :=
  (shortLen.bind fun n => (signature.many n).bind fun _ => message).map
    (fun p => some { signatures := p.2.1, message := p.2.2 })
    fun tx => 1 + 64 * tx.signatures.length + tx.message.length

def entry : Decoder UInt8 Entry :=
  ((Decoder.take 8).bind fun _ => (Decoder.take 32).bind fun _ => (Decoder.take 8).bind fun count =>
    transaction.many (leNat count)).map
    (fun p => some { numHashes := leNat p.1, hash := p.2.1, transactions := p.2.2.2 })
    fun e => 48 + transaction.total e.transactions

/-- An outcome as `wincode` reports it. -/
def toResult {α : Type} : Outcome α → Except ReadError α
  | .item a => .ok a
  | .short => .error (.readSizeLimit 0)
  | .invalid => .error (.other "invalid")

/-- `wincode` on this format. -/
def wincode : Wincode where
  deserializeEntry b := toResult (entry.read b)
  deserializeEntries b :=
    if b.length < 8 then .error (.readSizeLimit 8)
    else toResult (entry.readMany (leNat (b.take 8)) (b.drop 8))
  serializedSizeEntry e := .ok (entry.size e)
  serializedSizeEntries es := .ok (8 + entry.total es)

/-! ## The format is lawful -/

theorem shortLen_lawful : shortLen.Lawful :=
  Decoder.map_lawful (Decoder.take_lawful 1) fun _ _ _ _ _ => rfl

theorem signature_lawful : signature.Lawful :=
  Decoder.map_lawful (Decoder.take_lawful 64) fun _ _ _ _ _ => rfl

theorem total_signature (sigs : List Signature) : signature.total sigs = 64 * sigs.length := by
  induction sigs with
  | nil => rfl
  | cons s sigs ih =>
    rw [Decoder.total_cons, ih, List.length_cons]
    change 64 + _ = _
    ring

theorem message_lawful : message.Lawful := by
  refine Decoder.map_lawful (Decoder.bind_lawful (Decoder.take_lawful 4)
    fun _ => Decoder.take_lawful _) ?_
  intro b p c hr hc
  obtain ⟨h1, h2⟩ := Decoder.of_bind_read hr
  split_ifs at hc
  cases hc
  rw [List.length_append, Decoder.length_of_take h1, Decoder.length_of_take h2]
  rfl

theorem transaction_lawful : transaction.Lawful := by
  refine Decoder.map_lawful (Decoder.bind_lawful shortLen_lawful fun n =>
    Decoder.bind_lawful (Decoder.many_lawful signature_lawful n) fun _ => message_lawful) ?_
  intro b p c _ hc
  cases hc
  change 1 + 64 * p.2.1.length + p.2.2.length = 1 + (signature.total p.2.1 + p.2.2.length)
  rw [total_signature]
  ring

theorem entry_lawful : entry.Lawful := by
  refine Decoder.map_lawful (Decoder.bind_lawful (Decoder.take_lawful 8) fun _ =>
    Decoder.bind_lawful (Decoder.take_lawful 32) fun _ =>
      Decoder.bind_lawful (Decoder.take_lawful 8) fun _ =>
        Decoder.many_lawful transaction_lawful _) ?_
  intro b p c _ hc
  cases hc
  change 48 + transaction.total p.2.2.2 = 8 + (32 + (8 + transaction.total p.2.2.2))
  ring

/-- The decoder of single entries is the one the format is built from. -/
theorem wincode_entry : wincode.entry = entry := by
  have hread : wincode.entry.read = entry.read := by
    funext b
    show wincode.entry.read b = entry.read b
    simp only [Wincode.entry, wincode]
    cases entry.read b <;> rfl
  exact congrArg₂ Decoder.mk hread rfl

theorem wincode_lawful : wincode.Lawful where
  entry := by rw [wincode_entry]; exact entry_lawful
  entry_size b e _ := ⟨_, rfl, by simp [entry, Decoder.map]⟩
  entries b es _ := by
    rw [wincode_entry]
    change (if b.length < 8 then _ else toResult _) = _ ↔ _
    split_ifs with h
    · simp; omega
    · cases entry.readMany (leNat (b.take 8)) (b.drop 8) with
      | item es' => simp [toResult]; omega
      | short => simp [toResult]
      | invalid => simp [toResult]
  entries_size b es _ := by rw [wincode_entry]; rfl

/-! ## Encodings -/

/-- A message with the given account keys. -/
def encodeMessage (keys : List Bytes) : Bytes :=
  [1, 0, 0, UInt8.ofNat keys.length] ++ keys.flatten ++ List.replicate 32 0 ++ [0]

def encodeTransaction (tx : VersionedTransaction) : Bytes :=
  [UInt8.ofNat tx.signatures.length] ++ tx.signatures.flatMap Vector.toList ++ tx.message

def encodeEntry (e : Entry) : Bytes :=
  leBytes 8 e.numHashes ++ e.hash ++ leBytes 8 e.transactions.length ++
    e.transactions.flatMap encodeTransaction

/-- A `Vec<Entry>`. -/
def encodeEntries (es : List Entry) : Bytes := leBytes 8 es.length ++ es.flatMap encodeEntry

/-- A transaction signed once, with the byte `n` repeated. -/
def signedTx (n : ℕ) (keys : List Bytes) : VersionedTransaction where
  signatures := [Vector.replicate 64 (UInt8.ofNat n)]
  message := encodeMessage keys

/-- The encoding of a vector of entries with these transactions. -/
def encodeBatch (txss : List (List VersionedTransaction)) : Bytes :=
  encodeEntries (txss.map fun txs =>
    { numHashes := 0, hash := List.replicate 32 0, transactions := txs })

end ShredStream.LegacyWire
