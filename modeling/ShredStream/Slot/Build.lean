import ShredStream.Decoder.LegacyWire
import ShredStream.Slot.Delivery

/-!
# Slots from lists of payloads

`ofPayloads` makes a slot from the payloads of each of its batches, and `args`
is what the listener passes to `push_data` for one of its shreds.
-/

namespace ShredStream

open FirstByKey SlotAccumulator

namespace Slot

variable {w : Wincode}

/-! ## The shreds of a slot -/

/-- The handle holds a packet that is zero but for the payload. -/
def handle (S : Slot w) (i : ℕ) : BufferHandle where
  idx := i
  bytes := List.replicate dataHeaderSize 0 ++ S.payload i

/-- The arguments of `push_data` for shred `i`, alone in its FEC set. -/
def args (S : Slot w) (i : ℕ) : DataArgs where
  index := i
  fecSetIndex := i
  handle := S.handle i
  payloadEnd := dataHeaderSize + (S.payload i).length
  batchComplete := decide (S.EndsBatch i)
  lastInSlot := decide (S.IsLast i)

theorem genuine_args (S : Slot w) {i : ℕ} (hi : i < S.shreds) : S.Genuine (S.args i) where
  index_lt := hi
  payload := by
    have hlen : (S.handle i).bytes.length = dataHeaderSize + (S.payload i).length := by
      simp [handle]
    simp only [DataArgs.shred, args, PendingShred.payload, PayloadSource.slice, hlen]
    rw [if_neg (by omega), ← hlen, List.take_length, handle, List.drop_left' (by simp)]
  batchComplete := by simp [args]
  lastInSlot := by simp [args]

/-- The calls of `push_data` for the shreds in `order`, each made at once. -/
def deliver (S : Slot w) (order : List ℕ) : List (Clock × Call) :=
  order.map fun i => (⟨fun _ => 0, fun _ _ => 0⟩, .data (S.args i))

/-- The shreds in `order`, then the harvest. -/
def deliverAll (S : Slot w) (order : List ℕ) : List (Clock × Call) :=
  S.deliver order ++ [(⟨fun _ => 0, fun _ _ => 0⟩, .harvest)]

theorem pushed_deliver (S : Slot w) (order : List ℕ) : pushed (S.deliver order) = order := by
  induction order with
  | nil => rfl
  | cons i order ih => exact congrArg (i :: ·) ih

theorem pushes_deliver (S : Slot w) {cfg : AccumulatorConfig}
    (hcfg : 0 < cfg.stuckBatchTimeout) {order : List ℕ} (horder : ∀ i ∈ order, i < S.shreds) :
    ∀ c ∈ S.deliver order, S.Pushes cfg c := by
  intro c hc
  obtain ⟨i, hi, rfl⟩ := List.mem_map.mp hc
  exact ⟨⟨S.args i, rfl, S.genuine_args (horder i hi)⟩, fun _ _ => hcfg⟩

/-! ## Slots from payloads -/

/-- The batches with these payloads make a slot. -/
structure ValidPayloads (w : Wincode) (batches : List (List Bytes)) (closed : Bool) : Prop where
  nonempty : ∀ b ∈ batches, b ≠ []
  payload_le : ∀ p ∈ batches.flatten, dataHeaderSize + p.length ≤ bufSize
  shreds_le : batches.flatten.length ≤ u32Max + if closed then 1 else 0
  accepted : ∀ b ∈ batches, (decodeBatch w b.flatten).isSome
  signed : ∀ tx ∈ batches.flatMap fun b => batchTxs w b.flatten, tx.firstSig ≠ none
  distinct : ((batches.flatMap fun b => batchTxs w b.flatten).map
    VersionedTransaction.firstSig).Nodup

instance (w : Wincode) (batches : List (List Bytes)) (closed : Bool) :
    Decidable (ValidPayloads w batches closed) :=
  decidable_of_iff
    ((∀ b ∈ batches, b ≠ []) ∧
      (∀ p ∈ batches.flatten, dataHeaderSize + p.length ≤ bufSize) ∧
      batches.flatten.length ≤ u32Max + (if closed then 1 else 0) ∧
      (∀ b ∈ batches, (decodeBatch w b.flatten).isSome) ∧
      (∀ tx ∈ batches.flatMap fun b => batchTxs w b.flatten, tx.firstSig ≠ none) ∧
      ((batches.flatMap fun b => batchTxs w b.flatten).map VersionedTransaction.firstSig).Nodup)
    ⟨fun ⟨h1, h2, h3, h4, h5, h6⟩ => ⟨h1, h2, h3, h4, h5, h6⟩,
      fun ⟨h1, h2, h3, h4, h5, h6⟩ => ⟨h1, h2, h3, h4, h5, h6⟩⟩

/-- The index of the first shred of batch `k`. -/
def startOf (batches : List (List Bytes)) (k : ℕ) : ℕ := (batches.take k).flatten.length

/-- The payload of shred `i`. -/
def payloadOf (batches : List (List Bytes)) (i : ℕ) : Bytes := batches.flatten.getD i []

theorem payloads_getD (l : List Bytes) (a n : ℕ) (h : a + n ≤ l.length) :
    payloads (fun i => l.getD i []) a (a + n) = ((l.drop a).take n).flatten := by
  induction n with
  | zero => simp [payloads]
  | succ n ih =>
    rw [← Nat.add_assoc, payloads_succ _ (by omega), ih (by omega),
      List.take_add_one, List.flatten_append, List.getElem?_drop,
      List.getD_eq_getElem _ _ (show a + n < l.length by omega),
      List.getElem?_eq_getElem (show a + n < l.length by omega)]
    simp

theorem startOf_succ {batches : List (List Bytes)} {k : ℕ} (hk : k < batches.length) :
    startOf batches (k + 1) = startOf batches k + (batches[k]).length := by
  rw [startOf, startOf, ← List.take_concat_get' batches k hk, List.flatten_append,
    List.length_append]
  simp

theorem payloads_batch {batches : List (List Bytes)} {k : ℕ} (hk : k < batches.length) :
    payloads (payloadOf batches) (startOf batches k) (startOf batches (k + 1)) =
      (batches[k]).flatten := by
  have hflat : batches.flatten =
      (batches.take k).flatten ++ (batches[k] ++ (batches.drop (k + 1)).flatten) := by
    rw [← List.flatten_cons, ← List.flatten_append, ← List.drop_eq_getElem_cons hk,
      List.take_append_drop]
  have hlen := congrArg List.length hflat
  simp only [List.length_append] at hlen
  rw [startOf_succ hk]
  refine (payloads_getD batches.flatten _ _ (by unfold startOf; omega)).trans ?_
  rw [hflat, startOf, List.drop_left, List.take_left]

/-- The slot whose batches have these payloads. -/
def ofPayloads (w : Wincode) (batches : List (List Bytes)) (closed : Bool)
    (h : ValidPayloads w batches closed) : Slot w where
  batches := batches.length
  start := startOf batches
  payload := payloadOf batches
  closed := closed
  start_zero := rfl
  start_lt k hk := by
    rw [startOf_succ hk]
    have := List.length_pos_iff.mpr (h.nonempty _ (List.getElem_mem hk))
    omega
  payload_le i := by
    unfold payloadOf
    by_cases hi : i < batches.flatten.length
    · rw [List.getD_eq_getElem _ _ hi]
      exact h.payload_le _ (List.getElem_mem hi)
    · rw [List.getD_eq_default _ _ (by omega)]
      decide
  shreds_le := by
    rw [startOf, List.take_length]
    exact h.shreds_le
  accepted k hk := by
    rw [payloads_batch hk]
    exact h.accepted _ (List.getElem_mem hk)
  distinct := by
    have heq : ((List.range batches.length).flatMap fun k => batchTxs w
        (payloads (payloadOf batches) (startOf batches k) (startOf batches (k + 1)))) =
        batches.flatMap fun b => batchTxs w b.flatten := by
      have hrange : batches = (List.range batches.length).map fun k => batches.getD k [] :=
        List.ext_getElem (by simp) fun k h1 _ => by simp [h1]
      conv_rhs => rw [hrange, List.flatMap_map]
      refine List.flatMap_congr fun k hk => ?_
      rw [List.mem_range] at hk
      rw [payloads_batch hk, List.getD_eq_getElem _ _ hk]
    rw [heq]
    exact ⟨h.signed, h.distinct⟩

end Slot

/-- Entries with legacy transactions, and a codec that is never built. -/
def legacyEnv : Env Unit where
  wincode := LegacyWire.wincode
  reedSolomon := { new := fun _ _ => none, reconstructData := fun _ _ => none }

end ShredStream
