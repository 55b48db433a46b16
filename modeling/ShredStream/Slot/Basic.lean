import ShredStream.Accumulator.Salvage
import ShredStream.Decoder.Streaming

/-!
# Slots as their leader makes them

A `Slot` is a sequence of batches over the consecutive shred indices from 0 on.
The payloads of a batch, concatenated, are accepted by `decode_batch`, and no
two transactions of the slot have the same first signature. A closed slot has a
last shred, the only one flagged `last_in_slot`; an open one is a beginning of
a slot.

`streamed k c` is what the incremental decoder has yielded of batch `k` once it
was given the shreds up to `c`.
-/

namespace ShredStream

open FirstByKey SelfDelimiting

/-- The concatenation of the payloads of the shreds in `[a, b)`. -/
def payloads (payload : ℕ → Bytes) (a b : ℕ) : Bytes := (List.range' a (b - a)).flatMap payload

section payloads

variable (payload : ℕ → Bytes) {a b c : ℕ}

theorem payloads_self : payloads payload a a = [] := by simp [payloads]

theorem payloads_append (hab : a ≤ b) (hbc : b ≤ c) :
    payloads payload a b ++ payloads payload b c = payloads payload a c := by
  have h := List.range'_append_1 (s := a) (m := b - a) (n := c - b)
  rw [show a + (b - a) = b by omega, show b - a + (c - b) = c - a by omega] at h
  rw [payloads, payloads, payloads, ← List.flatMap_append, h]

theorem payloads_succ (hab : a ≤ b) :
    payloads payload a (b + 1) = payloads payload a b ++ payload b := by
  rw [← payloads_append payload hab (Nat.le_succ b)]
  simp [payloads]

theorem payloads_isPrefix (hab : a ≤ b) (hbc : b ≤ c) :
    payloads payload a b <+: payloads payload a c := by
  rw [← payloads_append payload hab hbc]
  exact List.prefix_append _ _

end payloads

/-- An honest slot, or a beginning of one. -/
structure Slot (w : Wincode) where
  /-- The number of batches. -/
  batches : ℕ
  /-- The index of the first shred of a batch; `start batches` is the number
      of shreds. -/
  start : ℕ → ℕ
  payload : ℕ → Bytes
  /-- Whether the last shred is flagged `last_in_slot`. -/
  closed : Bool
  start_zero : start 0 = 0
  start_lt : ∀ k < batches, start k < start (k + 1)
  payload_le : ∀ i, dataHeaderSize + (payload i).length ≤ bufSize
  /-- The shreds that are not last in the slot have indices below `u32::MAX`. -/
  shreds_le : start batches ≤ u32Max + if closed then 1 else 0
  accepted : ∀ k < batches,
    (decodeBatch w (payloads payload (start k) (start (k + 1)))).isSome
  distinct : Distinct VersionedTransaction.firstSig
    ((List.range batches).flatMap fun k =>
      batchTxs w (payloads payload (start k) (start (k + 1))))

namespace Slot

variable {w : Wincode} (S : Slot w)

/-- The number of shreds. -/
def shreds : ℕ := S.start S.batches

/-- Shred `i` is flagged `batch_complete`. -/
def EndsBatch (i : ℕ) : Prop := ∃ k < S.batches, i + 1 = S.start (k + 1)

instance (i : ℕ) : Decidable (S.EndsBatch i) :=
  inferInstanceAs (Decidable (∃ k < S.batches, _))

/-- Shred `i` is flagged `last_in_slot`. -/
def IsLast (i : ℕ) : Prop := S.closed ∧ i + 1 = S.shreds

instance (i : ℕ) : Decidable (S.IsLast i) := inferInstanceAs (Decidable (_ ∧ _))

/-- The payloads of the shreds in `[a, b)`. -/
def bytes (a b : ℕ) : Bytes := payloads S.payload a b

/-- The transactions of batch `k`, none behind the last batch. -/
def txs (k : ℕ) : List VersionedTransaction :=
  if k < S.batches then batchTxs w (S.bytes (S.start k) (S.start (k + 1))) else []

/-- The transactions of the first `k` batches, in ledger order. -/
def txsBefore (k : ℕ) : List VersionedTransaction := (List.range k).flatMap S.txs

/-- All transactions, in ledger order. -/
def allTxs : List VersionedTransaction := S.txsBefore S.batches

/-- The entries of batch `k`. -/
def entries (k : ℕ) : List Entry :=
  match w.deserializeEntries (S.bytes (S.start k) (S.start (k + 1))) with
  | .ok es => es
  | .error _ => []

/-- The transactions of the entries of batch `k` that lie wholly in its shreds
    before `c`. -/
def streamed (k c : ℕ) : List VersionedTransaction :=
  extractTxs (arrived w (S.entries k) (S.bytes (S.start k) c).length)

/-- Nothing follows the vector in the payloads of a batch. -/
def Exact : Prop :=
  ∀ k < S.batches, (S.bytes (S.start k) (S.start (k + 1))).length = 8 + w.entry.total (S.entries k)

/-! ## The cut into batches -/

theorem start_mono {j k : ℕ} (hjk : j ≤ k) (hk : k ≤ S.batches) : S.start j ≤ S.start k := by
  induction k, hjk using Nat.le_induction with
  | base => exact le_rfl
  | succ k _ ih => exact (ih (by omega)).trans (S.start_lt k (by omega)).le

theorem start_lt_iff {j k : ℕ} (hj : j ≤ S.batches) (hk : k ≤ S.batches) :
    S.start j < S.start k ↔ j < k := by
  constructor
  · intro h
    by_contra hle
    have := S.start_mono (show k ≤ j by omega) hj
    omega
  · intro h
    exact (S.start_lt j (by omega)).trans_le (S.start_mono h hk)

theorem start_le_iff {j k : ℕ} (hj : j ≤ S.batches) (hk : k ≤ S.batches) :
    S.start j ≤ S.start k ↔ j ≤ k := by
  have := S.start_lt_iff hk hj
  omega

theorem start_inj {j k : ℕ} (hj : j ≤ S.batches) (hk : k ≤ S.batches)
    (h : S.start j = S.start k) : j = k := by
  have h1 := (S.start_le_iff hj hk).mp h.le
  have h2 := (S.start_le_iff hk hj).mp h.ge
  omega

/-- Every shred is in a batch. -/
theorem exists_batch {i : ℕ} (hi : i < S.shreds) :
    ∃ k < S.batches, S.start k ≤ i ∧ i < S.start (k + 1) := by
  have key : ∀ n ≤ S.batches, i < S.start n → ∃ k < n, S.start k ≤ i ∧ i < S.start (k + 1) := by
    intro n
    induction n with
    | zero => intro _ h; rw [S.start_zero] at h; omega
    | succ n ih =>
      intro hn h
      by_cases hle : S.start n ≤ i
      · exact ⟨n, by omega, hle, h⟩
      · obtain ⟨k, hk, h1, h2⟩ := ih (by omega) (by omega)
        exact ⟨k, by omega, h1, h2⟩
  exact key S.batches le_rfl hi

/-- The end of a batch at or behind `start k` is the end of batch `k` or of a
    later one. -/
theorem EndsBatch.next {i k : ℕ} (h : S.EndsBatch i) (hk : k ≤ S.batches) (hi : S.start k ≤ i) :
    ∃ j, k < j ∧ j ≤ S.batches ∧ S.start j = i + 1 := by
  obtain ⟨j, hj, hji⟩ := h
  refine ⟨j + 1, ?_, by omega, hji.symm⟩
  exact (S.start_lt_iff hk (by omega)).mp (by omega)

theorem endsBatch_start {k : ℕ} (hk : k < S.batches) : S.EndsBatch (S.start (k + 1) - 1) :=
  ⟨k, hk, by have := S.start_lt k hk; omega⟩

/-- Inside a batch, only its last shred ends a batch. -/
theorem EndsBatch.of_mem {i k : ℕ} (h : S.EndsBatch i) (hk : k < S.batches)
    (h1 : S.start k ≤ i) (h2 : i < S.start (k + 1)) : i + 1 = S.start (k + 1) := by
  obtain ⟨j, hkj, hj, hji⟩ := h.next S hk.le h1
  have := S.start_mono (show k + 1 ≤ j by omega) hj
  omega

/-- The first batch end from `start k` on is the end of batch `k`. -/
theorem EndsBatch.eq_next {i k : ℕ} (h : S.EndsBatch i) (hk : k ≤ S.batches) (hi : S.start k ≤ i)
    (hmin : ∀ j, S.start k ≤ j → j < i → ¬S.EndsBatch j) :
    k < S.batches ∧ i + 1 = S.start (k + 1) := by
  obtain ⟨j, hkj, hj, hji⟩ := h.next S hk hi
  have hk' : k < S.batches := by omega
  refine ⟨hk', ?_⟩
  have hlt := S.start_lt k hk'
  have hle := S.start_mono (show k + 1 ≤ j by omega) hj
  by_contra hne
  exact hmin (S.start (k + 1) - 1) (by omega) (by omega) (S.endsBatch_start hk')

/-- A stretch of shreds that does not run past a batch end lies in one batch. -/
theorem exists_batch_of_run {a b : ℕ} (hab : a < b) (hb : b ≤ S.shreds)
    (hmin : ∀ j, a ≤ j → j + 1 < b → ¬S.EndsBatch j) :
    ∃ k < S.batches, S.start k ≤ a ∧ b ≤ S.start (k + 1) := by
  obtain ⟨k, hk, h1, h2⟩ := S.exists_batch (show a < S.shreds by omega)
  refine ⟨k, hk, h1, ?_⟩
  by_contra hlt
  exact hmin (S.start (k + 1) - 1) (by omega) (by omega) (S.endsBatch_start hk)

/-- An index that is not the last of the slot fits into a `u32` with one to spare. -/
theorem lt_u32Max {i : ℕ} (hi : i < S.shreds) (hlast : ¬S.IsLast i) : i < u32Max := by
  have h := S.shreds_le
  have hi' : i < S.start S.batches := hi
  by_cases hc : S.closed
  · have : i + 1 ≠ S.start S.batches := fun he => hlast ⟨hc, he⟩
    rw [if_pos hc] at h
    omega
  · rw [if_neg hc] at h
    omega

/-! ## The bytes of a batch -/

theorem bytes_append {a b c : ℕ} (hab : a ≤ b) (hbc : b ≤ c) :
    S.bytes a b ++ S.bytes b c = S.bytes a c := payloads_append S.payload hab hbc

theorem bytes_succ {a b : ℕ} (hab : a ≤ b) : S.bytes a (b + 1) = S.bytes a b ++ S.payload b :=
  payloads_succ S.payload hab

theorem bytes_self (a : ℕ) : S.bytes a a = [] := payloads_self S.payload

theorem bytes_isPrefix {a b c : ℕ} (hab : a ≤ b) (hbc : b ≤ c) : S.bytes a b <+: S.bytes a c :=
  payloads_isPrefix S.payload hab hbc

variable {S} in
theorem exists_frame (hw : w.Lawful) {k : ℕ} (hk : k < S.batches) :
    ∃ pre tail, S.bytes (S.start k) (S.start (k + 1)) = pre ++ tail ∧
      VecFrame w (S.entries k) pre ∧ S.txs k = extractTxs (S.entries k) := by
  obtain ⟨t, ht⟩ := Option.isSome_iff_exists.mp (S.accepted k hk)
  obtain ⟨es, pre, tail, hb, hf, htxs⟩ := (decodeBatch_eq_some hw).mp ht
  change S.bytes (S.start k) (S.start (k + 1)) = pre ++ tail at hb
  have hes : S.entries k = es := by
    unfold entries
    rw [hb, deserializeEntries_append hw hf]
  refine ⟨pre, tail, hb, hes ▸ hf, ?_⟩
  rw [txs, if_pos hk, batchTxs, hb, decodeBatch_append hw hf, hes, Option.getD_some]

/-! ## What has been streamed -/

theorem streamed_start (k : ℕ) : S.streamed k (S.start k) = [] := by
  rw [streamed, bytes_self, List.length_nil, arrived_of_lt _ (by omega)]
  rfl

/-- In front of its first shred nothing of a batch has arrived. -/
theorem streamed_of_le {k c : ℕ} (hc : c ≤ S.start k) : S.streamed k c = [] := by
  have h : S.streamed k c = S.streamed k (S.start k) := by
    unfold streamed bytes payloads
    rw [show c - S.start k = 0 by omega, show S.start k - S.start k = 0 by omega]
  rw [h, streamed_start]

theorem streamed_mono {k c c' : ℕ} (hc : S.start k ≤ c) (hcc' : c ≤ c') :
    S.streamed k c <+: S.streamed k c' :=
  extractTxs_isPrefix (arrived_mono _ (S.bytes_isPrefix hc hcc').length_le)

variable {S} in
theorem streamed_isPrefix (hw : w.Lawful) {k : ℕ} (hk : k < S.batches) (c : ℕ) :
    S.streamed k c <+: S.txs k := by
  obtain ⟨pre, tail, -, -, htxs⟩ := exists_frame hw hk
  rw [htxs]
  exact extractTxs_isPrefix (arrived_isPrefix _ _)

variable {S} in
/-- All of a batch has been yielded once its last shred was pushed. -/
theorem streamed_stop (hw : w.Lawful) {k : ℕ} (hk : k < S.batches) :
    S.streamed k (S.start (k + 1)) = S.txs k := by
  obtain ⟨pre, tail, hb, hf, htxs⟩ := exists_frame hw hk
  rw [htxs, streamed, hb, hf.arrived_length (by simp)]

/-! ## Transactions -/

theorem txsBefore_zero : S.txsBefore 0 = [] := rfl

theorem txsBefore_succ (k : ℕ) : S.txsBefore (k + 1) = S.txsBefore k ++ S.txs k := by
  simp [txsBefore, List.range_succ]

theorem mem_txsBefore {k : ℕ} {tx : VersionedTransaction} :
    tx ∈ S.txsBefore k ↔ ∃ j < k, tx ∈ S.txs j := by
  simp [txsBefore]

theorem mem_allTxs {k : ℕ} (hk : k < S.batches) {tx : VersionedTransaction} (h : tx ∈ S.txs k) :
    tx ∈ S.allTxs := S.mem_txsBefore.mpr ⟨k, hk, h⟩

theorem txsBefore_isPrefix {j k : ℕ} (h : j ≤ k) : S.txsBefore j <+: S.txsBefore k := by
  induction k, h using Nat.le_induction with
  | base => exact List.prefix_rfl
  | succ k _ ih =>
    rw [txsBefore_succ]
    exact ih.trans (List.prefix_append _ _)

theorem distinct_allTxs : Distinct VersionedTransaction.firstSig S.allTxs := by
  have h : S.allTxs = (List.range S.batches).flatMap fun k =>
      batchTxs w (S.bytes (S.start k) (S.start (k + 1))) :=
    List.flatMap_congr fun k hk => if_pos (List.mem_range.mp hk)
  rw [h]
  exact S.distinct

theorem distinct_txs {k : ℕ} (hk : k < S.batches) :
    Distinct VersionedTransaction.firstSig (S.txs k) := by
  refine S.distinct_allTxs.of_sublist ?_
  refine List.Sublist.trans ?_ (S.txsBefore_isPrefix (show k + 1 ≤ S.batches by omega)).sublist
  rw [txsBefore_succ]
  exact List.sublist_append_right _ _

end Slot

end ShredStream
