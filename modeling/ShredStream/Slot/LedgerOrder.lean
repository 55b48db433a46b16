import ShredStream.Slot.Build

/-!
# Exactly-once delivery in ledger order

However the data shreds of an open slot arrive, what `push_data` has returned is
a beginning of the ledger: the batches that are complete, and what streaming
made of the next one.
-/

namespace ShredStream

open SlotAccumulator

namespace Slot

variable {C : Type} {env : Env C}

/-- The concatenation of what the calls return is the transactions of the
    complete leading batches followed by a beginning of the next batch. -/
theorem pushes_return_ledger_prefix (hw : env.wincode.Lawful) (S : Slot env.wincode)
    (hopen : S.closed = false) (cfg : AccumulatorConfig) (cache : ReedSolomonCache C)
    (calls : List (Clock × Call)) (hcalls : ∀ c ∈ calls, S.Pushes cfg c) (fuel : ℕ)
    (hfuel : 2 ^ 32 < fuel) :
    ∃ r, runCalls env fuel (.fresh cfg cache) calls = some r ∧
      ∃ p, p <+: S.txs (S.completeBatches (pushed calls)) ∧
        r.out = S.txsBefore (S.completeBatches (pushed calls)) ++ p := by
  obtain ⟨r, hrun, k, hfollows, hwait, -, -⟩ := deliver_follows hw S cfg cache hcalls hfuel
  -- every shred pushed is stored
  have hstored : ∀ i, i ∈ pushed calls ↔ i ∈ pushed calls ∧ S.Stored i := by
    refine fun i => ⟨fun hi => ⟨hi, ?_, fun hl => absurd hl.1 (by simp [hopen])⟩, And.left⟩
    obtain ⟨c, hc, hci⟩ := List.mem_filterMap.mp hi
    obtain ⟨⟨a, hca, ha⟩, -⟩ := hcalls c hc
    rw [hca] at hci
    cases hci
    exact ha.index_lt
  have hk := hfollows.eq_completeBatches hwait hstored
  refine ⟨r, hrun, S.streamed k r.acc.streamingCursor, ?_, ?_⟩
  · rw [← hk]
    rcases Nat.lt_or_eq_of_le hfollows.k_le with hlt | heq
    · exact S.streamed_isPrefix hw hlt _
    · -- behind the last batch nothing can be streamed
      have hcur : r.acc.streamingCursor = S.start k := by
        have h1 := hfollows.cursor_ge
        have h2 := hfollows.cursor_le
        rw [heq, S.stop_batches] at h2
        rw [heq] at h1 ⊢
        omega
      rw [hcur, streamed_start]
      exact List.nil_prefix
  · rw [← hk]
    exact hfollows.out_eq

/-- Two batches of one transaction each, the first one cut into two shreds. -/
def threeShreds : Slot legacyEnv.wincode :=
  ofPayloads _ [[(LegacyWire.encodeBatch [[LegacyWire.signedTx 1 []]]).take 80,
      (LegacyWire.encodeBatch [[LegacyWire.signedTx 1 []]]).drop 80],
    [LegacyWire.encodeBatch [[LegacyWire.signedTx 2 []]]]] false (by decide +kernel)

/-- The last batch comes first, and a shred twice. -/
theorem pushes_return_ledger_prefix_threeShreds :
    ∃ r, runCalls legacyEnv (2 ^ 32 + 1) (.fresh {} {}) (threeShreds.deliver [2, 1, 1, 0]) =
        some r ∧
      ∃ p, p <+: threeShreds.txs (threeShreds.completeBatches [2, 1, 1, 0]) ∧
        r.out = threeShreds.txsBefore (threeShreds.completeBatches [2, 1, 1, 0]) ++ p :=
  pushes_return_ledger_prefix LegacyWire.wincode_lawful threeShreds rfl {} {}
    (threeShreds.deliver [2, 1, 1, 0]) (pushes_deliver threeShreds (by decide) (by decide +kernel))
    (2 ^ 32 + 1) (by decide)

end Slot

end ShredStream
