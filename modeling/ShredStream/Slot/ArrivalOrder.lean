import ShredStream.Slot.Build
import ShredStream.Slot.Tail

/-!
# Does the order of arrival matter?

It does: `advance_streaming` is not called again after a flush has moved on to
the next batch, so the leading entries of an incomplete batch are delivered only
if one more shred arrives behind them. `same_transactions_iff` says when two
orders give the same transactions all the same.
-/

namespace ShredStream

open FirstByKey SlotAccumulator

namespace Slot

section

variable {w : Wincode} {S : Slot w} {D : List ℕ}

/-- The leading transactions of the first incomplete batch are found by the
    harvest as well, and recording them before it hides no other transaction. -/
def TailCovers (S : Slot w) (D : List ℕ) : Prop :=
  (∀ tx ∈ S.leading D, tx ∈ S.tailTxs D ∅) ∧
    ∀ tx ∈ S.tailTxs D ∅, (∃ t ∈ S.leading D, t.firstSig = tx.firstSig) →
      tx ∈ S.leading D ∨ tx ∈ S.txsBefore (S.completeBatches D) ∨
        tx ∈ S.tailTxs D (sigKeys (S.leading D))

theorem completeBatches_le (S : Slot w) (D : List ℕ) : S.completeBatches D ≤ S.batches :=
  Nat.findGreatest_le _

theorem leading_isPrefix (hw : w.Lawful) (hD : ∀ i ∈ D, i < S.shreds) :
    S.leading D <+: S.txs (S.completeBatches D) := by
  rcases Nat.lt_or_eq_of_le (S.completeBatches_le D) with hk | hk
  · exact S.streamed_isPrefix hw hk _
  · have hgap : gap D (S.start (S.completeBatches D)) = S.start (S.completeBatches D) := by
      refine gap_eq le_rfl (fun hmem => ?_) fun i h1 h2 => by omega
      have := hD _ hmem
      rw [hk] at this
      exact lt_irrefl _ this
    rw [leading, hgap, streamed_start]
    exact List.nil_prefix

/-- A transaction of a batch is not one of an earlier batch. -/
theorem not_mem_txsBefore {k : ℕ} (hk : k < S.batches) {tx : VersionedTransaction}
    (h : tx ∈ S.txs k) : tx ∉ S.txsBefore k := by
  intro hbefore
  have hdist := S.distinct_allTxs.of_sublist
    (S.txsBefore_isPrefix (show k + 1 ≤ S.batches by omega)).sublist
  rw [txsBefore_succ] at hdist
  have hnd := List.nodup_append.mp (List.Nodup.of_map _ hdist.2)
  exact hnd.2.2 tx hbefore tx h rfl

theorem mem_leading (hw : w.Lawful) (hD : ∀ i ∈ D, i < S.shreds) {tx : VersionedTransaction}
    (h : tx ∈ S.leading D) : tx ∉ S.txsBefore (S.completeBatches D) := by
  have htx := (leading_isPrefix hw hD).subset h
  refine not_mem_txsBefore ?_ htx
  by_contra hk
  rw [txs, if_neg hk] at htx
  cases htx

/-- Streaming first and harvesting only return the same transactions exactly when
    the harvest covers what streaming yields. -/
theorem mem_iff_tailCovers (hw : w.Lawful) (hD : ∀ i ∈ D, i < S.shreds) :
    (∀ tx, tx ∈ S.txsBefore (S.completeBatches D) ++
        (S.leading D ++ S.tailTxs D (sigKeys (S.leading D))) ↔
      tx ∈ S.txsBefore (S.completeBatches D) ++ ([] ++ S.tailTxs D (sigKeys []))) ↔
    S.TailCovers D := by
  have hnil : sigKeys [] = ∅ := rfl
  simp only [List.mem_append, List.nil_append, hnil]
  constructor
  · intro h
    refine ⟨fun tx htx => ?_, fun tx htx _ => ?_⟩
    · exact ((h tx).mp (.inr (.inl htx))).resolve_left (mem_leading hw hD htx)
    · rcases (h tx).mpr (.inr htx) with h | h | h
      · exact .inr (.inl h)
      · exact .inl h
      · exact .inr (.inr h)
  · rintro ⟨hcover, hhide⟩ tx
    constructor
    · rintro (h | h | h)
      · exact .inl h
      · exact .inr (hcover tx h)
      · obtain ⟨sig, hsig⟩ := firstSig_of_mem_tailYield h
        exact .inr (mem_tailYield_of_mem h hsig (Finset.notMem_empty sig))
    · rintro (h | h)
      · exact .inl h
      · obtain ⟨sig, hsig⟩ := firstSig_of_mem_tailYield h
        by_cases hseen : sig ∈ sigKeys (S.leading D)
        · obtain ⟨t, ht, hts⟩ := mem_keys.mp hseen
          rcases hhide tx h ⟨t, ht, by rw [hts, hsig]⟩ with h' | h' | h'
          · exact .inr (.inl h')
          · exact .inl h'
          · exact .inr (.inr h')
        · exact .inr (.inr (mem_tailYield_of_mem h hsig hseen))

end

variable {C : Type} {env : Env C}

/-- Two orders of arrival of the same shreds give the same set of transactions
    exactly when both or neither make streaming resume in the first incomplete
    batch, or the harvest covers the difference. -/
theorem same_transactions_iff (hw : env.wincode.Lawful) (S : Slot env.wincode)
    (cfg : AccumulatorConfig) (cache cache' : ReedSolomonCache C)
    (calls calls' : List (Clock × Call)) (hcalls : ∀ c ∈ calls, S.Pushes cfg c)
    (hcalls' : ∀ c ∈ calls', S.Pushes cfg c)
    (hsame : ∀ i, i ∈ pushed calls ↔ i ∈ pushed calls') (clock clock' : Clock) (fuel : ℕ)
    (hfuel : 2 ^ 32 < fuel) :
    let D := S.storedPart (pushed calls)
    let b := S.start (S.completeBatches D)
    ∃ r r', runCalls env fuel (.fresh cfg cache) (calls ++ [(clock, .harvest)]) = some r ∧
      runCalls env fuel (.fresh cfg cache') (calls' ++ [(clock', .harvest)]) = some r' ∧
      ((∀ tx, tx ∈ r.out ↔ tx ∈ r'.out) ↔
        ((S.Resumes (pushed calls) b ↔ S.Resumes (pushed calls') b) ∨ S.TailCovers D)) := by
  intro D b
  have hD : ∀ i ∈ D, i < S.shreds := fun i hi => (S.mem_storedPart.mp hi).2.1
  have hDD' : ∀ i, i ∈ D ↔ i ∈ S.storedPart (pushed calls') := by
    intro i
    rw [S.mem_storedPart, S.mem_storedPart, hsame]
  obtain ⟨r, hrun, T, hout, hres, hnres⟩ :=
    deliver_harvest hw S cfg cache hcalls clock hfuel (D := D) rfl
  obtain ⟨r', hrun', T', hout', hres', hnres'⟩ :=
    deliver_harvest hw S cfg cache' hcalls' clock' hfuel rfl
  rw [← completeBatches_congr hDD', ← tailTxs_congr hDD'] at hout'
  rw [← completeBatches_congr hDD'] at hres' hnres'
  rw [← leading_congr hDD'] at hres'
  refine ⟨r, r', hrun, hrun', ?_⟩
  have hcovers := mem_iff_tailCovers hw hD
  rw [hout, hout']
  by_cases h : S.Resumes (pushed calls) b <;> by_cases h' : S.Resumes (pushed calls') b
  · rw [hres h, hres' h']
    simp [h, h']
  · rw [hres h, hnres' h', hcovers]
    simp [h, h']
  · rw [hnres h, hres' h']
    simp only [h, h', false_iff, not_true_eq_false, false_or]
    rw [← hcovers]
    exact forall_congr' fun tx => Iff.comm
  · rw [hnres h, hnres' h']
    simp [h, h']

/-- A batch of one shred, and one of two entries with a shred each. -/
def twoEntries : Slot legacyEnv.wincode :=
  ofPayloads _ [[LegacyWire.encodeBatch [[LegacyWire.signedTx 1 []]]],
    [(LegacyWire.encodeBatch [[LegacyWire.signedTx 2 []], [LegacyWire.signedTx 3 []]]).take 158,
      (LegacyWire.encodeBatch [[LegacyWire.signedTx 2 []], [LegacyWire.signedTx 3 []]]).drop 158]]
    true (by decide +kernel)

theorem same_transactions_iff_twoEntries :
    let D := twoEntries.storedPart [0, 1]
    let b := twoEntries.start (twoEntries.completeBatches D)
    ∃ r r', runCalls legacyEnv (2 ^ 32 + 1) (.fresh {} {}) (twoEntries.deliverAll [0, 1]) = some r ∧
      runCalls legacyEnv (2 ^ 32 + 1) (.fresh {} {}) (twoEntries.deliverAll [1, 0]) = some r' ∧
      ((∀ tx, tx ∈ r.out ↔ tx ∈ r'.out) ↔
        ((twoEntries.Resumes [0, 1] b ↔ twoEntries.Resumes [1, 0] b) ∨ twoEntries.TailCovers D)) :=
  same_transactions_iff LegacyWire.wincode_lawful twoEntries {} {} {} (twoEntries.deliver [0, 1])
    (twoEntries.deliver [1, 0]) (pushes_deliver twoEntries (by decide) (by decide +kernel))
    (pushes_deliver twoEntries (by decide) (by decide +kernel))
    (by simp [pushed_deliver, or_comm]) _ _ (2 ^ 32 + 1) (by decide)

/-- Shred 1 first: its entry is lost with the rest of the batch. -/
theorem arrival_order_matters :
    ¬∀ (S : Slot legacyEnv.wincode) (order order' : List ℕ), (∀ i ∈ order, i < S.shreds) →
      (∀ i, i ∈ order ↔ i ∈ order') →
      ∃ r r', runCalls legacyEnv (2 ^ 32 + 1) (.fresh {} {}) (S.deliverAll order) = some r ∧
        runCalls legacyEnv (2 ^ 32 + 1) (.fresh {} {}) (S.deliverAll order') = some r' ∧
        ∀ tx, tx ∈ r.out ↔ tx ∈ r'.out := by
  intro h
  obtain ⟨r, r', hrun, hrun', hsame⟩ :=
    h twoEntries [0, 1] [1, 0] (by decide +kernel) (by simp [or_comm])
  have h1 : (runCalls legacyEnv (2 ^ 32 + 1) (.fresh {} {}) (twoEntries.deliverAll [0, 1])).map
      (·.out) = some [LegacyWire.signedTx 1 [], LegacyWire.signedTx 2 []] := by decide +kernel
  have h2 : (runCalls legacyEnv (2 ^ 32 + 1) (.fresh {} {}) (twoEntries.deliverAll [1, 0])).map
      (·.out) = some [LegacyWire.signedTx 1 []] := by decide +kernel
  rw [hrun, Option.map_some, Option.some.injEq] at h1
  rw [hrun', Option.map_some, Option.some.injEq] at h2
  have := (hsame (LegacyWire.signedTx 2 [])).mp (by rw [h1]; decide +kernel)
  rw [h2] at this
  revert this
  decide +kernel

end Slot

end ShredStream
