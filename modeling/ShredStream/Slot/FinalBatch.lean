import ShredStream.Slot.ArrivalOrder

/-!
# The final batch of a slot

`push_data` returns early for the shred flagged `last_in_slot` and drops its
payload, so the last batch of a slot is never complete: it is streamed as far
as the shred before, or decoded by the harvest if nothing of it is missing.
`all_transactions_iff` says when that is the whole batch.
-/

namespace ShredStream

open FirstByKey SlotAccumulator SelfDelimiting

namespace Slot

section

variable {w : Wincode} {S : Slot w} {D : List ℕ}

/-- The last batch has a shred. -/
theorem start_lastBatch_lt (hne : 0 < S.batches) : S.start (S.batches - 1) < S.shreds := by
  have hlt := S.start_lt (S.batches - 1) (by omega)
  rwa [show S.batches - 1 + 1 = S.batches by omega] at hlt

/-- When every shred arrives, all batches of a closed slot but the last are complete. -/
theorem completeBatches_closed (hne : 0 < S.batches)
    (hD : ∀ i, i ∈ D ↔ i < S.shreds - 1) : S.completeBatches D = S.batches - 1 := by
  have hlast := start_lastBatch_lt hne
  rw [completeBatches, Nat.findGreatest_eq_iff]
  refine ⟨by omega, fun _ i hi => (hD i).mpr (by omega), fun n hn hle hall => ?_⟩
  have hn' : n = S.batches := by omega
  subst hn'
  unfold shreds at hlast hD
  have := (hD _).mp (hall (S.start S.batches - 1) (by omega))
  omega

/-- No batch end of the last batch is among the stored shreds. -/
theorem tailBoundaries_closed (hk : S.completeBatches D = S.batches - 1) (hne : 0 < S.batches)
    (hD : ∀ i, i ∈ D ↔ i < S.shreds - 1) : S.tailBoundaries D = [] := by
  rw [tailBoundaries, hk, List.filter_eq_nil_iff]
  intro i hi
  rw [List.mem_range'_1] at hi
  rw [decide_eq_true_eq, hD]
  rintro ⟨hlt, hends⟩
  have hstart := start_lastBatch_lt hne
  have := hends.of_mem S (show S.batches - 1 < S.batches by omega) hi.1 (by
    rw [show S.batches - 1 + 1 = S.batches by omega]
    unfold shreds at hi
    omega)
  rw [show S.batches - 1 + 1 = S.batches by omega] at this
  unfold shreds at hlt hstart
  omega

/-- What the harvest finds in the last batch without its last shred. -/
theorem tailTxs_closed (hw : w.Lawful) (hne : 0 < S.batches) (hexact : S.Exact)
    (hk : S.completeBatches D = S.batches - 1) (hD : ∀ i, i ∈ D ↔ i < S.shreds - 1)
    (seen : Finset Signature) :
    S.tailTxs D seen =
      if S.payload (S.shreds - 1) = [] then unseen seen (S.txs (S.batches - 1)) else [] := by
  have hlt : S.batches - 1 < S.batches := by omega
  have hsucc : S.batches - 1 + 1 = S.batches := by omega
  have hstart := start_lastBatch_lt hne
  -- the shreds of the batch but the last form one run
  have hfound : salvagedIn w (· ∈ D) S.payload (S.start (S.batches - 1)) S.shreds =
      decodeConcatenated w (S.bytes (S.start (S.batches - 1)) (S.shreds - 1)) := by
    unfold salvagedIn
    by_cases hone : S.start (S.batches - 1) = S.shreds - 1
    · rw [Runs.runsIn_skip hstart (by simp [hD, hone]), Runs.runsIn_empty (by omega), hone,
        bytes_self, decodeConcatenated_nil]
      rfl
    · rw [Runs.runsIn_block (b := S.shreds - 1) (by omega) (fun i _ hi => by simp [hD, hi])
        (by omega) (.inr (by simp [hD])), Runs.runsIn_skip (by omega) (by simp [hD]),
        Runs.runsIn_empty (by omega)]
      simp [bytes, payloads]
  rw [tailTxs, tailBoundaries_closed hk hne hD, tailYield, hk, hfound]
  -- the encoding ends with the last shred
  obtain ⟨pre, tail, hb, hf, htxs⟩ := S.exists_frame hw hlt
  have hlen := hexact _ hlt
  rw [hb, List.length_append, hf.length] at hlen
  have htail : tail = [] := List.length_eq_zero_iff.mp (by omega)
  rw [htail, List.append_nil, hsucc] at hb
  have hcut : S.bytes (S.start (S.batches - 1)) (S.shreds - 1) ++ S.payload (S.shreds - 1) = pre := by
    rw [← hb, ← S.bytes_succ (by omega)]
    congr 1
    unfold shreds at hstart ⊢
    omega
  have hiff : S.bytes (S.start (S.batches - 1)) (S.shreds - 1) = pre ↔
      S.payload (S.shreds - 1) = [] := by
    rw [← hcut]
    exact List.self_eq_append_right
  rw [decodeConcatenated_isPrefix hw hf ⟨_, hcut⟩]
  simp only [hiff, htxs]
  split_ifs
  · rfl
  · rfl

/-- Of a closed slot all is stored but the last shred. -/
theorem mem_storedPart_closed (hclosed : S.closed = true) (hpos : 0 < S.shreds) {pushed : List ℕ}
    (hall : ∀ i < S.shreds, i ∈ pushed) (i : ℕ) :
    i ∈ S.storedPart pushed ↔ i < S.shreds - 1 := by
  rw [S.mem_storedPart]
  constructor
  · rintro ⟨-, hi, hlast⟩
    have hnot : ¬i + 1 = S.shreds := fun h => hlast ⟨hclosed, h⟩
    omega
  · intro hi
    refine ⟨hall i (by omega), by omega, fun hlast => ?_⟩
    have heq := hlast.2
    omega

/-- Streaming gets up to the last shred. -/
theorem leading_closed (hne : 0 < S.batches) (hD : ∀ i, i ∈ D ↔ i < S.shreds - 1) :
    S.leading D = S.streamed (S.batches - 1) (S.shreds - 1) := by
  have hlt := start_lastBatch_lt hne
  have hle : S.start (S.batches - 1) ≤ S.shreds - 1 := by omega
  rw [leading, completeBatches_closed hne hD,
    gap_eq hle (by rw [hD]; omega) fun i _ hi => (hD i).mpr hi]

/-- A beginning of a batch behind the batches before it: nothing is missing only if it
    is all of the batch. -/
theorem same_txs_iff {k : ℕ} (hk : k < S.batches) {T : List VersionedTransaction}
    (hT : T <+: S.txs k) :
    (∀ tx, tx ∈ S.txsBefore k ++ T ↔ tx ∈ S.txsBefore k ++ S.txs k) ↔ T = S.txs k := by
  constructor
  · intro h
    have hnodup : (S.txs k).Nodup := List.Nodup.of_map _ (S.distinct_txs hk).2
    refine hT.eq_of_length_le (hnodup.subperm fun tx htx => ?_).length_le
    exact (List.mem_append.mp ((h tx).mpr (List.mem_append_right _ htx))).resolve_left
      (not_mem_txsBefore hk htx)
  · rintro rfl
    simp

end

variable {C : Type} {env : Env C}

/-- Once all shreds of a closed slot have been pushed, in any order and with
    duplicates, and the tail was harvested, exactly the transactions of the slot
    were returned if and only if the last batch has none, or its last shred has
    no payload, or a shred of the last batch arrived after the batches before it
    and every transaction of the batch lies in an entry that ends before the
    last shred. -/
theorem all_transactions_iff (hw : env.wincode.Lawful) (S : Slot env.wincode)
    (hclosed : S.closed = true) (hne : 0 < S.batches) (hexact : S.Exact) (cfg : AccumulatorConfig)
    (cache : ReedSolomonCache C) (calls : List (Clock × Call)) (hcalls : ∀ c ∈ calls, S.Pushes cfg c)
    (hall : ∀ i < S.shreds, i ∈ pushed calls) (clock : Clock) (fuel : ℕ) (hfuel : 2 ^ 32 < fuel) :
    ∃ r, runCalls env fuel (.fresh cfg cache) (calls ++ [(clock, .harvest)]) = some r ∧
      ((∀ tx, tx ∈ r.out ↔ tx ∈ S.allTxs) ↔
        S.txs (S.batches - 1) = [] ∨ S.payload (S.shreds - 1) = [] ∨
          (S.Resumes (pushed calls) (S.start (S.batches - 1)) ∧
            S.streamed (S.batches - 1) (S.shreds - 1) = S.txs (S.batches - 1))) := by
  have hlt : S.batches - 1 < S.batches := by omega
  have hD := mem_storedPart_closed hclosed (Nat.zero_lt_of_lt (start_lastBatch_lt hne)) hall
  have hk := completeBatches_closed hne hD
  have hleading := leading_closed hne hD
  obtain ⟨r, hrun, T, hout, hres, hnres⟩ := deliver_harvest hw S cfg cache hcalls clock hfuel rfl
  refine ⟨r, hrun, ?_⟩
  rw [hk] at hout hres hnres
  have hsplit : S.allTxs = S.txsBefore (S.batches - 1) ++ S.txs (S.batches - 1) := by
    rw [← txsBefore_succ, show S.batches - 1 + 1 = S.batches by omega]
    rfl
  have hTprefix : T <+: S.txs (S.batches - 1) := by
    by_cases h : S.Resumes (pushed calls) (S.start (S.batches - 1))
    · rw [hres h, hleading]
      exact S.streamed_isPrefix hw hlt _
    · rw [hnres h]
      exact List.nil_prefix
  rw [hout, tailTxs_closed hw hne hexact hk hD, hsplit]
  by_cases hempty : S.payload (S.shreds - 1) = []
  · -- the harvest finds what streaming has left
    rw [if_pos hempty]
    obtain ⟨rest, hrest⟩ := hTprefix
    have hunseen : unseen (sigKeys T) (S.txs (S.batches - 1)) = rest := by
      have hdist := S.distinct_txs hlt
      rw [← hrest] at hdist ⊢
      exact hdist.fresh_append_right
    rw [hunseen, hrest]
    simp [hempty]
  · -- only what was streamed of the last batch is there
    rw [if_neg hempty, List.append_nil, same_txs_iff hlt hTprefix]
    simp only [hempty, false_or]
    by_cases h : S.Resumes (pushed calls) (S.start (S.batches - 1))
    · rw [hres h, hleading]
      simp only [h, true_and, iff_or_self]
      intro hnil
      rw [hnil]
      exact List.prefix_nil.mp (hnil ▸ S.streamed_isPrefix hw hlt _)
    · rw [hnres h]
      simp only [h, false_and, or_false]
      exact eq_comm

/-- Two batches, the second of which ends with an entry without transactions in the
    last shred of the slot. -/
def lateEntry : Slot legacyEnv.wincode :=
  let final := LegacyWire.encodeBatch [[LegacyWire.signedTx 2 []], []]
  ofPayloads _ [[LegacyWire.encodeBatch [[LegacyWire.signedTx 1 []]]],
    [final.take (final.length - 48), final.drop (final.length - 48)]] true (by decide +kernel)

theorem exact_lateEntry : lateEntry.Exact := by
  have hall : ∀ k : Fin 2, (lateEntry.bytes (lateEntry.start k) (lateEntry.start (k + 1))).length =
      8 + legacyEnv.wincode.entry.total (lateEntry.entries k) := by decide +kernel
  exact fun k hk => hall ⟨k, hk⟩

/-- The shreds arrive in order, so all that the last shred takes with it is the entry
    without transactions. -/
theorem all_transactions_iff_lateEntry :
    lateEntry.txs 1 ≠ [] ∧ lateEntry.payload 2 ≠ [] ∧
      ∃ r, runCalls legacyEnv (2 ^ 32 + 1) (.fresh {} {}) (lateEntry.deliverAll [0, 1, 2]) =
        some r ∧ ∀ tx, tx ∈ r.out ↔ tx ∈ lateEntry.allTxs := by
  obtain ⟨r, hrun, hiff⟩ := all_transactions_iff LegacyWire.wincode_lawful lateEntry rfl (by decide)
    exact_lateEntry {} {} (lateEntry.deliver [0, 1, 2])
    (pushes_deliver lateEntry (by decide) (by decide +kernel))
    (by rw [pushed_deliver]; decide +kernel) _ (2 ^ 32 + 1) (by decide)
  have hresumes : lateEntry.Resumes [0, 1, 2] 1 :=
    ⟨[0], 1, [2], rfl, le_rfl, by decide +kernel, by decide, by simp⟩
  have hstreamed : lateEntry.streamed 1 2 = lateEntry.txs 1 := by decide +kernel
  exact ⟨by decide +kernel, by decide +kernel, r, hrun,
    hiff.mpr (.inr (.inr ⟨by rw [pushed_deliver]; exact hresumes, hstreamed⟩))⟩

/-- A slot of one batch in one shred. -/
def oneShred : Slot legacyEnv.wincode :=
  ofPayloads _ [[LegacyWire.encodeBatch [[LegacyWire.signedTx 1 []]]]] true (by decide +kernel)

theorem exact_oneShred : oneShred.Exact := by
  intro k hk
  obtain rfl : k = 0 := by
    have : oneShred.batches = 1 := rfl
    omega
  decide +kernel

/-- The only shred of a slot is its last one: nothing is returned. -/
theorem last_shred_lost :
    ¬∀ (S : Slot legacyEnv.wincode) (order : List ℕ), S.closed = true → S.Exact →
      (∀ i ∈ order, i < S.shreds) → (∀ i < S.shreds, i ∈ order) →
      ∃ r, runCalls legacyEnv (2 ^ 32 + 1) (.fresh {} {}) (S.deliverAll order) = some r ∧
        ∀ tx, tx ∈ r.out ↔ tx ∈ S.allTxs := by
  intro h
  obtain ⟨r, hrun, hsame⟩ :=
    h oneShred [0] rfl exact_oneShred (by decide +kernel) (by decide +kernel)
  have hout : (runCalls legacyEnv (2 ^ 32 + 1) (.fresh {} {}) (oneShred.deliverAll [0])).map
      (·.out) = some [] := by decide +kernel
  rw [hrun, Option.map_some, Option.some.injEq] at hout
  have := (hsame (LegacyWire.signedTx 1 [])).mpr (by decide +kernel)
  rw [hout] at this
  cases this

end Slot

end ShredStream
