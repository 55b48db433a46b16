import ShredStream.Accumulator.Flush

/-!
# What the tail harvest returns

`tailYield` computes from the pending payloads alone what `try_harvest_tail`
returns after its recovery attempts: each segment up to a boundary, decoded if
it is complete and salvaged if not, and the runs behind the last boundary.
`harvest_eq` is the correctness statement.
-/

namespace ShredStream

open FirstByKey

/-- The transactions found in the shreds `p` of `[a, b)`. -/
def segmentTxs (w : Wincode) (p : ℕ → Bool) (payload : ℕ → Bytes) (a b : ℕ) :
    List VersionedTransaction :=
  if (List.range' a (b - a)).all p then batchTxs w ((List.range' a (b - a)).flatMap payload)
  else salvagedIn w p payload a b

/-- The yield of a harvest that starts at `a`, with `seen` recorded, over the
    boundaries `bs`; no shred is at `N` or behind. -/
def tailYield (w : Wincode) (p : ℕ → Bool) (payload : ℕ → Bytes) (N : ℕ) :
    Finset Signature → ℕ → List ℕ → List VersionedTransaction
  | seen, a, [] => unseen seen (salvagedIn w p payload a N)
  | seen, a, b :: bs =>
    unseen seen (segmentTxs w p payload a (b + 1)) ++ tailYield w p payload N ∅ (b + 1) bs

section congr

variable {w : Wincode} {p p' : ℕ → Bool} {payload payload' : ℕ → Bytes} {a : ℕ}

theorem salvagedIn_congr {b : ℕ} (h : ∀ i, a ≤ i → p i = p' i ∧ (p i = true → payload i = payload' i)) :
    salvagedIn w p payload a b = salvagedIn w p' payload' a b := by
  unfold salvagedIn
  rw [← Runs.runsIn_congr fun i hi => (h i hi).1]
  refine List.flatMap_congr fun run hrun => ?_
  obtain ⟨x, y, rfl, hax, -, -, hp, -⟩ := Runs.runsIn_shape hrun
  congr 1
  refine List.flatMap_congr fun i hi => ?_
  rw [List.mem_range'_1] at hi
  exact (h i (by omega)).2 (hp i hi.1 (by omega))

theorem segmentTxs_congr {b : ℕ} (h : ∀ i, a ≤ i → p i = p' i ∧ (p i = true → payload i = payload' i)) :
    segmentTxs w p payload a b = segmentTxs w p' payload' a b := by
  have hall : (List.range' a (b - a)).all p = (List.range' a (b - a)).all p' := by
    rw [Bool.eq_iff_iff, List.all_eq_true, List.all_eq_true]
    refine forall₂_congr fun i hi => ?_
    rw [List.mem_range'_1] at hi
    rw [(h i hi.1).1]
  unfold segmentTxs
  rw [← hall, salvagedIn_congr h]
  split_ifs with hp
  · congr 1
    refine List.flatMap_congr fun i hi => ?_
    have hpi := List.all_eq_true.mp hp i hi
    rw [List.mem_range'_1] at hi
    exact (h i hi.1).2 hpi
  · rfl

/-- The yield depends on the shreds from the start on only. -/
theorem tailYield_congr {N : ℕ} {seen : Finset Signature} {bs : List ℕ} (hbs : ∀ b ∈ bs, a ≤ b)
    (hsorted : bs.Pairwise (· < ·))
    (h : ∀ i, a ≤ i → p i = p' i ∧ (p i = true → payload i = payload' i)) :
    tailYield w p payload N seen a bs = tailYield w p' payload' N seen a bs := by
  induction bs generalizing a seen with
  | nil => rw [tailYield, tailYield, salvagedIn_congr h]
  | cons b bs ih =>
    have hab := hbs b List.mem_cons_self
    rw [List.pairwise_cons] at hsorted
    rw [tailYield, tailYield, segmentTxs_congr h,
      ih (fun c hc => hsorted.1 c hc) hsorted.2 fun i hi => h i (by omega)]

end congr

section mem

variable {w : Wincode} {p : ℕ → Bool} {payload : ℕ → Bytes} {N a : ℕ} {bs : List ℕ}
  {tx : VersionedTransaction}

/-- What is found has a signature. -/
theorem firstSig_of_mem_tailYield {seen : Finset Signature}
    (h : tx ∈ tailYield w p payload N seen a bs) : ∃ sig, tx.firstSig = some sig := by
  induction bs generalizing a seen with
  | nil =>
    obtain ⟨sig, hsig, -⟩ := key_of_mem_fresh h
    exact ⟨sig, hsig⟩
  | cons b bs ih =>
    rcases List.mem_append.mp h with h | h
    · obtain ⟨sig, hsig, -⟩ := key_of_mem_fresh h
      exact ⟨sig, hsig⟩
    · exact ih h

/-- Which signatures were recorded before only matters to their own transactions. -/
theorem mem_tailYield_of_mem {seen seen' : Finset Signature} {sig : Signature}
    (h : tx ∈ tailYield w p payload N seen a bs) (hsig : tx.firstSig = some sig)
    (hs : sig ∉ seen') : tx ∈ tailYield w p payload N seen' a bs := by
  cases bs with
  | nil => exact mem_fresh_of_mem_fresh h hsig hs
  | cons b bs =>
    rcases List.mem_append.mp h with h | h
    · exact List.mem_append_left _ (mem_fresh_of_mem_fresh h hsig hs)
    · exact List.mem_append_right _ h

end mem

namespace SlotAccumulator

variable {C : Type} (env : Env C)

/-- The loop over the runs of what is left. -/
theorem harvestRuns_eq (acc : SlotAccumulator) (out : List VersionedTransaction)
    (runs : List (List ℕ)) :
    harvestRuns env acc out runs =
      (acc.record (runs.flatMap fun run => decodeConcatenated env.wincode (run.flatMap acc.payloadAt)),
        out ++ unseen acc.yieldedSigs
          (runs.flatMap fun run => decodeConcatenated env.wincode (run.flatMap acc.payloadAt))) := by
  induction runs generalizing acc out with
  | nil => simp [harvestRuns]
  | cons run runs ih =>
    simp only [harvestRuns, decodeRun_eq, recordAll_eq, ih]
    rw [record_record, List.append_assoc, List.flatMap_cons, unseen, unseen, unseen, fresh_append]
    rfl

/-- The boundary loop and the loop over the runs together. -/
theorem harvestBoundaries_eq {fuel : ℕ} (hfuel : 2 ^ 32 < fuel) {N : ℕ} {bs : List ℕ}
    (acc : SlotAccumulator) (out : List VersionedTransaction) (hsorted : bs.Pairwise (· < ·))
    (hbs : ∀ b ∈ bs, acc.batchStart ≤ b ∧ b < u32Max)
    (hpend : ∀ i ∈ acc.pending, acc.batchStart ≤ i ∧ i < N) :
    ∃ acc' out', harvestBoundaries env fuel acc out bs = some (acc', out') ∧
      (harvestRuns env acc' out' (Runs.runs acc'.pending.keys)).2 =
        out ++ tailYield env.wincode (· ∈ acc.pending) acc.payloadAt N acc.yieldedSigs
          acc.batchStart bs := by
  induction bs generalizing acc out with
  | nil =>
    refine ⟨acc, out, rfl, ?_⟩
    rw [harvestRuns_eq, acc.pending.keys_eq_filter hpend, tailYield]
    rfl
  | cons b bs ih =>
    rw [List.pairwise_cons] at hsorted
    obtain ⟨hge, hlt⟩ := hbs b List.mem_cons_self
    rcases harvestBoundary_cases env hfuel acc hlt out with ⟨h, -⟩ | ⟨-, counters, txs, hrun, htxs⟩
    · omega
    have hsat : satAdd32 b 1 = b + 1 := satAdd32_of_lt hlt
    have hstart : (acc.finalise txs counters b).batchStart = b + 1 := hsat
    have hmem : ∀ i, i ∈ (acc.finalise txs counters b).pending ↔ i ∈ acc.pending ∧ b + 1 ≤ i := by
      intro i
      refine (mem_completeBatch_pending _).trans ?_
      rw [hsat]
      rfl
    obtain ⟨acc', out', hrest, hyield⟩ := ih (acc.finalise txs counters b)
      (out ++ unseen acc.yieldedSigs txs) hsorted.2
      (fun c hc => ⟨by rw [hstart]; exact hsorted.1 c hc, (hbs c (List.mem_cons_of_mem _ hc)).2⟩)
      (fun i hi => ⟨by rw [hstart]; exact ((hmem i).mp hi).2, (hpend i ((hmem i).mp hi).1).2⟩)
    refine ⟨acc', out', ?_, ?_⟩
    · simp only [harvestBoundaries, hrun, Option.bind_eq_bind, Option.bind_some, hrest]
    rw [hyield, hstart, tailYield, List.append_assoc]
    -- the shreds behind the boundary are those there were before
    have hcongr : tailYield env.wincode (· ∈ (acc.finalise txs counters b).pending)
        (acc.finalise txs counters b).payloadAt N ∅ (b + 1) bs =
        tailYield env.wincode (· ∈ acc.pending) acc.payloadAt N ∅ (b + 1) bs :=
      tailYield_congr (fun c hc => hsorted.1 c hc) hsorted.2 fun i hi => ⟨by simp [hmem, hi],
        fun _ => completeBatch_payloadAt _ (by rw [hsat]; exact hi)⟩
    rw [show (acc.finalise txs counters b).yieldedSigs = ∅ from rfl, hcongr]
    congr 2
    unfold segmentTxs
    rcases htxs with ⟨hall, rfl⟩ | ⟨⟨i, h1, h2, hi⟩, rfl⟩
    · rw [if_pos]
      · rfl
      · rw [List.all_eq_true]
        intro i hi
        rw [List.mem_range'_1] at hi
        simpa using hall i hi.1 (by omega)
    · rw [if_neg]
      · rfl
      · rw [List.all_eq_true]
        intro hall
        have := hall i (by rw [List.mem_range'_1]; omega)
        simp [hi] at this

end SlotAccumulator

end ShredStream
