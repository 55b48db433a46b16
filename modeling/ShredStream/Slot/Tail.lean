import ShredStream.Accumulator.Harvest
import ShredStream.Slot.Delivery

/-!
# What a slot delivers in all

After any sequence of pushes the tail harvest returns a function of the shreds
that arrived and of what streaming has yielded of the first incomplete batch;
the latter is all the arrival order decides (`deliver_harvest`).
-/

namespace ShredStream

open FirstByKey SlotAccumulator

namespace Slot

section

variable {w : Wincode} (S : Slot w)

/-- The shreds of `order` that are stored. -/
def storedPart (order : List ℕ) : List ℕ := order.filter (S.Stored ·)

theorem mem_storedPart {order : List ℕ} {i : ℕ} :
    i ∈ S.storedPart order ↔ i ∈ order ∧ S.Stored i := by
  simp [storedPart]

theorem exists_gap (D : List ℕ) (a : ℕ) : ∃ i, a ≤ i ∧ i ∉ D := by
  refine ⟨a + (D.sum + 1), by omega, fun h => ?_⟩
  have := List.single_le_sum (fun _ _ => Nat.zero_le _) _ h
  omega

/-- The first index from `a` on that is not in `D`. -/
def gap (D : List ℕ) (a : ℕ) : ℕ := Nat.find (exists_gap D a)

/-- The transactions of the entries of the first incomplete batch that lie
    wholly in its leading shreds. -/
def leading (D : List ℕ) : List VersionedTransaction :=
  S.streamed (S.completeBatches D) (gap D (S.start (S.completeBatches D)))

/-- The batch ends among the shreds `D` behind the complete batches. -/
def tailBoundaries (D : List ℕ) : List ℕ :=
  (List.range' (S.start (S.completeBatches D)) (S.shreds - S.start (S.completeBatches D))).filter
    fun i => i ∈ D ∧ S.EndsBatch i

/-- What the harvest finds behind the complete batches, with `seen` recorded. -/
def tailTxs (D : List ℕ) (seen : Finset Signature) : List VersionedTransaction :=
  tailYield w (· ∈ D) S.payload S.shreds seen (S.start (S.completeBatches D)) (S.tailBoundaries D)

variable {S}

theorem gap_eq {D : List ℕ} {a c : ℕ} (hac : a ≤ c) (hc : c ∉ D)
    (hall : ∀ i, a ≤ i → i < c → i ∈ D) : gap D a = c := by
  refine (Nat.find_eq_iff _).mpr ⟨⟨hac, hc⟩, fun n hn h => h.2 (hall n h.1 hn)⟩

theorem completeBatches_congr {D D' : List ℕ} (h : ∀ i, i ∈ D ↔ i ∈ D') :
    S.completeBatches D = S.completeBatches D' := by
  simp only [completeBatches, h]

theorem leading_congr {D D' : List ℕ} (h : ∀ i, i ∈ D ↔ i ∈ D') : S.leading D = S.leading D' := by
  simp only [leading, gap, completeBatches_congr h, h]

theorem tailTxs_congr {D D' : List ℕ} (h : ∀ i, i ∈ D ↔ i ∈ D') (seen : Finset Signature) :
    S.tailTxs D seen = S.tailTxs D' seen := by
  simp only [tailTxs, tailBoundaries, completeBatches_congr h, h]

end

variable {C : Type} {env : Env C} {S : Slot env.wincode} {cfg : AccumulatorConfig}
  {D : ℕ → Prop} {k : ℕ} {acc : SlotAccumulator} {out : List VersionedTransaction}

/-- The boundaries the harvest goes through. -/
theorem Aligned.boundaries_eq (h : S.Aligned k acc) :
    ((acc.pending.toList.filter fun e => e.2.batchComplete).map Prod.fst).filter
        (· ≥ acc.batchStart) =
      (List.range' (S.start k) (S.shreds - S.start k)).filter
        fun i => i ∈ acc.pending ∧ S.EndsBatch i := by
  apply List.Pairwise.eq_of_mem_iff (r := (· < ·))
  · refine List.Pairwise.filter _ ?_
    rw [List.pairwise_map]
    exact acc.pending.toList_sorted.filter _
  · exact (List.pairwise_lt_range' (s := S.start k)).filter _
  · intro i
    simp only [List.mem_filter, List.mem_map, Prod.exists, exists_and_right, exists_eq_right,
      decide_eq_true_eq, List.mem_range'_1, acc.pending.mem_toList]
    constructor
    · rintro ⟨⟨ps, hps, hc⟩, -⟩
      obtain ⟨hge, hholds⟩ := h.holds i ps hps
      have := hholds.index_lt
      exact ⟨by omega, acc.pending.mem_iff_getElem?.mpr ⟨ps, hps⟩, hholds.batchComplete.mp hc⟩
    · rintro ⟨⟨hge, -⟩, hmem, hends⟩
      obtain ⟨ps, hps⟩ := acc.pending.mem_iff_getElem?.mp hmem
      refine ⟨⟨ps, hps, (h.holds i ps hps).2.batchComplete.mpr hends⟩, ?_⟩
      rw [h.batchStart]
      exact hge

/-- The harvest returns what the pending shreds yield. -/
theorem Aligned.tryHarvestTail (h : S.Aligned k acc) (hfec : acc.fecSets = ∅) (clock : Clock)
    {fuel : ℕ} (hfuel : 2 ^ 32 < fuel) (cache : ReedSolomonCache C) :
    ∃ r, acc.tryHarvestTail env clock fuel cache = some r ∧
      r.out = tailYield env.wincode (· ∈ acc.pending) S.payload S.shreds acc.yieldedSigs
        (S.start k) ((List.range' (S.start k) (S.shreds - S.start k)).filter
          fun i => i ∈ acc.pending ∧ S.EndsBatch i) := by
  have hsorted := (List.pairwise_lt_range' (s := S.start k) (n := S.shreds - S.start k)).filter
    fun i => decide (i ∈ acc.pending ∧ S.EndsBatch i)
  obtain ⟨acc', out', hrun, hyield⟩ := harvestBoundaries_eq env hfuel acc []
    (N := S.shreds) hsorted
    (fun b hb => by
      rw [List.mem_filter, List.mem_range'_1, decide_eq_true_eq] at hb
      exact ⟨by rw [h.batchStart]; exact hb.1.1, h.lt_u32Max hb.2.1⟩)
    (fun i hi => by
      obtain ⟨ps, hps⟩ := acc.pending.mem_iff_getElem?.mp hi
      rw [h.batchStart]
      exact ⟨h.start_le hi, (h.holds i ps hps).2.index_lt⟩)
  unfold SlotAccumulator.tryHarvestTail
  simp only [fillHints_of_empty env hfec, h.boundaries_eq, hrun, Option.bind_eq_bind,
    Option.bind_some]
  refine ⟨_, rfl, ?_⟩
  change (harvestRuns env acc' out' (Runs.runs acc'.pending.keys)).2 = _
  rw [hyield, List.nil_append, h.batchStart]
  refine tailYield_congr (fun b hb => ?_) hsorted fun i hi => ⟨rfl, fun hp => ?_⟩
  · rw [List.mem_filter, List.mem_range'_1] at hb
    exact hb.1.1
  · exact h.payloadAt (by simpa using hp)

/-- What is pending is what arrived, from the batch waited for on. -/
theorem Follows.tryHarvestTail (h : S.Follows cfg D k acc out) (hwait : S.Waiting k acc)
    {l : List ℕ} (hl : ∀ i, i ∈ l ↔ D i ∧ S.Stored i) (clock : Clock) {fuel : ℕ}
    (hfuel : 2 ^ 32 < fuel) (cache : ReedSolomonCache C) :
    ∃ r, acc.tryHarvestTail env clock fuel cache = some r ∧
      r.out = S.tailTxs l (sigKeys (S.streamed k acc.streamingCursor)) := by
  have hk := h.eq_completeBatches hwait hl
  have hmem : ∀ i, S.start k ≤ i → (i ∈ acc.pending ↔ i ∈ l) := by
    intro i hi
    rw [h.mem_pending, hl]
    tauto
  obtain ⟨r, hrun, hout⟩ := h.toAligned.tryHarvestTail h.fecSets clock hfuel cache
  have hfilter : (List.range' (S.start k) (S.shreds - S.start k)).filter
      (fun i => i ∈ acc.pending ∧ S.EndsBatch i) =
      (List.range' (S.start k) (S.shreds - S.start k)).filter
        fun i => i ∈ l ∧ S.EndsBatch i := by
    refine List.filter_congr fun i hi => ?_
    rw [List.mem_range'_1] at hi
    simp only [hmem i hi.1]
  refine ⟨r, hrun, ?_⟩
  rw [hout, hfilter, h.yielded, tailTxs, tailBoundaries, ← hk]
  refine tailYield_congr (fun b hb => ?_) ((List.pairwise_lt_range' (s := S.start k)).filter _)
    fun i hi => ⟨by simp only [hmem i hi], fun _ => rfl⟩
  rw [List.mem_filter, List.mem_range'_1] at hb
  exact hb.1.1

/-- All that is returned by pushes in some order and a final harvest. -/
theorem deliver_harvest (hw : env.wincode.Lawful) (S : Slot env.wincode) (cfg : AccumulatorConfig)
    (cache : ReedSolomonCache C) {calls : List (Clock × Call)} (hcalls : ∀ c ∈ calls, S.Pushes cfg c)
    (clock : Clock) {fuel : ℕ} (hfuel : 2 ^ 32 < fuel) {D : List ℕ}
    (hD : D = S.storedPart (pushed calls)) :
    ∃ r, runCalls env fuel (.fresh cfg cache) (calls ++ [(clock, .harvest)]) = some r ∧
      ∃ T, r.out = S.txsBefore (S.completeBatches D) ++ (T ++ S.tailTxs D (sigKeys T)) ∧
        (S.Resumes (pushed calls) (S.start (S.completeBatches D)) → T = S.leading D) ∧
        (¬S.Resumes (pushed calls) (S.start (S.completeBatches D)) → T = []) := by
  obtain ⟨r, hrun, k, hr, hwait, hres, hnres⟩ := deliver_follows hw S cfg cache hcalls hfuel
  have hmem : ∀ i, i ∈ D ↔ i ∈ pushed calls ∧ S.Stored i := fun i => hD ▸ S.mem_storedPart
  have hk := hr.eq_completeBatches hwait hmem
  obtain ⟨r', hrun', hout⟩ := hr.tryHarvestTail hwait hmem clock hfuel r.cache
  refine ⟨{ r' with out := r.out ++ r'.out }, ?_, S.streamed k r.acc.streamingCursor, ?_, ?_, ?_⟩
  · rw [runCalls_append, hrun, Option.bind_some]
    simp only [runCalls, call, hrun', Option.bind_eq_bind, Option.bind_some]
  · rw [← hk]
    simp only [hout, hr.out_eq, List.append_assoc]
  · rw [← hk]
    intro h
    have hgap : gap D (S.start k) = r.acc.streamingCursor := by
      refine gap_eq hr.cursor_ge (fun hc => hres h ?_) fun i h1 h2 => ?_
      · exact (hr.mem_pending _).mpr ⟨((hmem _).mp hc).1, ((hmem _).mp hc).2, hr.cursor_ge⟩
      · obtain ⟨ps, hps, -⟩ := hr.streamed i h1 h2
        have := (hr.mem_pending i).mp (r.acc.pending.mem_iff_getElem?.mpr ⟨ps, hps⟩)
        exact (hmem i).mpr ⟨this.1, this.2.1⟩
    rw [leading, ← hk, hgap]
  · rw [← hk]
    intro h
    rw [hnres h, streamed_start]

end Slot

end ShredStream
