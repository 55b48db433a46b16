import ShredStream.Slot.Retained
import ShredStream.Slot.Tail

/-!
# Losses are made up for

As many packets of a FEC set as it has data shreds, be they data or code shreds, are
as good as all its data shreds (`MadeUpFor`).

* `Retains.mem_pending`: after the recoveries of a harvest all that arrived or is made
  up for is pending, from the batch start on.
* `txsBefore_isPrefix_harvest`: batches that are there in full are decoded in turn.
* `Between.harvest`: so a harvest returns what was missing of the ledger.
* `losses_made_up_for`: what the calls and the harvest return begins with the ledger
  of the batches all of whose shreds arrived or are made up for.
-/

namespace ShredStream

open FirstByKey SlotAccumulator

namespace Slot

/-! ## Harvesting whole batches -/

section

variable {w : Wincode} {S : Slot w} {p : ℕ → Bool} {k m : ℕ}

/-- The batch ends among the shreds `p` from `a` on. -/
def endsFrom (S : Slot w) (p : ℕ → Bool) (a : ℕ) : List ℕ :=
  (List.range' a (S.shreds - a)).filter fun i => p i && S.EndsBatch i

theorem mem_endsFrom {a i : ℕ} :
    i ∈ S.endsFrom p a ↔ a ≤ i ∧ i < S.shreds ∧ p i = true ∧ S.EndsBatch i := by
  rw [endsFrom, List.mem_filter, List.mem_range'_1, Bool.and_eq_true, decide_eq_true_eq]
  constructor
  · rintro ⟨⟨hge, hlt⟩, hi⟩
    exact ⟨hge, by omega, hi⟩
  · rintro ⟨hge, hlt, hi⟩
    exact ⟨⟨hge, by omega⟩, hi⟩

theorem sorted_endsFrom (S : Slot w) (p : ℕ → Bool) (a : ℕ) :
    (S.endsFrom p a).Pairwise (· < ·) :=
  (List.pairwise_lt_range' (s := a)).filter _

/-- The first of them is the end of the batch, if it is there. -/
theorem endsFrom_start (hk : k < S.batches) (hend : p (S.start (k + 1) - 1) = true) :
    S.endsFrom p (S.start k) = (S.start (k + 1) - 1) :: S.endsFrom p (S.start (k + 1)) := by
  have hlt := S.start_lt k hk
  have hle : S.start (k + 1) ≤ S.shreds := S.start_mono hk le_rfl
  apply List.Pairwise.eq_of_mem_iff (r := (· < ·)) (S.sorted_endsFrom p _)
  · refine List.pairwise_cons.mpr ⟨fun i hi => ?_, S.sorted_endsFrom p _⟩
    have := (mem_endsFrom.mp hi).1
    omega
  · intro i
    rw [List.mem_cons, mem_endsFrom, mem_endsFrom]
    constructor
    · rintro ⟨hge, hi, hpi, hends⟩
      by_cases hnext : S.start (k + 1) ≤ i
      · exact .inr ⟨hnext, hi, hpi, hends⟩
      · have := hends.of_mem S hk hge (by omega)
        omega
    · rintro (rfl | ⟨hge, hrest⟩)
      · exact ⟨by omega, by omega, hend, S.endsBatch_start hk⟩
      · exact ⟨by omega, hrest⟩

/-- A batch that is there in full comes first. -/
theorem tailYield_batch (hk : k < S.batches)
    (hall : ∀ i, S.start k ≤ i → i < S.start (k + 1) → p i = true) (seen : Finset Signature) :
    tailYield w p S.payload S.shreds seen (S.start k) (S.endsFrom p (S.start k)) =
      unseen seen (S.txs k) ++ tailYield w p S.payload S.shreds ∅ (S.start (k + 1))
        (S.endsFrom p (S.start (k + 1))) := by
  have hlt := S.start_lt k hk
  have hthere : (List.range' (S.start k) (S.start (k + 1) - S.start k)).all p = true := by
    rw [List.all_eq_true]
    intro i hi
    rw [List.mem_range'_1] at hi
    exact hall i hi.1 (by omega)
  have htxs : segmentTxs w p S.payload (S.start k) (S.start (k + 1)) = S.txs k := by
    rw [segmentTxs, if_pos hthere, txs, if_pos hk]
    rfl
  rw [endsFrom_start hk (hall _ (by omega) (by omega)), tailYield,
    show S.start (k + 1) - 1 + 1 = S.start (k + 1) by omega, htxs]

/-- Batches that are there in full come in ledger order. -/
theorem txsBefore_isPrefix_tailYield (hkm : k ≤ m) (hm : m ≤ S.batches)
    (hall : ∀ i, S.start k ≤ i → i < S.start m → p i = true) :
    S.txsBefore m <+: S.txsBefore k ++
      tailYield w p S.payload S.shreds ∅ (S.start k) (S.endsFrom p (S.start k)) := by
  induction hkm using Nat.decreasingInduction with
  | self => exact List.prefix_append _ _
  | of_succ k hkm ih =>
    have hk : k < S.batches := by omega
    have hlt := S.start_lt k hk
    have hnext := S.start_mono (show k + 1 ≤ m by omega) hm
    have hfresh : unseen ∅ (S.txs k) = S.txs k :=
      (S.distinct_txs hk).fresh_eq_self (by simp)
    have hrest := ih fun i h1 h2 => hall i (by omega) h2
    rw [txsBefore_succ, List.append_assoc] at hrest
    rw [tailYield_batch hk (fun i h1 h2 => hall i h1 (by omega)), hfresh]
    exact hrest

/-- So they do when the first of them was streamed up to some shred. -/
theorem txsBefore_isPrefix_harvest (hw : w.Lawful) (hm : m ≤ S.batches)
    (hall : ∀ i, S.start k ≤ i → i < S.start m → p i = true) (c : ℕ) :
    S.txsBefore m <+: (S.txsBefore k ++ S.streamed k c) ++
      tailYield w p S.payload S.shreds (sigKeys (S.streamed k c)) (S.start k)
        (S.endsFrom p (S.start k)) := by
  rcases Nat.lt_or_ge k m with hkm | hmk
  · have hk : k < S.batches := by omega
    have hnext := S.start_mono (show k + 1 ≤ m by omega) hm
    have hlt := S.start_lt k hk
    obtain ⟨rest, hrest⟩ := S.streamed_isPrefix hw hk c
    have hunseen : unseen (sigKeys (S.streamed k c)) (S.txs k) = rest := by
      have hdist := S.distinct_txs hk
      rw [← hrest] at hdist ⊢
      exact hdist.fresh_append_right
    have hprefix := txsBefore_isPrefix_tailYield (show k + 1 ≤ m by omega) hm
      fun i h1 h2 => hall i (by omega) h2
    rw [tailYield_batch hk (fun i h1 h2 => hall i h1 (by omega)), hunseen]
    rw [txsBefore_succ, ← hrest] at hprefix
    simpa only [List.append_assoc] using hprefix
  · rw [List.append_assoc]
    exact (S.txsBefore_isPrefix hmk).trans (List.prefix_append _ _)

end

/-! ## What is made up for -/

variable {C : Type} {env : Env C} {parity : ℕ → ℕ → List Bytes → List Bytes}
  {S : Slot env.wincode} {sets : FecSets env.reedSolomon parity} {clock : Clock} {k m : ℕ}
  {calls : List (Clock × Call)} {acc : SlotAccumulator} {base : List VersionedTransaction}
  {s : CallState C} {F : FecSet parity}

/-- The positions of the data shreds of a set that were handed over and are stored. -/
def dataPositions {w : Wincode} (S : Slot w) (F : FecSet parity) (calls : List (Clock × Call)) :
    List ℕ :=
  (List.range F.numData).filter fun p =>
    F.fecSetIndex + p ∈ pushed calls ∧ S.Stored (F.fecSetIndex + p)

/-- As many packets of the set were handed over as it has data shreds; a code shred
    counts once, and the last shred of the slot does not count. -/
def MadeUpFor {w : Wincode} (S : Slot w) (F : FecSet parity) (calls : List (Clock × Call)) : Prop :=
  F.numData ≤ (dataPositions S F calls).length + (codePositions calls F.fecSetIndex).dedup.length

instance {w : Wincode} (S : Slot w) (F : FecSet parity) (calls : List (Clock × Call)) :
    Decidable (MadeUpFor S F calls) :=
  inferInstanceAs (Decidable (_ ≤ _))

/-- The data shred was handed over, or its set is made up for. -/
def Available (S : Slot env.wincode) (sets : FecSets env.reedSolomon parity)
    (calls : List (Clock × Call)) (i : ℕ) : Prop :=
  i ∈ pushed calls ∨ ∃ F, sets.set F.fecSetIndex = some F ∧ F.Covers i ∧ MadeUpFor S F calls

/-- The data shreds of a set are among those that `select_recoverable_set` counts. -/
theorem Retains.dataPositions_le (h : Retains S sets calls acc)
    (hF : sets.set F.fecSetIndex = some F) {fec : FecSetBuffer} (hnd : fec.numData = F.numData)
    (hstart : acc.batchStart ≤ F.fecSetIndex) :
    (dataPositions S F calls).length ≤ acc.dataCountFor F.fecSetIndex fec := by
  have hpos := F.numData_pos
  unfold dataCountFor
  rw [hnd, if_neg (by omega)]
  have hsub : (dataPositions S F calls).map (F.fecSetIndex + ·) ⊆
      (acc.pending.toList.filter fun e => F.fecSetIndex ≤ e.1 &&
        e.1 < satAdd32 F.fecSetIndex F.numData &&
          e.2.fecSetIndex = F.fecSetIndex).map Prod.fst := by
    intro i hi
    obtain ⟨p, hp, rfl⟩ := List.mem_map.mp hi
    rw [dataPositions, List.mem_filter, List.mem_range, decide_eq_true_eq] at hp
    obtain ⟨hlt, hpushed, hstored⟩ := hp
    obtain ⟨ps, hps⟩ := acc.pending.mem_iff_getElem?.mp (h.data _ hpushed hstored (by omega))
    have hset := h.owned _ ps hps F hF ⟨by omega, by omega⟩
    have hmax := S.lt_u32Max hstored.1 hstored.2
    have hsat : satAdd32 F.fecSetIndex F.numData = min (F.fecSetIndex + F.numData) u32Max := rfl
    refine List.mem_map.mpr ⟨(F.fecSetIndex + p, ps), List.mem_filter.mpr
      ⟨acc.pending.mem_toList.mpr hps, ?_⟩, rfl⟩
    simp only [Bool.and_eq_true, decide_eq_true_eq]
    exact ⟨⟨by omega, by omega⟩, hset⟩
  have hnodup : ((dataPositions S F calls).map (F.fecSetIndex + ·)).Nodup :=
    (List.nodup_range.filter _).map (add_right_injective F.fecSetIndex)
  simpa using (hnodup.subperm hsub).length_le

/-- A set is whole once it was tried, if it is made up for. -/
theorem Retains.whole (h : Retains S sets calls acc) (hs : FromSets sets acc)
    (hF : sets.set F.fecSetIndex = some F) (hfilled : Filled F acc)
    (hmade : MadeUpFor S F calls) (hstart : acc.batchStart ≤ F.fecSetIndex) : F.Whole acc := by
  by_contra hwhole
  have hcode : ∀ q ∈ codePositions calls F.fecSetIndex,
      ∃ fec, acc.fecSets[F.fecSetIndex]? = some fec ∧ q ∈ fec.code :=
    fun q hq => (h.code F hF q hq).resolve_left hwhole
  cases hfec : acc.fecSets[F.fecSetIndex]? with
  | none =>
    -- no code shreds count, so that all data shreds were handed over
    have hnone : codePositions calls F.fecSetIndex = [] := by
      rw [List.eq_nil_iff_forall_not_mem]
      intro q hq
      obtain ⟨fec, hfec', -⟩ := hcode q hq
      rw [hfec] at hfec'
      cases hfec'
    have hall : F.numData ≤ (dataPositions S F calls).length := by
      have hmade' := hmade
      rw [MadeUpFor, hnone] at hmade'
      simpa using hmade'
    have heq : dataPositions S F calls = List.range F.numData :=
      List.filter_sublist.eq_of_length_le (by rw [List.length_range]; exact hall)
    apply hwhole
    rintro p hlt ⟨hge, hnew, -⟩
    have hmem : p ∈ dataPositions S F calls := heq ▸ List.mem_range.mpr hlt
    rw [dataPositions, List.mem_filter, decide_eq_true_eq] at hmem
    exact hnew (h.data _ hmem.2.1 hmem.2.2 hge)
  | some fec =>
    have hdata := h.dataPositions_le hF (hs.genuine hF hfec).code.numData hstart
    have hcount : (codePositions calls F.fecSetIndex).dedup.length ≤ fec.code.size := by
      rw [← Std.ExtTreeMap.length_keys]
      apply List.Subperm.length_le
      apply (List.nodup_dedup _).subperm
      intro q hq
      obtain ⟨fec', hfec', hmem⟩ := hcode q (List.mem_dedup.mp hq)
      rw [hfec] at hfec'
      cases hfec'
      exact Std.ExtTreeMap.mem_keys.mpr hmem
    exact hwhole (hfilled fec hfec (by unfold MadeUpFor at hmade; omega))

/-- Once the sets were tried, all that is available is pending, from the batch start on. -/
theorem Retains.mem_pending (h : Retains S sets calls acc) (ht : S.Aligned k acc)
    (hs : FromSets sets acc) (hp : Protects S sets) (hdiv : Divides S sets)
    (hfilled : ∀ F, sets.set F.fecSetIndex = some F → Filled F acc) {i : ℕ}
    (hge : S.start k ≤ i) (hstored : S.Stored i) (havail : Available S sets calls i) :
    i ∈ acc.pending := by
  rcases havail with hpushed | ⟨F, hF, hcovers, hmade⟩
  · exact h.data i hpushed hstored (ht.batchStart.trans_le hge)
  · obtain ⟨hlt, hidx⟩ := hcovers.position
    -- the set lies in the batch waited for or behind it
    obtain ⟨j, hj, hstart, hend⟩ := hdiv.inBatch F hF
    have hkj := (S.start_lt_iff ht.k_le (show j + 1 ≤ S.batches by omega)).mp
      (show S.start k < S.start (j + 1) by have := hcovers.2; omega)
    have hle := S.start_mono (show k ≤ j by omega) hj.le
    have hwhole := h.whole hs hF (hfilled F hF) hmade (by rw [ht.batchStart]; omega)
    by_contra hnew
    apply hwhole _ hlt
    refine ⟨by rw [hidx, ht.batchStart]; exact hge, by rwa [hidx], ?_⟩
    rw [← Bool.not_eq_true, hp.lastInSlot F hF _ hlt, hidx]
    exact hstored.2

/-! ## The harvest -/

/-- A harvest tries all sets that are recorded. -/
theorem filled_harvest (hc : s.acc.Consistent) (hrs : env.reedSolomon.Rebuilds parity)
    (hs : SetState sets s) (hF : sets.set F.fecSetIndex = some F) :
    Filled F (fillHints env clock s.acc s.cache s.acc.fecSets.keys).1 := by
  by_cases hmem : F.fecSetIndex ∈ s.acc.fecSets
  · exact filled_fillHints hc hrs hs hF (Std.ExtTreeMap.mem_keys.mpr hmem)
  · intro fec hfec
    have hsteps : Steps env clock s _ := fillHints_steps s s.acc.fecSets.keys
    have hold := hsteps.fecSets_sub hfec
    exact absurd (s.acc.fecSets.mem_iff_getElem?.mpr ⟨fec, hold⟩) hmem

/-- The harvest returns what is pending after its recoveries. -/
theorem Aligned.tryHarvestTail_of_filled {cache cache' : ReedSolomonCache C}
    {acc' : SlotAccumulator}
    (hfill : fillHints env clock acc cache acc.fecSets.keys = (acc', cache')) (h : S.Aligned k acc')
    {fuel : ℕ} (hfuel : 2 ^ 32 < fuel) :
    ∃ r, acc.tryHarvestTail env clock fuel cache = some r ∧
      r.out = tailYield env.wincode (· ∈ acc'.pending) S.payload S.shreds acc'.yieldedSigs
        (S.start k) (S.endsFrom (· ∈ acc'.pending) (S.start k)) := by
  have hbs : ((acc'.pending.toList.filter fun e => e.2.batchComplete).map Prod.fst).filter
      (· ≥ acc'.batchStart) = S.endsFrom (· ∈ acc'.pending) (S.start k) := by
    rw [h.boundaries_eq, endsFrom]
    exact List.filter_congr fun i _ => by simp
  obtain ⟨acc₁, out₁, hrun, hyield⟩ := harvestBoundaries_eq env hfuel acc' []
    (N := S.shreds) (S.sorted_endsFrom (· ∈ acc'.pending) (S.start k))
    (fun b hb => by
      obtain ⟨hge, -, hmem, -⟩ := mem_endsFrom.mp hb
      exact ⟨by rw [h.batchStart]; exact hge, h.lt_u32Max (of_decide_eq_true hmem)⟩)
    (fun i hi => by
      obtain ⟨ps, hps⟩ := acc'.pending.mem_iff_getElem?.mp hi
      rw [h.batchStart]
      exact ⟨h.start_le hi, (h.holds i ps hps).2.index_lt⟩)
  unfold SlotAccumulator.tryHarvestTail
  simp only [hfill, hbs, hrun, Option.bind_eq_bind, Option.bind_some]
  refine ⟨_, rfl, ?_⟩
  change (harvestRuns env acc₁ out₁ (Runs.runs acc₁.pending.keys)).2 = _
  rw [hyield, List.nil_append, h.batchStart]
  exact tailYield_congr (fun b hb => (mem_endsFrom.mp hb).1) (S.sorted_endsFrom _ _)
    fun i _ => ⟨rfl, fun hi => h.payloadAt (of_decide_eq_true hi)⟩

/-- The harvest makes up for what was lost. -/
theorem Between.harvest (h : Between S sets k s) (hin : S.InOrder k s.acc s.out)
    (hretains : Retains S sets calls s.acc) (hw : env.wincode.Lawful) (hp : Protects S sets)
    (hdiv : Divides S sets) (hrs : env.reedSolomon.Rebuilds parity) (hm : m ≤ S.batches)
    (havail : ∀ i < S.start m, S.Stored i ∧ Available S sets calls i) (clock : Clock) {fuel : ℕ}
    (hfuel : 2 ^ 32 < fuel) :
    ∃ r, s.acc.tryHarvestTail env clock fuel s.cache = some r ∧
      S.txsBefore m <+: s.out ++ r.out := by
  -- what is pending when the harvest decodes
  obtain ⟨acc', cache', hfill⟩ : ∃ acc' cache',
    fillHints env clock s.acc s.cache s.acc.fecSets.keys = (acc', cache') := ⟨_, _, rfl⟩
  have hserved := h.toServed.fillHints hp hrs clock s.acc.fecSets.keys
  have hsteps : Steps env clock ⟨s.acc, s.cache, []⟩ _ := fillHints_steps _ s.acc.fecSets.keys
  have hretains₀ : Retains S sets calls (⟨s.acc, s.cache, []⟩ : CallState C).acc := hretains
  have hretains' := hretains₀.steps hsteps hp hdiv hrs h.toSetState h.consistent
  have hfilled (F : FecSet parity) (hF : sets.set F.fecSetIndex = some F) :
      Filled F (fillHints env clock s.acc s.cache s.acc.fecSets.keys).1 :=
    filled_harvest (s := ⟨s.acc, s.cache, []⟩) h.consistent hrs h.toSetState hF
  have hin' := hin.refilled (refilled_fillHints env s.acc clock s.cache s.acc.fecSets.keys)
  rw [hfill] at hserved hretains' hfilled hin'
  have hall (i : ℕ) (hge : S.start k ≤ i) (hlt : i < S.start m) :
      decide (i ∈ acc'.pending) = true := by
    rw [decide_eq_true_eq]
    exact hretains'.mem_pending hserved.toAligned hserved.fromSets hp hdiv hfilled hge
      (havail i hlt).1 (havail i hlt).2
  obtain ⟨r, hr, hout⟩ := hserved.toAligned.tryHarvestTail_of_filled hfill hfuel
  refine ⟨r, hr, ?_⟩
  have hs : s.out = _ := hin'
  rw [hout, hserved.yielded, hs]
  exact txsBefore_isPrefix_harvest hw hm hall acc'.streamingCursor

/-- Shreds may be lost, repeated or late: if every data shred of the first `m` batches
    arrived or is made up for, the calls and the harvest return the ledger of these
    batches in order. No flush may go over two batches at once, no batch be found
    stuck, and no set be evicted early. -/
theorem losses_made_up_for (hw : env.wincode.Lawful) (hrs : env.reedSolomon.Rebuilds parity)
    (hp : Protects S sets) (hdiv : Divides S sets) (cfg : AccumulatorConfig)
    {cache : ReedSolomonCache C} (hcache : cache.Valid env.reedSolomon)
    (hcalls : ∀ c ∈ calls, Sends S sets c.2 ∧ Owned sets c.2 ∧
      ∀ b t, c.1.elapsed b t < cfg.stuckBatchTimeout)
    {fuel : ℕ} (hfuel : 2 ^ 32 < fuel)
    (hone : ∀ pre c post s, calls = pre ++ c :: post →
      runCalls env fuel (.fresh cfg cache) pre = some s →
        OneAtATime env c.1 fuel S s.acc s.cache c.2)
    (hkept : ∀ r, runCalls env fuel (.fresh cfg cache) calls = some r →
      r.acc.counters.fecSetsEvictedEarly = 0)
    (hm : m ≤ S.batches)
    (havail : ∀ i < S.start m, S.Stored i ∧ Available S sets calls i) (clock : Clock) :
    ∃ r, runCalls env fuel (.fresh cfg cache) (calls ++ [(clock, .harvest)]) = some r ∧
      S.txsBefore m <+: r.out := by
  obtain ⟨r, hrun, -, k, hbetween, hin⟩ := run_inOrder hw hrs hp cfg hcache
    (fun c hc => ⟨(hcalls c hc).1, (hcalls c hc).2.2⟩) hfuel hone
  have hretains := retains_run hp hdiv hrs cfg hcache
    (fun c hc => ⟨(hcalls c hc).1, (hcalls c hc).2.1⟩) hrun (hkept r hrun)
  obtain ⟨r', hr', hprefix⟩ := hbetween.harvest hin hretains hw hp hdiv hrs hm havail clock hfuel
  refine ⟨{ r' with out := r.out ++ r'.out }, ?_, hprefix⟩
  rw [runCalls_append, hrun, Option.bind_some]
  simp only [runCalls, call, hr', Option.bind_eq_bind, Option.bind_some]

open FecSet

theorem firstSets_eq {F : FecSet pairParity} (hF : firstSets.set F.fecSetIndex = some F) :
    firstSet = F := by
  have hF' : (if F.fecSetIndex = 0 then some firstSet else none) = some F := hF
  split_ifs at hF'
  exact Option.some.inj hF'

theorem divides_twoBatches : Divides twoBatches firstSets := by
  refine ⟨fun F F' hF hF' i _ _ => ?_, fun F hF => ?_⟩
  · rw [← firstSets_eq hF, ← firstSets_eq hF']
  · rw [← firstSets_eq hF]
    exact ⟨0, by decide, by decide, by decide⟩

theorem owned_dataCall (i : Fin 4) : Owned firstSets (dataCall i).2 := by
  intro a ha F hF
  rw [← firstSets_eq hF]
  fin_cases i
  · cases ha
    decide +kernel
  · cases ha
    decide +kernel
  · cases ha
    decide +kernel
  · cases ha
    decide +kernel

theorem owned_packets (order : List (Option (Fin 4))) :
    ∀ c ∈ packets order, Owned firstSets c.2 := by
  intro c hc
  obtain ⟨i, -, rfl⟩ := List.mem_map.mp hc
  cases i with
  | none =>
    rintro a ⟨⟩
  | some i => exact owned_dataCall i

/-- The second shred of the first batch is lost, and the code shred is enough for it. -/
theorem losses_made_up_for_twoBatches :
    ∃ r, runCalls FecSet.pairEnv (2 ^ 32 + 1) (.fresh {} {})
        (packets [some 2, some 0, none, some 3] ++ [(stillClock, .harvest)]) = some r ∧
      twoBatches.txsBefore 2 <+: r.out := by
  have hrs : FecSet.pairEnv.reedSolomon.Rebuilds pairParity := pairCrate_rebuilds
  have hcache : ReedSolomonCache.Valid FecSet.pairEnv.reedSolomon {} := fun e he => by cases he
  have hsends := sends_packets [some 2, some 0, none, some 3]
  have hfirst : DataFirst (packets [some 2, some 0, none, some 3]) := by decide +kernel
  have hfew : (codeSets (packets [some 2, some 0, none, some 3])).dedup.length ≤
      ({} : AccumulatorConfig).maxFecSetsPerSlot := by decide +kernel
  have hstored : ∀ i < 4, twoBatches.Stored i := by decide +kernel
  have hpushed : ∀ i < 4, i ≠ 1 → i ∈ pushed (packets [some 2, some 0, none, some 3]) := by
    decide +kernel
  have hmade : MadeUpFor twoBatches firstSet (packets [some 2, some 0, none, some 3]) := by
    decide +kernel
  have havail : ∀ i < twoBatches.start 2, twoBatches.Stored i ∧
      Available twoBatches firstSets (packets [some 2, some 0, none, some 3]) i := by
    intro i hi
    refine ⟨hstored i hi, ?_⟩
    by_cases hlost : i = 1
    · exact .inr ⟨firstSet, rfl, by rw [hlost]; decide, hmade⟩
    · exact .inl (hpushed i hi hlost)
  exact losses_made_up_for LegacyWire.wincode_lawful hrs protects_twoBatches divides_twoBatches {}
    hcache (fun c hc => ⟨hsends c hc, owned_packets _ c hc, still_packets _ c hc⟩) (by decide)
    (oneAtATime_of_dataFirst hrs protects_twoBatches {} hcache (fun c hc => (hsends c hc).sent)
      hfirst)
    (fun r hrun => evictedEarly_of_few hrs {} hcache (fun c hc => (hsends c hc).sent) hfew hrun)
    le_rfl havail stillClock

end Slot

end ShredStream
