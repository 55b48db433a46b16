import ShredStream.Slot.Build
import ShredStream.Slot.Tail

/-!
# Salvage and forged transactions

A run of shreds that starts behind a lost one is decoded as if a batch began
there. `no_forgery_iff`: all that is ever returned are transactions of the slot,
whatever is lost and whichever batch is found stuck, if and only if no stretch
of shreds from the middle of a batch decodes to anything else.
-/

namespace ShredStream

open FirstByKey SlotAccumulator

namespace Slot

section

variable {w : Wincode} {S : Slot w}

/-- No stretch of shreds that starts inside a batch decodes to a transaction
    that is not in the slot. -/
def NoForgery (S : Slot w) : Prop :=
  ∀ k < S.batches, ∀ a b, S.start k < a → a ≤ b → b < S.start (k + 1) → ¬S.IsLast b →
    ∀ tx ∈ unseen ∅ (decodeConcatenated w (S.bytes a (b + 1))), tx ∈ S.allTxs

/-- A run inside one batch yields transactions of the slot. -/
theorem NoForgery.run (hforge : S.NoForgery) (hw : w.Lawful) (hexact : S.Exact) {k : ℕ}
    (hk : k < S.batches) {a b : ℕ} (ha : S.start k ≤ a) (hab : a < b) (hb : b ≤ S.start (k + 1))
    (hlast : ¬S.IsLast (b - 1)) :
    ∀ tx ∈ unseen ∅ (decodeConcatenated w (S.bytes a b)), tx ∈ S.allTxs := by
  rcases Nat.eq_or_lt_of_le ha with rfl | ha
  · -- from its first shred on, a batch is decoded as a whole or not at all
    obtain ⟨pre, tail, hbytes, hf, htxs⟩ := S.exists_frame hw hk
    have hlen := hexact k hk
    rw [hbytes, List.length_append, hf.length] at hlen
    have htail : tail = [] := List.length_eq_zero_iff.mp (by omega)
    rw [htail, List.append_nil] at hbytes
    rw [decodeConcatenated_isPrefix hw hf (hbytes ▸ S.bytes_isPrefix hab.le hb), ← htxs]
    intro tx htx
    refine S.mem_allTxs hk ?_
    split_ifs at htx
    · exact mem_of_mem_fresh htx
    · cases htx
  · have h := hforge k hk a (b - 1) ha (by omega) (by omega) hlast
    rwa [show b - 1 + 1 = b by omega] at h

variable {p : ℕ → Bool}

/-- Salvaging a range without a batch end but at its end yields transactions of
    the slot. -/
theorem NoForgery.salvaged (hforge : S.NoForgery) (hw : w.Lawful) (hexact : S.Exact)
    (hp : ∀ i, p i = true → S.Stored i) {a b : ℕ}
    (hends : ∀ i, a ≤ i → i + 1 < b → p i = true → ¬S.EndsBatch i) (seen : Finset Signature) :
    ∀ tx ∈ unseen seen (salvagedIn w p S.payload a b), tx ∈ S.allTxs := by
  intro tx htx
  obtain ⟨run, hrun, htx⟩ := mem_fresh_flatMap htx
  obtain ⟨x, y, rfl, hax, hxy, hyb, hpxy, -, -⟩ := Runs.runsIn_shape hrun
  have hy := hp (y - 1) (hpxy (y - 1) (by omega) (by omega))
  obtain ⟨k, hk, h1, h2⟩ := S.exists_batch_of_run hxy (by have := hy.1; omega)
    fun j hj1 hj2 => hends j (by omega) (by omega) (hpxy j hj1 (by omega))
  exact hforge.run hw hexact hk h1 hxy h2 hy.2 tx htx

/-- So does the harvest. -/
theorem NoForgery.tailYield (hforge : S.NoForgery) (hw : w.Lawful) (hexact : S.Exact)
    (hp : ∀ i, p i = true → S.Stored i) {N : ℕ} {bs : List ℕ} {k : ℕ} (hk : k ≤ S.batches)
    (seen : Finset Signature) (hsorted : bs.Pairwise (· < ·))
    (hbs : ∀ i, i ∈ bs ↔ S.start k ≤ i ∧ p i = true ∧ S.EndsBatch i) :
    ∀ tx ∈ tailYield w p S.payload N seen (S.start k) bs, tx ∈ S.allTxs := by
  induction bs generalizing k seen with
  | nil =>
    refine hforge.salvaged hw hexact hp (fun i hi _ hpi hends => ?_) seen
    exact absurd ((hbs i).mpr ⟨hi, hpi, hends⟩) (by simp)
  | cons b bs ih =>
    rw [List.pairwise_cons] at hsorted
    obtain ⟨hge, hpb, hends⟩ := (hbs b).mp List.mem_cons_self
    -- `b` is the first batch end there is
    have hmin : ∀ i, S.start k ≤ i → i < b → p i = true → ¬S.EndsBatch i := by
      intro i hi hib hpi he
      rcases List.mem_cons.mp ((hbs i).mpr ⟨hi, hpi, he⟩) with rfl | hmem
      · omega
      · have := hsorted.1 i hmem
        omega
    intro tx htx
    rcases List.mem_append.mp htx with htx | htx
    · unfold segmentTxs at htx
      split_ifs at htx with hall
      · have hpall : ∀ i, S.start k ≤ i → i < b → p i = true := fun i h1 h2 =>
          List.all_eq_true.mp hall i (by rw [List.mem_range'_1]; omega)
        obtain ⟨hk', hb⟩ := hends.eq_next S hk hge fun i h1 h2 => hmin i h1 h2 (hpall i h1 h2)
        refine S.mem_allTxs hk' ?_
        rw [txs, if_pos hk', ← hb]
        exact mem_of_mem_fresh htx
      · exact hforge.salvaged hw hexact hp (fun i h1 h2 => hmin i h1 (by omega)) seen tx htx
    · obtain ⟨j, hkj, hj, hjb⟩ := hends.next S hk hge
      rw [← hjb] at htx
      refine ih hj ∅ hsorted.2 (fun i => ?_) tx htx
      rw [hjb]
      constructor
      · intro hi
        have := hsorted.1 i hi
        exact ⟨by omega, ((hbs i).mp (List.mem_cons_of_mem _ hi)).2⟩
      · rintro ⟨hi, hpi, he⟩
        refine (List.mem_cons.mp ((hbs i).mpr ⟨by omega, hpi, he⟩)).resolve_left ?_
        rintro rfl
        omega

end

variable {C : Type} {env : Env C} {S : Slot env.wincode} {k : ℕ} {acc : SlotAccumulator}
  {out : List VersionedTransaction}

/-- The accumulator follows the slot and has returned only transactions of it. -/
structure Sound (S : Slot env.wincode) (k : ℕ) (acc : SlotAccumulator)
    (out : List VersionedTransaction) : Prop extends S.Tracks k acc where
  fecSets : acc.fecSets = ∅
  out_mem : ∀ tx ∈ out, tx ∈ S.allTxs

namespace Sound

theorem stored (h : S.Sound k acc out) {i : ℕ} (hi : i ∈ acc.pending) : S.Stored i := by
  obtain ⟨ps, hps⟩ := acc.pending.mem_iff_getElem?.mp hi
  exact (h.holds i ps hps).2.stored

/-- What the runs of pending shreds yield is the yield over the slot's payloads. -/
theorem salvaged_eq (h : S.Sound k acc out) (a b : ℕ) :
    acc.salvaged env a b = salvagedIn env.wincode (· ∈ acc.pending) S.payload a b :=
  salvagedIn_congr fun _ _ => ⟨rfl, fun hp => h.payloadAt (by simpa using hp)⟩

/-- Finalising a batch with transactions of the slot. -/
theorem finalise (h : S.Sound k acc out) {bcIdx : ℕ} (hbc : bcIdx ∈ acc.batchCompleteIndices)
    {txs : List VersionedTransaction} (counters : Counters)
    (htxs : ∀ tx ∈ unseen acc.yieldedSigs txs, tx ∈ S.allTxs) :
    ∃ j, k < j ∧ S.Sound j (acc.finalise txs counters bcIdx) (out ++ unseen acc.yieldedSigs txs) := by
  have haligned : S.Aligned k { acc.record txs with counters } :=
    ⟨h.k_le, h.batchStart, h.holds, h.boundary, h.cursor_ge, h.cursor_le, h.streamed⟩
  obtain ⟨j, hkj, -, htracks⟩ := haligned.completeBatch hbc
  refine ⟨j, hkj, htracks, ?_, fun tx htx => ?_⟩
  · change acc.fecSets.filter _ = ∅
    rw [h.fecSets]
    rfl
  · exact (List.mem_append.mp htx).elim (h.out_mem tx) (htxs tx)

/-- The flush returns, whatever the clock says, with transactions of the slot. -/
theorem tryFlushBatches (hforge : S.NoForgery) (hw : env.wincode.Lawful) (hexact : S.Exact)
    {base : List VersionedTransaction} (h : S.Sound k acc (base ++ out)) (clock : Clock) {fuel : ℕ}
    (hfuel : 2 ^ 32 < fuel) (cache : ReedSolomonCache C) :
    ∃ r, acc.tryFlushBatches env clock fuel cache out = some r ∧
      ∃ j, S.Sound j r.acc (base ++ r.out) ∧ S.Waiting j r.acc := by
  refine FuelLoop.run_total
    (fun s : CallState C => ∃ j, S.Sound j s.acc (base ++ s.out)) _
    (fun s => S.shreds - s.acc.batchStart) ?_ fuel ⟨acc, cache, out⟩ ⟨k, h⟩
    (S.shreds_sub_lt hfuel _)
  rintro s ⟨j, hs⟩
  rcases hs.flushBody_cases hs.fecSets clock hfuel with
    ⟨hbody, hwait⟩ | ⟨bcIdx, t, counters, txs, hfirst, hbody, hfound⟩
  · exact .inr ⟨s, hbody, j, hs, hwait⟩
  obtain ⟨hbc, -, hmin⟩ := BTreeMap.firstFrom_spec _ hfirst
  have hmem := s.acc.batchCompleteIndices.mem_iff_getElem?.mpr ⟨t, hbc⟩
  have htxs : ∀ tx ∈ unseen s.acc.yieldedSigs txs, tx ∈ S.allTxs := by
    rcases hfound with ⟨-, rfl⟩ | ⟨hall, rfl⟩
    · -- the batch is stuck: no boundary lies before the one that was picked
      rw [hs.salvaged_eq]
      refine hforge.salvaged hw hexact (fun i hi => hs.stored (by simpa using hi))
        (fun i h1 h2 hi hends => ?_) _
      have := hmin i ((hs.boundary i).mpr ⟨by simpa using hi, hends⟩) h1
      omega
    · obtain ⟨hj, hbc'⟩ := hs.boundary_eq hfirst hall
      intro tx htx
      apply S.mem_allTxs hj
      have htx := mem_of_mem_fresh htx
      rw [hs.batchStart] at hall htx
      rw [hs.combined hall, hbc'] at htx
      rwa [txs, if_pos hj]
  obtain ⟨i, hji, hi⟩ := hs.finalise hmem counters htxs
  rw [List.append_assoc] at hi
  refine .inl ⟨_, hbody, ⟨i, hi⟩, ?_⟩
  rw [hi.batchStart, hs.batchStart]
  exact S.shreds_sub_start_lt hji hi.k_le

/-- One call of `push_data`, whatever the clock says. -/
theorem pushData (hforge : S.NoForgery) (hw : env.wincode.Lawful) (hexact : S.Exact)
    (h : S.Sound k acc out) (hwait : S.Waiting k acc) {a : DataArgs} (ha : S.Genuine a)
    (clock : Clock) {fuel : ℕ} (hfuel : 2 ^ 32 < fuel) (cache : ReedSolomonCache C) :
    ∃ r, acc.pushData env clock fuel cache a = some r ∧
      ∃ j, S.Sound j r.acc (out ++ r.out) ∧ S.Waiting j r.acc := by
  by_cases hlast : a.lastInSlot = true
  · have h' : S.Sound k (acc.completeSlot a.index) (out ++ []) := by
      rw [List.append_nil]
      exact { h with }
    obtain ⟨r, hrun, j, hr, hwait'⟩ := h'.tryFlushBatches hforge hw hexact clock hfuel cache
    rw [SlotAccumulator.pushData, if_pos hlast, hrun]
    exact ⟨_, rfl, j, { hr with }, hwait'⟩
  have hfalse : a.lastInSlot = false := by simpa using hlast
  by_cases hdrop : a.index < acc.batchStart ∨ a.index ∈ acc.pending
  · rw [pushData_of_dropped env hfalse hdrop]
    refine ⟨_, rfl, k, ?_, hwait⟩
    rw [List.append_nil]
    exact { h with }
  rw [not_or, not_lt] at hdrop
  have hge : S.start k ≤ a.index := h.batchStart ▸ hdrop.1
  have hk : k < S.batches := (S.start_lt_iff h.k_le le_rfl).mp (hge.trans_lt ha.index_lt)
  have hins : S.Tracks k (acc.insertData clock a) :=
    { h.toAligned.insertData clock ha hfalse hdrop.1 hdrop.2 with
      decoder := h.decoder, yielded := h.yielded }
  obtain ⟨cursor, decoder, new, hrun, htracks, -, hnew, -⟩ :=
    hins.advanceStreaming hw (.inl (hwait.cursor_lt h.toAligned hk)) hfuel []
  rw [List.nil_append] at hrun
  have hstream : S.Sound k (restream (acc.insertData clock a) cursor decoder
      (sigKeys (S.streamed k cursor))) (out ++ new) := by
    refine ⟨htracks, h.fecSets, fun tx htx => ?_⟩
    rcases List.mem_append.mp htx with htx | htx
    · exact h.out_mem tx htx
    · refine S.mem_allTxs hk ((S.streamed_isPrefix hw hk cursor).subset ?_)
      rw [hnew]
      exact List.mem_append_right _ htx
  obtain ⟨r, hflush, j, hr, hwait'⟩ := hstream.tryFlushBatches hforge hw hexact clock hfuel cache
  refine ⟨r, ?_, j, hr, hwait'⟩
  rw [pushData_of_empty env hfalse hdrop.1 hdrop.2 clock cache hrun hstream.fecSets, hflush]

/-- The harvest. -/
theorem tryHarvestTail (hforge : S.NoForgery) (hw : env.wincode.Lawful) (hexact : S.Exact)
    (h : S.Sound k acc out) (clock : Clock) {fuel : ℕ} (hfuel : 2 ^ 32 < fuel)
    (cache : ReedSolomonCache C) :
    ∃ r, acc.tryHarvestTail env clock fuel cache = some r ∧
      ∀ tx ∈ r.out, tx ∈ S.allTxs := by
  obtain ⟨r, hrun, hout⟩ := h.toAligned.tryHarvestTail h.fecSets clock hfuel cache
  refine ⟨r, hrun, ?_⟩
  rw [hout]
  refine hforge.tailYield hw hexact (fun i hi => h.stored (by simpa using hi)) h.k_le _
    ((List.pairwise_lt_range' (s := S.start k)).filter _) fun i => ?_
  simp only [List.mem_filter, List.mem_range'_1, decide_eq_true_eq]
  constructor
  · exact fun hi => ⟨hi.1.1, hi.2⟩
  · rintro ⟨hge, hmem, hends⟩
    have := (h.stored hmem).1
    exact ⟨⟨hge, by omega⟩, hmem, hends⟩

end Sound

/-! ## The two directions -/

/-- Nothing but transactions of the slot is returned when no middle of a batch
    can be mistaken for a batch. -/
theorem NoForgery.genuine (hforge : S.NoForgery) (hw : env.wincode.Lawful) (hexact : S.Exact)
    (cfg : AccumulatorConfig) (cache : ReedSolomonCache C) {calls : List (Clock × Call)}
    (hcalls : ∀ c ∈ calls, ∃ a, c.2 = .data a ∧ S.Genuine a) (clock : Clock) {fuel : ℕ}
    (hfuel : 2 ^ 32 < fuel) :
    ∃ r, runCalls env fuel (.fresh cfg cache) (calls ++ [(clock, .harvest)]) = some r ∧
      ∀ tx ∈ r.out, tx ∈ S.allTxs := by
  have hpushes : ∃ r, runCalls env fuel (.fresh cfg cache) calls = some r ∧
      ∃ k, S.Sound k r.acc r.out ∧ S.Waiting k r.acc :=
    runCalls_total (fun _ s => ∃ k, S.Sound k s.acc s.out ∧ S.Waiting k s.acc)
      (fun c => ∃ a, c.2 = .data a ∧ S.Genuine a)
      (fun _ s c ⟨k, hs, hwait⟩ ⟨a, hc, ha⟩ => by
        rw [hc]
        exact hs.pushData hforge hw hexact hwait ha c.1 hfuel s.cache)
      calls [] (.fresh cfg cache)
      ⟨0, ⟨S.tracks_withConfig cfg, rfl, fun tx h => by cases h⟩, S.waiting_withConfig cfg⟩ hcalls
  obtain ⟨r, hrun, k, hr, -⟩ := hpushes
  obtain ⟨r', hrun', hout⟩ := hr.tryHarvestTail hforge hw hexact clock hfuel r.cache
  refine ⟨{ r' with out := r.out ++ r'.out }, ?_, fun tx htx => ?_⟩
  · rw [runCalls_append, hrun, Option.bind_some]
    simp only [runCalls, call, hrun', Option.bind_eq_bind, Option.bind_some]
  · exact (List.mem_append.mp htx).elim (hr.out_mem tx) (hout tx)

/-- The shreds `[a, b]` alone make one run. -/
theorem salvagedIn_range' {w : Wincode} (payload : ℕ → Bytes) {a b N : ℕ} (hab : a ≤ b)
    (hb : b < N) :
    salvagedIn w (· ∈ List.range' a (b + 1 - a)) payload 0 N =
      decodeConcatenated w (payloads payload a (b + 1)) := by
  have hmem : ∀ i, decide (i ∈ List.range' a (b + 1 - a)) = decide (a ≤ i ∧ i ≤ b) := by
    intro i
    rw [decide_eq_decide, List.mem_range'_1]
    omega
  have hnone : Runs.runsIn (· ∈ List.range' a (b + 1 - a)) (b + 1) N = [] := by
    rw [Runs.runsIn_skip_to (b := N) (by omega) (fun i hi _ => by rw [hmem]; simp; omega) le_rfl,
      Runs.runsIn_empty le_rfl]
  unfold salvagedIn
  rw [Runs.runsIn_skip_to (b := a) (by omega) (fun i _ hi => by rw [hmem]; simp; omega) (by omega),
    Runs.runsIn_block (b := b + 1) (by omega)
      (fun i h1 h2 => by rw [hmem]; simp; omega) (by omega)
      (.inr (by rw [hmem]; simp)), hnone]
  simp [payloads]

section Stretch

variable {S : Slot env.wincode} {k a b : ℕ}

theorem mem_stretch (hab : a ≤ b) {i : ℕ} : i ∈ List.range' a (b + 1 - a) ↔ a ≤ i ∧ i ≤ b := by
  rw [List.mem_range'_1]
  omega

/-- Every shred of the stretch is stored. -/
theorem storedPart_stretch (hab : a ≤ b) (hb : b < S.shreds) (hlast : ¬S.IsLast b) :
    S.storedPart (List.range' a (b + 1 - a)) = List.range' a (b + 1 - a) := by
  refine List.filter_eq_self.mpr fun i hi => ?_
  rw [mem_stretch hab] at hi
  rw [decide_eq_true_eq]
  refine ⟨by omega, fun hl => ?_⟩
  have := hl.2
  exact hlast ⟨hl.1, by omega⟩

/-- Without shred 0 no batch is complete. -/
theorem completeBatches_eq_zero {D : List ℕ} (hzero : 0 ∉ D) : S.completeBatches D = 0 := by
  rw [completeBatches, Nat.findGreatest_eq_zero_iff]
  intro n hn hle hall
  have := (S.start_lt_iff (Nat.zero_le _) hle).mpr hn
  rw [S.start_zero] at this
  exact hzero (hall 0 this)

/-- The last shred of the stretch is its only boundary, if it ends the batch. -/
theorem boundaries_stretch (hk : k < S.batches) (ha : S.start k < a) (hab : a ≤ b)
    (hb : b < S.start (k + 1)) :
    (List.range' 0 (S.shreds - 0)).filter
        (fun i => i ∈ List.range' a (b + 1 - a) ∧ S.EndsBatch i) =
      if S.EndsBatch b then [b] else [] := by
  have hshreds : S.start (k + 1) ≤ S.shreds := S.start_mono (by omega) le_rfl
  split_ifs with hends
  · apply List.Pairwise.eq_of_mem_iff (r := (· < ·))
    · exact (List.pairwise_lt_range' (s := 0)).filter _
    · exact List.pairwise_singleton _ _
    · intro i
      rw [List.mem_filter, List.mem_range'_1, decide_eq_true_eq, List.mem_singleton,
        mem_stretch hab]
      constructor
      · rintro ⟨-, ⟨h1, h2⟩, he⟩
        have h3 := he.of_mem S hk (by omega) (by omega)
        have h4 := hends.of_mem S hk (by omega) hb
        omega
      · rintro rfl
        exact ⟨by omega, ⟨hab, le_rfl⟩, hends⟩
  · rw [List.filter_eq_nil_iff]
    intro i _
    rw [decide_eq_true_eq, mem_stretch hab]
    rintro ⟨⟨h1, h2⟩, he⟩
    have h3 := he.of_mem S hk (by omega) (by omega)
    exact hends ⟨k, hk, by omega⟩

/-- A harvest decodes the stretch. -/
theorem mem_tailTxs_stretch (hk : k < S.batches) (ha : S.start k < a) (hab : a ≤ b)
    (hb : b < S.start (k + 1)) {tx : VersionedTransaction}
    (htx : tx ∈ unseen ∅ (decodeConcatenated env.wincode (S.bytes a (b + 1)))) :
    tx ∈ S.tailTxs (List.range' a (b + 1 - a)) ∅ := by
  have hshreds : S.start (k + 1) ≤ S.shreds := S.start_mono (by omega) le_rfl
  have hzero : 0 ∉ List.range' a (b + 1 - a) := by
    rw [mem_stretch hab]
    omega
  have hsalv : ∀ N, b < N → salvagedIn env.wincode (· ∈ List.range' a (b + 1 - a)) S.payload 0 N =
      decodeConcatenated env.wincode (S.bytes a (b + 1)) :=
    fun N => salvagedIn_range' S.payload hab
  rw [tailTxs, tailBoundaries, completeBatches_eq_zero hzero, S.start_zero,
    boundaries_stretch hk ha hab hb]
  split_ifs
  · rw [tailYield, segmentTxs, if_neg ?_, hsalv _ (by omega)]
    · exact List.mem_append_left _ htx
    · rw [List.all_eq_true]
      intro hall
      exact hzero (by simpa using hall 0 (by rw [List.mem_range'_1]; omega))
  · rw [tailYield, hsalv _ (by omega)]
    exact htx

end Stretch

/-- A stretch from the middle of a batch is what a harvest decodes when nothing
    else arrives. -/
theorem deliver_stretch (hw : env.wincode.Lawful) (S : Slot env.wincode) {k : ℕ}
    (hk : k < S.batches) {a b : ℕ} (ha : S.start k < a) (hab : a ≤ b) (hb : b < S.start (k + 1))
    (hlast : ¬S.IsLast b) {fuel : ℕ} (hfuel : 2 ^ 32 < fuel) :
    ∃ r, runCalls env fuel (.fresh {} {}) (S.deliverAll (List.range' a (b + 1 - a))) = some r ∧
      ∀ tx ∈ unseen ∅ (decodeConcatenated env.wincode (S.bytes a (b + 1))), tx ∈ r.out := by
  have hshreds : S.start (k + 1) ≤ S.shreds := S.start_mono (by omega) le_rfl
  have hstored := storedPart_stretch hab (by omega) hlast
  have hpushes : ∀ c ∈ S.deliver (List.range' a (b + 1 - a)), S.Pushes {} c :=
    pushes_deliver S (by decide) fun i hi => by have := (mem_stretch hab).mp hi; omega
  obtain ⟨r, hrun, T, hout, hres, -⟩ := deliver_harvest hw S {} ({} : ReedSolomonCache C) hpushes
    ⟨fun _ => 0, fun _ _ => 0⟩ hfuel (D := List.range' a (b + 1 - a))
    (by rw [pushed_deliver, hstored])
  -- no batch is complete, and nothing is streamed
  have hzero : 0 ∉ List.range' a (b + 1 - a) := by
    rw [mem_stretch hab]
    omega
  have hk0 := completeBatches_eq_zero (S := S) hzero
  have hresumes : S.Resumes (List.range' a (b + 1 - a)) (S.start 0) := by
    rw [S.start_zero, show b + 1 - a = b - a + 1 by omega, List.range'_succ]
    have hst : a ∈ S.storedPart (List.range' a (b + 1 - a)) := by
      rw [hstored, mem_stretch hab]
      omega
    exact ⟨[], a, _, rfl, Nat.zero_le _, (S.mem_storedPart.mp hst).2, by simp,
      fun j hj => by omega⟩
  rw [hk0, pushed_deliver] at hres
  have hT : T = [] := by
    rw [hres hresumes, leading, hk0, S.start_zero, gap_eq le_rfl hzero fun i h1 h2 => by omega]
    have := S.streamed_start 0
    rwa [S.start_zero] at this
  refine ⟨r, hrun, fun tx htx => ?_⟩
  rw [hout, hT, hk0, txsBefore_zero, List.nil_append, List.nil_append]
  exact mem_tailTxs_stretch hk ha hab hb htx

/-- Whatever is lost, in whatever order the rest arrives and whichever batch is
    found stuck, only transactions of the slot are returned, exactly when no
    stretch of shreds from the middle of a batch decodes to anything else. -/
theorem no_forgery_iff (hw : env.wincode.Lawful) (S : Slot env.wincode) (hexact : S.Exact) :
    (∀ (cfg : AccumulatorConfig) (cache : ReedSolomonCache C) (calls : List (Clock × Call))
        (clock : Clock) (fuel : ℕ), (∀ c ∈ calls, ∃ a, c.2 = .data a ∧ S.Genuine a) →
        2 ^ 32 < fuel →
        ∃ r, runCalls env fuel (.fresh cfg cache) (calls ++ [(clock, .harvest)]) = some r ∧
          ∀ tx ∈ r.out, tx ∈ S.allTxs) ↔
      S.NoForgery := by
  constructor
  · intro h k hk a b ha hab hb hlast tx htx
    have hshreds : S.start (k + 1) ≤ S.shreds := S.start_mono (by omega) le_rfl
    obtain ⟨r, hrun, hall⟩ := h {} {} (S.deliver (List.range' a (b + 1 - a)))
      ⟨fun _ => 0, fun _ _ => 0⟩ (2 ^ 32 + 1) (fun c hc => by
        have hpushes : S.Pushes {} c := pushes_deliver S (by decide) (fun i hi => by
          rw [List.mem_range'_1] at hi
          omega) c hc
        exact hpushes.1) (by decide)
    obtain ⟨r', hrun', hmem⟩ :=
      deliver_stretch (C := C) hw S hk ha hab hb hlast (show 2 ^ 32 < 2 ^ 32 + 1 by decide)
    have heq : some r = some r' := hrun.symm.trans hrun'
    cases heq
    exact hall tx (hmem tx htx)
  · intro hforge cfg cache calls clock fuel hcalls hfuel
    exact hforge.genuine hw hexact cfg cache hcalls clock hfuel

/-- Five account keys that spell out the encoding of a vector with another
    transaction. -/
def smuggledKeys : List Bytes :=
  let inner := LegacyWire.encodeBatch [[LegacyWire.signedTx 9 []]] ++ [0, 0]
  (List.range 5).map fun i => (inner.drop (32 * i)).take 32

/-- A batch of two shreds, the second of which begins with these keys. -/
def smuggled : Slot legacyEnv.wincode :=
  ofPayloads _ [[(LegacyWire.encodeBatch [[LegacyWire.signedTx 1 smuggledKeys]]).take 125,
    (LegacyWire.encodeBatch [[LegacyWire.signedTx 1 smuggledKeys]]).drop 125]] false
    (by decide +kernel)

theorem exact_smuggled : smuggled.Exact := by
  intro k hk
  obtain rfl : k = 0 := by
    have : smuggled.batches = 1 := rfl
    omega
  decide +kernel

theorem no_forgery_iff_smuggled :
    (∀ (cfg : AccumulatorConfig) (cache : ReedSolomonCache Unit) (calls : List (Clock × Call))
        (clock : Clock) (fuel : ℕ), (∀ c ∈ calls, ∃ a, c.2 = .data a ∧ smuggled.Genuine a) →
        2 ^ 32 < fuel →
        ∃ r, runCalls legacyEnv fuel (.fresh cfg cache) (calls ++ [(clock, .harvest)]) = some r ∧
          ∀ tx ∈ r.out, tx ∈ smuggled.allTxs) ↔
      smuggled.NoForgery :=
  no_forgery_iff LegacyWire.wincode_lawful smuggled exact_smuggled

/-- The first shred is lost, and the keys of the transaction are decoded. -/
theorem forged_transaction_returned :
    ¬∀ (S : Slot legacyEnv.wincode) (order : List ℕ), S.Exact → (∀ i ∈ order, i < S.shreds) →
      ∃ r, runCalls legacyEnv (2 ^ 32 + 1) (.fresh {} {}) (S.deliverAll order) = some r ∧
        ∀ tx ∈ r.out, tx ∈ S.allTxs := by
  intro h
  obtain ⟨r, hrun, hgenuine⟩ := h smuggled [1] exact_smuggled (by decide +kernel)
  have hout : (runCalls legacyEnv (2 ^ 32 + 1) (.fresh {} {}) (smuggled.deliverAll [1])).map
      (·.out) = some [LegacyWire.signedTx 9 []] := by decide +kernel
  rw [hrun, Option.map_some, Option.some.injEq] at hout
  have := hgenuine (LegacyWire.signedTx 9 []) (by rw [hout]; exact List.mem_cons_self)
  revert this
  decide +kernel

end Slot

end ShredStream
