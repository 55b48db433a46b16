import ShredStream.Slot.Protected
import ShredStream.Slot.Tail

/-!
# Batches that are there when they are finalised

An iteration of `try_flush_batches` (accumulator.rs, lines 421–506) picks the first
boundary known, recovers shreds in front of it, and then decodes or salvages up to
that boundary, even if a batch end was among the shreds it recovered. `decode_batch`
reads the first batch of what it is given.

Results:

* `Served.finalise`: what a finalisation returns of the batches it goes over.
* `complete_batches_delivered`: all transactions of a batch that is complete when
  it is finalised are returned if it is read apart from the batches in front of it.
* `swallowed_batch`: two batches decoded as one.
-/

namespace ShredStream

open FirstByKey SlotAccumulator

namespace Slot

section

variable {w : Wincode} (S : Slot w)

/-- The finalisation moved `batch_start` past the end of batch `m`, all of whose shreds
    were pending. -/
structure Passes (f : Finalization) (m : ℕ) : Prop where
  lt_batches : m < S.batches
  start_lt : f.start < S.start (m + 1)
  end_le : S.start (m + 1) ≤ f.bcIdx + 1
  present : ∀ i, S.start m ≤ i → i < S.start (m + 1) → i ∈ f.pending

/-- Batch `m` is read from its first shred on, and no run of shreds in front of it
    decodes to a transaction with a signature of one of its transactions. -/
structure Apart (f : Finalization) (m : ℕ) : Prop where
  opens : f.start = S.start m ∨ S.start m - 1 ∉ f.pending
  unclaimed : ∀ x y, f.start ≤ x → x < y → y < S.start m → (x = f.start ∨ x - 1 ∉ f.pending) →
    y ∉ f.pending → (∀ i, x ≤ i → i < y → i ∈ f.pending) →
    ∀ tx ∈ decodeConcatenated w (S.bytes x y), ∀ tx' ∈ S.txs m, tx.firstSig = tx'.firstSig → tx = tx'

/-- What the finalisation goes over complete, and reads apart, is in `out`. -/
def Delivered (out : List VersionedTransaction) (f : Finalization) : Prop :=
  ∀ m, S.Passes f m → S.Apart f m → ∀ tx ∈ S.txs m, tx ∈ out

variable {S}

theorem Delivered.mono {out out' : List VersionedTransaction} {f : Finalization}
    (h : S.Delivered out f) (hsub : ∀ tx ∈ out, tx ∈ out') : S.Delivered out' f :=
  fun m hm hapart tx htx => hsub tx (h m hm hapart tx htx)

/-! ## What is found -/

/-- A run that begins with a batch yields its transactions first. -/
theorem decodeConcatenated_batch (hw : w.Lawful) {m y : ℕ} (hm : m < S.batches)
    (hy : S.start (m + 1) ≤ y) :
    ∃ rest, decodeConcatenated w (S.bytes (S.start m) y) = S.txs m ++ rest := by
  obtain ⟨pre, tail, hbytes, hf, htxs⟩ := S.exists_frame hw hm
  have hlt := S.start_lt m hm
  refine ⟨decodeConcatenated w (tail ++ S.bytes (S.start (m + 1)) y), ?_⟩
  rw [← S.bytes_append hlt.le hy, hbytes, List.append_assoc, decodeConcatenated_append hw hf, htxs]

/-- So does a salvage, behind what it found in front of the batch. -/
theorem salvagedIn_batch (hw : w.Lawful) {p : ℕ → Bool} {a b m : ℕ} (hm : m < S.batches)
    (ha : a ≤ S.start m) (hb : S.start (m + 1) ≤ b) (hcut : S.start m = a ∨ p (S.start m - 1) = false)
    (hp : ∀ i, S.start m ≤ i → i < S.start (m + 1) → p i = true) :
    ∃ rest, salvagedIn w p S.payload a b =
      salvagedIn w p S.payload a (S.start m) ++ (S.txs m ++ rest) := by
  have hlt := S.start_lt m hm
  obtain ⟨e, hme, heb, hblk, hend⟩ :=
    Runs.exists_block_end (show S.start m < b by omega) (hp _ le_rfl hlt)
  have hle : S.start (m + 1) ≤ e := by
    by_contra hlt'
    rcases hend with rfl | hend
    · omega
    · rw [hp e hme.le (by omega)] at hend
      cases hend
  obtain ⟨rest, hrest⟩ := decodeConcatenated_batch hw hm hle
  refine ⟨rest ++ salvagedIn w p S.payload e b, ?_⟩
  have hrun : salvagedIn w p S.payload (S.start m) b = decodeConcatenated w (S.bytes (S.start m) e) ++
      salvagedIn w p S.payload e b := by
    rw [salvagedIn, Runs.runsIn_block hme hblk heb hend, List.flatMap_cons]
    rfl
  rw [salvagedIn_append ha (by omega) hcut, hrun, hrest, List.append_assoc]

/-- Nothing found in front of a batch that is read apart claims its transactions. -/
theorem Apart.unclaimed_salvaged {f : Finalization} {m : ℕ} (h : S.Apart f m) :
    ∀ tx ∈ salvagedIn w (· ∈ f.pending) S.payload f.start (S.start m), ∀ tx' ∈ S.txs m,
      tx.firstSig = tx'.firstSig → tx = tx' := by
  intro tx htx
  obtain ⟨run, hrun, htx⟩ := List.mem_flatMap.mp htx
  obtain ⟨x, y, rfl, hx, hxy, hy, hblk, hbefore, hafter⟩ := Runs.runsIn_shape hrun
  have hlt : y < S.start m := by
    refine lt_of_le_of_ne hy ?_
    rintro rfl
    rcases h.opens with hopens | hopens
    · omega
    · exact hopens (of_decide_eq_true (hblk _ (by omega) (by omega)))
  have hend : y ∉ f.pending := of_decide_eq_false (hafter.resolve_left hlt.ne)
  exact h.unclaimed x y hx hxy hlt (hbefore.imp id of_decide_eq_false) hend
    (fun i h1 h2 => of_decide_eq_true (hblk i h1 h2)) tx htx

/-- What was streamed of a batch are transactions of the slot. -/
theorem Aligned.streamed_mem_allTxs {k : ℕ} {acc : SlotAccumulator} (h : S.Aligned k acc)
    (hw : w.Lawful) : ∀ tx ∈ S.streamed k acc.streamingCursor, tx ∈ S.allTxs := by
  intro tx htx
  rcases Nat.lt_or_eq_of_le h.k_le with hk | rfl
  · exact S.mem_allTxs hk ((S.streamed_isPrefix hw hk _).subset htx)
  · have hcur := h.cursor_le
    rw [S.stop_batches] at hcur
    rw [S.streamed_of_le hcur] at htx
    cases htx

/-- The transactions of batch `m` are returned when nothing found in front of them
    bears their signatures. -/
theorem Tracks.mem_unseen {k m : ℕ} {acc : SlotAccumulator} {out : List VersionedTransaction}
    (h : S.Tracks k acc) (hw : w.Lawful)
    (hout : ∀ tx ∈ S.streamed k acc.streamingCursor, tx ∈ out) (hm : m < S.batches)
    {pre rest : List VersionedTransaction}
    (hpre : ∀ tx ∈ pre, ∀ tx' ∈ S.txs m, tx.firstSig = tx'.firstSig → tx = tx') :
    ∀ tx ∈ S.txs m, tx ∈ out ++ unseen acc.yieldedSigs (pre ++ (S.txs m ++ rest)) := by
  intro tx htx
  have hdistinct := S.distinct_txs hm
  obtain ⟨sig, hsig⟩ := Option.ne_none_iff_exists'.mp (hdistinct.1 tx htx)
  rw [List.mem_append]
  by_cases hseen : sig ∈ acc.yieldedSigs
  · -- streaming has returned it
    rw [h.yielded, mem_keys] at hseen
    obtain ⟨tx', htx', hsig'⟩ := hseen
    obtain rfl : tx' = tx := S.distinct_allTxs.key_injOn (h.streamed_mem_allTxs hw tx' htx')
      (S.mem_allTxs hm htx) (hsig'.trans hsig.symm)
    exact .inl (hout tx' htx')
  · refine .inr ?_
    rw [← List.append_assoc]
    show tx ∈ fresh _ _ _
    rw [fresh_append, List.mem_append]
    refine .inl (mem_fresh_of_unique (List.mem_append_right _ htx) hsig hseen fun tx' htx' hsig' => ?_)
    rcases List.mem_append.mp htx' with htx' | htx'
    · exact hpre tx' htx' tx htx (hsig'.trans hsig.symm)
    · exact hdistinct.key_injOn htx' htx (hsig'.trans hsig.symm)

end

variable {C : Type} {env : Env C} {parity : ℕ → ℕ → List Bytes → List Bytes}
  {S : Slot env.wincode} {sets : FecSets env.reedSolomon parity} {k : ℕ}
  {base : List VersionedTransaction} {s : CallState C}

/-! ## Finalising -/

/-- All of a batch that is there and read apart is returned. -/
theorem Served.delivers (h : Served S sets k base s) (hw : env.wincode.Lawful) {bcIdx : ℕ}
    {txs : List VersionedTransaction} (hfinds : Finds env s.acc bcIdx txs) :
    S.Delivered (base ++ (s.out ++ unseen s.acc.yieldedSigs txs))
      ⟨s.acc.batchStart, bcIdx, s.acc.pending⟩ := by
  intro m hm hapart
  have hlt := S.start_lt m hm.lt_batches
  have hstart : S.start k ≤ S.start m := h.start_le (hm.present _ le_rfl hlt)
  have hend : S.start (m + 1) ≤ bcIdx + 1 := hm.end_le
  rw [← List.append_assoc]
  cases hfinds with
  | batch hall =>
    -- nothing is missing, so the batch is the one that is waited for
    have hopens : s.acc.batchStart = S.start m := by
      by_contra hne
      rw [h.batchStart] at hne hall
      exact hapart.opens.resolve_left (by rwa [h.batchStart]) (hall _ (by omega) (by omega))
    rw [h.batchStart] at hopens hall
    obtain rfl : k = m := S.start_inj h.k_le hm.lt_batches.le hopens
    have htxs : batchTxs env.wincode (s.acc.combined s.acc.batchStart bcIdx) =
        [] ++ (S.txs k ++ []) := by
      obtain ⟨pre, tail, hbytes, hf, htxs⟩ := S.exists_frame hw hm.lt_batches
      rw [h.batchStart, h.combined hall, ← S.bytes_append hlt.le hend, hbytes, List.append_assoc,
        batchTxs, decodeBatch_append hw hf, Option.getD_some, htxs, List.append_nil, List.nil_append]
    rw [htxs]
    exact h.mem_unseen hw h.streamed_mem hm.lt_batches (fun tx htx => by cases htx)
  | runs hgap =>
    have hsalvaged : s.acc.salvaged env s.acc.batchStart (bcIdx + 1) =
        salvagedIn env.wincode (· ∈ s.acc.pending) S.payload (S.start k) (bcIdx + 1) := by
      rw [h.batchStart]
      exact salvagedIn_congr fun i _ => ⟨rfl, fun hi => h.payloadAt (of_decide_eq_true hi)⟩
    have hcut : S.start m = S.start k ∨ decide (S.start m - 1 ∈ s.acc.pending) = false := by
      rw [decide_eq_false_iff_not, ← h.batchStart]
      exact hapart.opens.imp Eq.symm id
    obtain ⟨rest, hrest⟩ := salvagedIn_batch hw hm.lt_batches hstart hend hcut
      (fun i h1 h2 => decide_eq_true (hm.present i h1 h2))
    rw [hsalvaged, hrest]
    have hunclaimed := hapart.unclaimed_salvaged
    rw [h.batchStart] at hunclaimed
    exact h.mem_unseen hw h.streamed_mem hm.lt_batches hunclaimed

theorem Served.delivered_finalise (h : Served S sets k base s)
    (hfin : ∀ f ∈ s.acc.finalized, S.Delivered (base ++ s.out) f) (hw : env.wincode.Lawful)
    {bcIdx : ℕ} {txs : List VersionedTransaction} (hfinds : Finds env s.acc bcIdx txs)
    (counters : Counters) :
    ∀ f ∈ (s.acc.finalise txs counters bcIdx).finalized,
      S.Delivered (base ++ (s.out ++ unseen s.acc.yieldedSigs txs)) f := by
  intro f hf
  rcases List.mem_append.mp hf with hf | hf
  · refine (hfin f hf).mono fun tx htx => ?_
    rw [← List.append_assoc]
    exact List.mem_append_left _ htx
  · rw [List.mem_singleton.mp hf]
    exact h.delivers hw hfinds

/-- So it is over a flush. -/
theorem Served.flush_delivers (h : Served S sets k base s)
    (hfin : ∀ f ∈ s.acc.finalized, S.Delivered (base ++ s.out) f) (hw : env.wincode.Lawful)
    (hp : Protects S sets) (hrs : env.reedSolomon.Rebuilds parity) (clock : Clock) {fuel : ℕ}
    (hfuel : 2 ^ 32 < fuel) :
    ∃ r, s.acc.tryFlushBatches env clock fuel s.cache s.out = some r ∧
      ∃ j, Served S sets j base r ∧ ∀ f ∈ r.acc.finalized, S.Delivered (base ++ r.out) f := by
  refine FuelLoop.run_total
    (fun s : CallState C => ∃ k, Served S sets k base s ∧
      ∀ f ∈ s.acc.finalized, S.Delivered (base ++ s.out) f) _
    (fun s => S.shreds - s.acc.batchStart) ?_ fuel s ⟨k, h, hfin⟩ (S.shreds_sub_lt hfuel _)
  rintro s ⟨k, hs, hfin⟩
  rcases hs.flushBody_cases hp hrs clock hfuel with
    ⟨-, hbody⟩ | ⟨bcIdx, t, s', -, hout, hfill, hs', hcases⟩
  · exact .inr ⟨s, hbody, k, hs, hfin⟩
  have hrefill := refilled_flushFill env s.acc clock s.cache bcIdx
  rw [hfill] at hrefill
  rw [← hrefill.finalized, ← hout] at hfin
  rcases hcases with ⟨-, hbody⟩ | ⟨txs, counters, hfinds, hb, hbody⟩
  · exact .inr ⟨s', hbody, k, hs', hfin⟩
  · obtain ⟨j, hkj, hj, hnext⟩ := hs'.finalise hb txs counters
    refine .inl ⟨_, hbody, ⟨j, hnext, hs'.delivered_finalise hfin hw hfinds counters⟩, ?_⟩
    rw [hnext.batchStart, hs.batchStart]
    exact S.shreds_sub_start_lt hkj hnext.k_le

/-- And over the boundaries of a harvest. -/
theorem Served.harvest_delivers (hw : env.wincode.Lawful) {fuel : ℕ} (hfuel : 2 ^ 32 < fuel)
    {bs : List ℕ} :
    ∀ {k : ℕ} {s : CallState C}, Served S sets k base s →
      (∀ f ∈ s.acc.finalized, S.Delivered (base ++ s.out) f) →
      (∀ b ∈ bs, b < s.acc.batchStart ∨ b ∈ s.acc.batchCompleteIndices) →
      ∃ r, harvestBoundaries env fuel s.acc s.out bs = some r ∧
        ∀ f ∈ r.1.finalized, S.Delivered (base ++ r.2) f := by
  induction bs with
  | nil => exact fun _ hfin _ => ⟨_, rfl, hfin⟩
  | cons b bs ih =>
    intro k s h hfin hbs
    rw [List.forall_mem_cons] at hbs
    unfold harvestBoundaries
    rcases Nat.lt_or_ge b s.acc.batchStart with hlt | hge
    · have hskip : s.acc.harvestBoundary env fuel b s.out = some (s.acc, s.out) := by
        unfold harvestBoundary
        rw [if_pos hlt]
      rw [hskip]
      exact ih h hfin hbs.2
    · have hb : b ∈ s.acc.batchCompleteIndices := hbs.1.resolve_left (by omega)
      rcases harvestBoundary_cases env hfuel s.acc (h.boundary_lt hb) s.out with
        ⟨hlt, -⟩ | ⟨-, counters, txs, hrun, hfound⟩
      · omega
      have hfinds : Finds env s.acc b txs := by
        rcases hfound with ⟨hall, rfl⟩ | ⟨hgap, rfl⟩
        · exact .batch hall
        · exact .runs hgap
      obtain ⟨j, -, -, hnext⟩ := h.finalise hb txs counters
      rw [hrun]
      apply ih hnext (h.delivered_finalise hfin hw hfinds counters)
      intro b' hb'
      have hstart : (s.acc.finalise txs counters b).batchStart = satAdd32 b 1 := rfl
      by_cases hlt : b' < satAdd32 b 1
      · exact .inl (hstart ▸ hlt)
      · refine .inr ((mem_completeBatch_boundaries _).mpr ⟨?_, by omega⟩)
        have hle : s.acc.batchStart ≤ satAdd32 b 1 := by
          rw [satAdd32_of_lt (h.boundary_lt hb)]
          omega
        exact (hbs.2 b' hb').resolve_left (by omega)

/-! ## Calls -/

theorem Between.call_delivers (h : Between S sets k s)
    (hfin : ∀ f ∈ s.acc.finalized, S.Delivered s.out f) (hw : env.wincode.Lawful)
    (hp : Protects S sets) (hrs : env.reedSolomon.Rebuilds parity) {c : Call}
    (hsends : Sends S sets c) (clock : Clock) {fuel : ℕ} (hfuel : 2 ^ 32 < fuel) :
    ∃ r, s.acc.call env clock fuel s.cache c = some r ∧
      ∃ j, Between S sets j { r with out := s.out ++ r.out } ∧
        ∀ f ∈ r.acc.finalized, S.Delivered (s.out ++ r.out) f := by
  rcases h.enters hw hp hrs h.consistent h.clear h.parsed hsends clock hfuel with
    ⟨b, hcall⟩ | ⟨s₁, -, hserved, -, hsame, hflush⟩
  · refine ⟨_, hcall, k, h.call hsends hcall (h.toServed.dropHandle b), fun f hf => ?_⟩
    rw [List.append_nil]
    exact hfin f hf
  · have hfin₁ : ∀ f ∈ s₁.acc.finalized, S.Delivered (s.out ++ s₁.out) f := by
      rw [hsame]
      exact fun f hf => (hfin f hf).mono fun tx htx => List.mem_append_left _ htx
    obtain ⟨r, hr, j, hserved', hfin'⟩ := hserved.flush_delivers hfin₁ hw hp hrs clock hfuel
    obtain ⟨r', hcall, rfl | ⟨b, rfl⟩⟩ := hflush r hr
    · exact ⟨_, hcall, j, h.call hsends hcall hserved', hfin'⟩
    · exact ⟨_, hcall, j, h.call hsends hcall (hserved'.dropHandle b), hfin'⟩

theorem Between.harvest_delivers (h : Between S sets k s)
    (hfin : ∀ f ∈ s.acc.finalized, S.Delivered s.out f) (hw : env.wincode.Lawful)
    (hp : Protects S sets) (hrs : env.reedSolomon.Rebuilds parity) (clock : Clock) {fuel : ℕ}
    (hfuel : 2 ^ 32 < fuel) :
    ∃ r, s.acc.tryHarvestTail env clock fuel s.cache = some r ∧
      ∀ f ∈ r.acc.finalized, S.Delivered (s.out ++ r.out) f := by
  have hfilled := h.toServed.fillHints hp hrs clock s.acc.fecSets.keys
  have hrefill := refilled_fillHints env s.acc clock s.cache s.acc.fecSets.keys
  unfold SlotAccumulator.tryHarvestTail
  generalize SlotAccumulator.fillHints env clock s.acc s.cache s.acc.fecSets.keys = filled
    at hfilled hrefill
  obtain ⟨acc, cache⟩ := filled
  have hbs : ∀ b ∈ ((acc.pending.toList.filter fun e => e.2.batchComplete).map Prod.fst).filter
      (· ≥ acc.batchStart), b < acc.batchStart ∨ b ∈ acc.batchCompleteIndices := by
    intro b hb
    obtain ⟨e, he, rfl⟩ := List.mem_map.mp (List.mem_filter.mp hb).1
    obtain ⟨hmem, hflag⟩ := List.mem_filter.mp he
    have hps := acc.pending.mem_toList.mp hmem
    have hends := (hfilled.holds e.1 e.2 hps).2.batchComplete.mp hflag
    exact .inr ((hfilled.boundary e.1).mpr ⟨acc.pending.mem_iff_getElem?.mpr ⟨e.2, hps⟩, hends⟩)
  have hfin₁ : ∀ f ∈ acc.finalized, S.Delivered (s.out ++ []) f := by
    rw [hrefill.finalized, List.append_nil]
    exact hfin
  obtain ⟨⟨acc', out'⟩, hrun, hfin'⟩ := hfilled.harvest_delivers hw hfuel hfin₁ hbs
  simp only [hrun, Option.bind_eq_bind, Option.bind_some, harvestRuns_eq]
  refine ⟨_, rfl, fun f hf => (hfin' f hf).mono fun tx htx => ?_⟩
  rw [← List.append_assoc]
  exact List.mem_append_left _ htx

/-- Over all calls with shreds of a slot and of the code of its FEC sets, and a final
    harvest, whatever is lost and whichever batch is found stuck: when `batch_start`
    moves past the end of a batch that is complete, its transactions are returned by
    the end of the call, if the batch is read apart from those in front of it. -/
theorem complete_batches_delivered (hw : env.wincode.Lawful)
    (hrs : env.reedSolomon.Rebuilds parity) (hp : Protects S sets) (cfg : AccumulatorConfig)
    {cache : ReedSolomonCache C} (hcache : cache.Valid env.reedSolomon)
    {calls last : List (Clock × Call)} (hcalls : ∀ c ∈ calls, Sends S sets c.2)
    (hlast : last = [] ∨ ∃ clock, last = [(clock, .harvest)]) {fuel : ℕ} (hfuel : 2 ^ 32 < fuel) :
    ∃ r, runCalls env fuel (.fresh cfg cache) (calls ++ last) = some r ∧
      ∀ f ∈ r.acc.finalized, ∀ m, S.Passes f m → S.Apart f m → ∀ tx ∈ S.txs m, tx ∈ r.out := by
  have hpackets : ∃ r, runCalls env fuel (.fresh cfg cache) calls = some r ∧
      ∃ k, Between S sets k r ∧ ∀ f ∈ r.acc.finalized, S.Delivered r.out f :=
    runCalls_total
      (fun _ s => ∃ k, Between S sets k s ∧ ∀ f ∈ s.acc.finalized, S.Delivered s.out f)
      (fun c => Sends S sets c.2)
      (fun _ s c ⟨k, hs, hfin⟩ hsends => hs.call_delivers hfin hw hp hrs hsends c.1 hfuel)
      calls [] (.fresh cfg cache) ⟨0, between_fresh cfg hcache, fun f hf => by cases hf⟩ hcalls
  obtain ⟨r, hrun, k, hr, hfin⟩ := hpackets
  rw [runCalls_append, hrun, Option.bind_some]
  rcases hlast with rfl | ⟨clock, rfl⟩
  · exact ⟨r, rfl, hfin⟩
  · obtain ⟨r', hrun', hfin'⟩ := hr.harvest_delivers hfin hw hp hrs clock hfuel
    refine ⟨{ r' with out := r.out ++ r'.out }, ?_, hfin'⟩
    simp only [runCalls, call, hrun', Option.bind_eq_bind, Option.bind_some]

/-! ## Two batches -/

open FecSet

/-- One shred of the first batch is recovered, and each batch is finalised on its own. -/
theorem complete_batches_delivered_in_order :
    ∃ r, runCalls pairEnv (2 ^ 32 + 1) (.fresh {} {})
        (packets [some 0, none, some 2, some 3] ++ [(stillClock, .harvest)]) = some r ∧
      ∀ m < 2, ∀ tx ∈ twoBatches.txs m, tx ∈ r.out := by
  have hcache : ReedSolomonCache.Valid pairEnv.reedSolomon {} := fun e he => by cases he
  obtain ⟨r, hrun, hdelivered⟩ := complete_batches_delivered
    (show pairEnv.wincode.Lawful from LegacyWire.wincode_lawful)
    (show pairEnv.reedSolomon.Rebuilds pairParity from pairCrate_rebuilds) protects_twoBatches {}
    hcache (sends_packets [some 0, none, some 2, some 3]) (.inr ⟨stillClock, rfl⟩)
    (show 2 ^ 32 < 2 ^ 32 + 1 by decide)
  refine ⟨r, hrun, fun m hm => ?_⟩
  have hfinalized : (runCalls pairEnv (2 ^ 32 + 1) (.fresh {} {})
      (packets [some 0, none, some 2, some 3] ++ [(stillClock, .harvest)])).map
        (fun r => r.acc.finalized.map fun f => (f.start, f.bcIdx, f.pending.keys)) =
      some [(0, 1, [0, 1]), (2, 3, [2, 3])] := by decide +kernel
  rw [hrun, Option.map_some, Option.some.injEq] at hfinalized
  -- batch `m` is finalised from its own start on
  have hmem : (twoBatches.start m, twoBatches.start (m + 1) - 1,
      List.range' (twoBatches.start m) (twoBatches.start (m + 1) - twoBatches.start m)) ∈
        r.acc.finalized.map fun f => (f.start, f.bcIdx, f.pending.keys) := by
    rw [hfinalized]
    revert m
    decide
  obtain ⟨f, hf, heq⟩ := List.mem_map.mp hmem
  simp only [Prod.mk.injEq] at heq
  obtain ⟨hstart, hend, hkeys⟩ := heq
  have hlt := twoBatches.start_lt m hm
  apply hdelivered f hf m
  · refine ⟨hm, by omega, by omega, fun i h1 h2 => ?_⟩
    rw [← Std.ExtTreeMap.mem_keys, hkeys, List.mem_range'_1]
    omega
  · exact ⟨.inl hstart, fun x y h1 h2 h3 => by omega⟩

/-- The second batch and the code shred come first. Then the end of the first batch is
    recovered on the way to the end of the second one, and both are decoded as one. -/
theorem swallowed_batch :
    ¬∀ (S : Slot pairEnv.wincode) (sets : FecSets pairEnv.reedSolomon pairParity)
      (calls : List (Clock × Call)), Protects S sets → (∀ c ∈ calls, Sends S sets c.2) →
      ∃ r, runCalls pairEnv (2 ^ 32 + 1) (.fresh {} {}) calls = some r ∧
        ∀ f ∈ r.acc.finalized, ∀ m, S.Passes f m → ∀ tx ∈ S.txs m, tx ∈ r.out := by
  intro h
  obtain ⟨r, hrun, hall⟩ := h twoBatches firstSets _ protects_twoBatches
    (sends_packets [some 2, some 3, none, some 0])
  have hstate : (runCalls pairEnv (2 ^ 32 + 1) (.fresh {} {})
      (packets [some 2, some 3, none, some 0])).map (fun r => (r.out,
        r.acc.finalized.map fun f => (f.start, f.bcIdx, f.pending.keys))) =
      some ([LegacyWire.signedTx 1 []], [(0, 3, [0, 1, 2, 3])]) := by decide +kernel
  rw [hrun, Option.map_some, Option.some.injEq, Prod.mk.injEq] at hstate
  obtain ⟨hout, hfinalized⟩ := hstate
  obtain ⟨f, hf, heq⟩ := List.mem_map.mp (hfinalized ▸ List.mem_cons_self)
  simp only [Prod.mk.injEq] at heq
  obtain ⟨hstart, hend, hkeys⟩ := heq
  have hbounds : twoBatches.start 1 = 2 ∧ twoBatches.start (1 + 1) = 4 := by decide
  have hpasses : twoBatches.Passes f 1 := by
    refine ⟨by decide, by omega, by omega, fun i h1 h2 => ?_⟩
    have hmem : i ∈ List.range' 0 4 := by
      rw [List.mem_range'_1]
      omega
    rwa [← Std.ExtTreeMap.mem_keys, hkeys]
  have hmem : LegacyWire.signedTx 2 [] ∈ r.out := hall f hf 1 hpasses _ (by decide +kernel)
  rw [hout] at hmem
  revert hmem
  decide

end Slot

end ShredStream
