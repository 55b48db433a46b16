import ShredStream.Slot.Protected

/-!
# What is left when a call returns

`push_data` and `push_code` (accumulator.rs, lines 157–239) stream, then flush. The
flush may leave its loop at a boundary that it picked before it recovered a smaller
one, and it does not stream the batch that it has opened.

Results:

* `Served.flush_settles`: a flush that leaves its loop at none of the two states
  (`StopsShort`, `OpensUnread`) leaves no complete batch, and nothing that arrived in
  one piece unreturned.
* `nothing_held_back`: so do all calls.
* `held_back`: each of the two happens.
-/

namespace ShredStream

open FirstByKey SlotAccumulator

namespace Slot

variable {C : Type} {env : Env C} {parity : ℕ → ℕ → List Bytes → List Bytes}
  {S : Slot env.wincode} {sets : FecSets env.reedSolomon parity} {clock : Clock} {k : ℕ}
  {base : List VersionedTransaction} {s : CallState C}

/-- The boundary the flush picks lies behind a batch end all of whose batch is pending
    or can be recovered. -/
def StopsShort {w : Wincode} (S : Slot w) (acc : SlotAccumulator) : Prop :=
  ∃ bcIdx t, acc.batchCompleteIndices.firstFrom acc.batchStart = some (bcIdx, t) ∧
    ∃ b, S.EndsBatch b ∧ acc.batchStart ≤ b ∧ b < bcIdx ∧
      ∀ i, acc.batchStart ≤ i → i ≤ b → i ∈ acc.pending ∨ acc.Recoverable i

/-- Nothing of the batch was streamed, and what arrived of it in one piece completes an
    entry with transactions. -/
def OpensUnread {w : Wincode} (S : Slot w) (acc : SlotAccumulator) : Prop :=
  acc.streamingCursor = acc.batchStart ∧ ∃ k ≤ S.batches, S.start k = acc.batchStart ∧
    ∃ c, (∀ i, S.start k ≤ i → i < c → acc.Received i) ∧ S.streamed k c ≠ []

/-- The flush of a call leaves its loop in neither of these states. -/
def LeavesNothing (env : Env C) (clock : Clock) (fuel : ℕ) (S : Slot env.wincode)
    (acc : SlotAccumulator) (cache : ReedSolomonCache C) (c : Call) : Prop :=
  ∀ t r, FlushesAt env clock fuel acc cache c t → flushBody env clock fuel t = some (.inr r) →
    ¬S.StopsShort t.acc ∧ ¬S.OpensUnread t.acc

/-- On the way to every boundary a shred is missing. -/
def Waits (acc : SlotAccumulator) : Prop :=
  ∀ b ∈ acc.batchCompleteIndices, ∃ i, acc.batchStart ≤ i ∧ i ≤ b ∧ i ∉ acc.pending

/-- No complete batch is left undecoded, and the transactions of all entries in the shreds
    that arrived in one piece from the batch start on were returned. -/
structure NothingHeldBack {w : Wincode} (S : Slot w) (acc : SlotAccumulator)
    (out : List VersionedTransaction) : Prop where
  waits : Waits acc
  served : ∃ k ≤ S.batches, S.start k = acc.batchStart ∧
    ∀ c, (∀ i, S.start k ≤ i → i < c → acc.Received i) → ∀ tx ∈ S.streamed k c, tx ∈ out

/-! ## The flush -/

/-- What is streamed or not readable of the batch is not held back. -/
theorem headServed_of_not_opensUnread {acc : SlotAccumulator} {out : List VersionedTransaction}
    (h : S.Aligned k acc) (hcursor : acc.streamingCursor = acc.batchStart)
    (hno : ¬S.OpensUnread acc) : HeadServed S k acc out := by
  intro c hall tx htx
  apply absurd _ hno
  exact ⟨hcursor, k, h.k_le, h.batchStart.symm, c, hall, List.ne_nil_of_mem htx⟩

theorem Served.waits_of_none (h : Served S sets k base s)
    (hnone : s.acc.batchCompleteIndices.firstFrom s.acc.batchStart = none) : Waits s.acc := by
  intro b hb
  have hlt := (BTreeMap.firstFrom_eq_none _).mp hnone b hb
  have hge := h.start_le ((h.boundary b).mp hb).1
  rw [h.batchStart] at hlt
  omega

/-- The flush stops at a boundary with a gap in front of it; a smaller one was there, or
    was recovered with all of its batch. -/
theorem Served.waits_of_gap (h : Served S sets k base s) (hrs : env.reedSolomon.Rebuilds parity)
    (hno : ¬S.StopsShort s.acc) {bcIdx t : ℕ} {s' : CallState C}
    (hfirst : s.acc.batchCompleteIndices.firstFrom s.acc.batchStart = some (bcIdx, t))
    (hfill : s.acc.flushFill env clock s.cache bcIdx = (s'.acc, s'.cache))
    (h' : Served S sets k base s')
    (hgap : ∃ i, s.acc.batchStart ≤ i ∧ i ≤ bcIdx ∧ i ∉ s'.acc.pending) : Waits s'.acc := by
  have hstart : s'.acc.batchStart = s.acc.batchStart := by rw [h'.batchStart, h.batchStart]
  have hmem {i : ℕ} (hi : i ∈ s'.acc.pending) : i ∈ s.acc.pending ∨ s.acc.Recoverable i := by
    apply mem_flushFill hrs h.fromSets h.cache
    rw [hfill]
    exact hi
  intro b hb
  rw [hstart]
  by_contra hno'
  push Not at hno'
  obtain ⟨i, h1, h2, hi⟩ := hgap
  have hlt : b < bcIdx := by
    by_contra hge
    exact hi (hno' i h1 (by omega))
  obtain ⟨hbmem, hends⟩ := (h'.boundary b).mp hb
  apply hno
  refine ⟨bcIdx, t, hfirst, b, hends, ?_, hlt, fun i h1 h2 => hmem (hno' i h1 h2)⟩
  rw [h.batchStart]
  exact h'.start_le hbmem

/-- A flush that begins with all served leaves nothing. -/
theorem Served.flush_settles (h : Served S sets k base s)
    (hhead : HeadServed S k s.acc (base ++ s.out)) (hp : Protects S sets)
    (hrs : env.reedSolomon.Rebuilds parity) {fuel : ℕ} (hfuel : 2 ^ 32 < fuel)
    (hleaves : ∀ t r, FuelLoop.Visits (flushBody env clock fuel) s t →
      flushBody env clock fuel t = some (.inr r) → ¬S.StopsShort t.acc ∧ ¬S.OpensUnread t.acc) :
    ∃ r, s.acc.tryFlushBatches env clock fuel s.cache s.out = some r ∧
      ∃ j, Served S sets j base r ∧ HeadServed S j r.acc (base ++ r.out) ∧ Waits r.acc := by
  refine FuelLoop.run_total
    (fun t : CallState C => FuelLoop.Visits (flushBody env clock fuel) s t ∧
      ∃ j, Served S sets j base t ∧ (HeadServed S j t.acc (base ++ t.out) ∨
        t.acc.streamingCursor = t.acc.batchStart)) _
    (fun t => S.shreds - t.acc.batchStart) ?_ fuel s ⟨.start, k, h, .inl hhead⟩
    (S.shreds_sub_lt hfuel _)
  rintro t ⟨hvisits, j, ht, hserved⟩
  have hhead {r : CallState C} (hr : flushBody env clock fuel t = some (.inr r)) :
      HeadServed S j t.acc (base ++ t.out) := by
    rcases hserved with hserved | hcursor
    · exact hserved
    · exact headServed_of_not_opensUnread ht.toAligned hcursor (hleaves t r hvisits hr).2
  rcases ht.flushBody_cases hp hrs clock hfuel with
    ⟨hnone, hbody⟩ | ⟨bcIdx, first, t', hfirst, hout, hfill, ht', hcases⟩
  · exact .inr ⟨t, hbody, j, ht, hhead hbody, ht.waits_of_none hnone⟩
  rcases hcases with ⟨hgap, hbody⟩ | ⟨txs, counters, -, hb, hbody⟩
  · have hrefill := refilled_flushFill env t.acc clock t.cache bcIdx
    rw [hfill] at hrefill
    refine .inr ⟨t', hbody, j, ht', ?_, ?_⟩
    · rw [hout]
      exact (hhead hbody).refilled hrefill
    · exact ht.waits_of_gap hrs (hleaves t t' hvisits hbody).1 hfirst hfill ht' hgap
  · obtain ⟨i, hji, hcursor, hnext⟩ := ht'.finalise hb txs counters
    refine .inl ⟨_, hbody, ⟨.next hvisits hbody, i, hnext, .inr ?_⟩, ?_⟩
    · rw [hnext.batchStart]
      exact hcursor
    · rw [hnext.batchStart, ht.batchStart]
      exact S.shreds_sub_start_lt hji hnext.k_le

/-! ## Calls -/

/-- A call that leaves nothing finds and keeps it so. -/
theorem Between.call_settles (h : Between S sets k s) (hhead : HeadServed S k s.acc s.out)
    (hwaits : Waits s.acc) (hw : env.wincode.Lawful) (hp : Protects S sets)
    (hrs : env.reedSolomon.Rebuilds parity) {c : Call} (hsends : Sends S sets c) {fuel : ℕ}
    (hfuel : 2 ^ 32 < fuel) (hleaves : LeavesNothing env clock fuel S s.acc s.cache c) :
    ∃ r, s.acc.call env clock fuel s.cache c = some r ∧
      ∃ j, Between S sets j { r with out := s.out ++ r.out } ∧
        HeadServed S j r.acc (s.out ++ r.out) ∧ Waits r.acc := by
  rcases h.enters hw hp hrs h.consistent h.clear h.parsed hsends clock hfuel with
    ⟨b, hcall⟩ | ⟨s₁, henters, hserved, hhead₁, -, hflush⟩
  · refine ⟨_, hcall, k, h.call hsends hcall (h.toServed.dropHandle b), ?_, hwaits⟩
    rw [List.append_nil]
    exact hhead
  · obtain ⟨r, hr, j, hserved', hhead', hwaits'⟩ := hserved.flush_settles (hhead₁ hhead) hp hrs
      hfuel fun t r hvisits => hleaves t r ⟨s₁, henters, hvisits⟩
    obtain ⟨r', hcall, rfl | ⟨b, rfl⟩⟩ := hflush r hr
    · exact ⟨_, hcall, j, h.call hsends hcall hserved', hhead', hwaits'⟩
    · exact ⟨_, hcall, j, h.call hsends hcall (hserved'.dropHandle b), hhead', hwaits'⟩

/-- Whatever is lost and in whatever order the rest arrives: as long as every flush leaves
    its loop at a boundary that no smaller recoverable one precedes, and at a batch that
    was streamed or has no readable head, nothing decodable is held back between calls. -/
theorem nothing_held_back (hw : env.wincode.Lawful) (hrs : env.reedSolomon.Rebuilds parity)
    (hp : Protects S sets) (cfg : AccumulatorConfig) {cache : ReedSolomonCache C}
    (hcache : cache.Valid env.reedSolomon) {calls : List (Clock × Call)}
    (hcalls : ∀ c ∈ calls, Sends S sets c.2) {fuel : ℕ} (hfuel : 2 ^ 32 < fuel)
    (hleaves : ∀ pre c post s, calls = pre ++ c :: post →
      runCalls env fuel (.fresh cfg cache) pre = some s →
        LeavesNothing env c.1 fuel S s.acc s.cache c.2) :
    ∃ r, runCalls env fuel (.fresh cfg cache) calls = some r ∧ S.NothingHeldBack r.acc r.out := by
  have hrun : ∃ r, runCalls env fuel (.fresh cfg cache) calls = some r ∧
      ∃ k, Between S sets k r ∧ HeadServed S k r.acc r.out ∧ Waits r.acc := by
    apply runCalls_returns
    · refine ⟨0, between_fresh cfg hcache, headServed_of_missing ?_, fun b hb => ?_⟩
      · rintro ⟨ps, hps, -⟩
        simp [CallState.fresh, withConfig] at hps
      · simp [CallState.fresh, withConfig] at hb
    · rintro pre c post s hsplit hpre ⟨k, hs, hhead, hwaits⟩
      have hmem : c ∈ calls := by
        rw [hsplit]
        exact List.mem_append_right _ List.mem_cons_self
      exact hs.call_settles hhead hwaits hw hp hrs (hcalls c hmem) hfuel
        (hleaves pre c post s hsplit hpre)
  obtain ⟨r, hr, k, hbetween, hhead, hwaits⟩ := hrun
  exact ⟨r, hr, hwaits, k, hbetween.k_le, hbetween.batchStart.symm, hhead⟩

/-! ## Two batches -/

open FecSet

theorem not_stopsShort {w : Wincode} {S : Slot w} {acc : SlotAccumulator}
    (h : acc.batchCompleteIndices.keys = []) : ¬S.StopsShort acc := by
  rintro ⟨bcIdx, t, hfirst, -⟩
  obtain ⟨hbc, -, -⟩ := BTreeMap.firstFrom_spec _ hfirst
  have hmem := Std.ExtTreeMap.mem_keys.mpr (acc.batchCompleteIndices.mem_iff_getElem?.mpr ⟨t, hbc⟩)
  rw [h] at hmem
  cases hmem

theorem not_opensUnread {w : Wincode} {S : Slot w} {acc : SlotAccumulator}
    (h : acc.batchStart ∉ acc.pending) : ¬S.OpensUnread acc := by
  rintro ⟨-, k, -, hk, c, hall, hne⟩
  rcases Nat.lt_or_ge (S.start k) c with hlt | hge
  · obtain ⟨ps, hps, -⟩ := hall _ le_rfl hlt
    apply h
    rw [← hk]
    exact acc.pending.mem_iff_getElem?.mpr ⟨ps, hps⟩
  · exact hne (S.streamed_of_le hge)

theorem visits_of_keys {env : Env C} {fuel : ℕ} {t : CallState C}
    (h : FuelLoop.Visits (flushBody env clock fuel) s t)
    (hkeys : s.acc.batchCompleteIndices.keys = []) : t = s := by
  have hnone : s.acc.batchCompleteIndices.firstFrom s.acc.batchStart = none := by
    apply (BTreeMap.firstFrom_eq_none _).mpr
    intro b hb
    rw [← Std.ExtTreeMap.mem_keys, hkeys] at hb
    cases hb
  have hbody : flushBody env clock fuel s = some (.inr s) := by
    unfold flushBody
    rw [hnone]
  rcases h.cases_head with rfl | ⟨s', hs', -⟩
  · rfl
  · rw [hbody] at hs'
    cases hs'

/-- The first shred is streamed, and no boundary is known. -/
theorem leavesNothing_first : LeavesNothing pairEnv stillClock (2 ^ 32 + 1) twoBatches
    (withConfig {}) {} (.data (firstSet.dataArgs 0 0)) := by
  have hstreamed : (((withConfig {}).insertData stillClock (firstSet.dataArgs 0 0)).advanceStreaming
      pairEnv (2 ^ 32 + 1) []).map (fun r => (r.1.streamingCursor, r.1.batchStart,
        r.1.batchCompleteIndices.keys)) = some (1, 0, []) := by decide +kernel
  rintro t r ⟨s₀, henters, hvisits⟩ -
  have hs₀ : s₀.acc.streamingCursor = 1 ∧ s₀.acc.batchStart = 0 ∧
      s₀.acc.batchCompleteIndices.keys = [] := by
    cases henters with
    | last hlast => exact absurd hlast (by decide)
    | passed _ hrun _ =>
      rw [hrun] at hstreamed
      simpa using hstreamed
    | data _ hrun hcur _ =>
      rw [hrun] at hstreamed
      simp only [Option.map_some, Option.some.injEq, Prod.mk.injEq] at hstreamed
      rw [hstreamed.1] at hcur
      exact absurd hcur (by decide)
  obtain ⟨hcur, hstart, hkeys⟩ := hs₀
  obtain rfl := visits_of_keys hvisits hkeys
  refine ⟨not_stopsShort hkeys, ?_⟩
  rintro ⟨hopens, -⟩
  omega

/-- The second shred is recovered and streamed, and the batch decoded. -/
theorem leavesNothing_second {s : CallState Unit}
    (hs : runCalls pairEnv (2 ^ 32 + 1) (.fresh {} {}) (packets [some 0]) = some s) :
    LeavesNothing pairEnv stillClock (2 ^ 32 + 1) twoBatches s.acc s.cache
      (.code (firstSet.codeArgs 0)) := by
  have hdecoded : ((runCalls pairEnv (2 ^ 32 + 1) (.fresh {} {}) (packets [some 0])).bind fun s =>
      let filled := (s.acc.recordCode (firstSet.codeArgs 0)).tryFecFill pairEnv stillClock s.cache 0
      (resume pairEnv (2 ^ 32 + 1) filled []).bind fun r =>
        flushBody pairEnv stillClock (2 ^ 32 + 1) ⟨r.1, filled.2.1, r.2⟩).map
          (Sum.elim (fun s => some (s.acc.batchStart, s.acc.batchCompleteIndices.keys,
            s.acc.pending.keys)) fun _ => none) = some (some (2, [], [])) := by decide +kernel
  rintro t r ⟨s₀, henters, hvisits⟩ hbody
  cases henters with
  | code hres =>
    have hset : (firstSet.codeArgs 0).fecSetIndex = 0 := rfl
    rw [hset] at hres hvisits
    simp only [hs, Option.bind_some, hres] at hdecoded
    obtain ⟨next, hnext, hstate⟩ := Option.map_eq_some_iff.mp hdecoded
    rcases hvisits.cases_head with rfl | ⟨s', hs', hvisits'⟩
    · rw [hbody] at hnext
      cases hnext
      cases hstate
    · rw [hs'] at hnext
      cases hnext
      simp only [Sum.elim_inl, Option.some.injEq, Prod.mk.injEq] at hstate
      obtain ⟨hstart, hkeys, hpending⟩ := hstate
      obtain rfl := visits_of_keys hvisits' hkeys
      refine ⟨not_stopsShort hkeys, not_opensUnread ?_⟩
      rw [← Std.ExtTreeMap.mem_keys, hpending]
      exact List.not_mem_nil

/-- The code shred gives the second shred of the first batch, which is decoded. -/
theorem nothing_held_back_recovered :
    ∃ r, runCalls pairEnv (2 ^ 32 + 1) (.fresh {} {}) (packets [some 0, none]) = some r ∧
      twoBatches.NothingHeldBack r.acc r.out := by
  have hcache : ReedSolomonCache.Valid pairEnv.reedSolomon {} := fun e he => by cases he
  apply nothing_held_back (show pairEnv.wincode.Lawful from LegacyWire.wincode_lawful)
    (show pairEnv.reedSolomon.Rebuilds pairParity from pairCrate_rebuilds) protects_twoBatches {}
    hcache (sends_packets [some 0, none]) (show 2 ^ 32 < 2 ^ 32 + 1 by decide)
  intro pre c post s hsplit hpre
  cases pre with
  | nil =>
    cases hsplit
    cases hpre
    exact leavesNothing_first
  | cons c₁ pre =>
    cases pre with
    | nil =>
      cases hsplit
      exact leavesNothing_second hpre
    | cons c₂ pre => simp [packets] at hsplit

/-- The third shred of the slot, which comes first, begins the batch that is opened when the
    first one was decoded, and is never streamed. And the flush that recovers the end of the
    first batch stops at that of the second one. -/
theorem held_back :
    (¬∀ (S : Slot pairEnv.wincode) (sets : FecSets pairEnv.reedSolomon pairParity)
      (calls : List (Clock × Call)), Protects S sets → (∀ c ∈ calls, Sends S sets c.2) →
      (∀ c ∈ calls, ∀ b t, c.1.elapsed b t < ({} : AccumulatorConfig).stuckBatchTimeout) →
      ∃ r, runCalls pairEnv (2 ^ 32 + 1) (.fresh {} {}) calls = some r ∧ Waits r.acc) ∧
    ¬∀ (S : Slot pairEnv.wincode) (sets : FecSets pairEnv.reedSolomon pairParity)
      (calls : List (Clock × Call)), Protects S sets → (∀ c ∈ calls, Sends S sets c.2) →
      (∀ c ∈ calls, ∀ b t, c.1.elapsed b t < ({} : AccumulatorConfig).stuckBatchTimeout) →
      ∃ r, runCalls pairEnv (2 ^ 32 + 1) (.fresh {} {}) calls = some r ∧
        ∃ k ≤ S.batches, S.start k = r.acc.batchStart ∧
          ∀ c, (∀ i, S.start k ≤ i → i < c → r.acc.Received i) → ∀ tx ∈ S.streamed k c,
            tx ∈ r.out := by
  constructor
  · intro h
    obtain ⟨r, hrun, hwaits⟩ := h twoBatches firstSets _ protects_twoBatches
      (sends_packets [some 3, none, some 0]) (still_packets _)
    have hstate : (runCalls pairEnv (2 ^ 32 + 1) (.fresh {} {})
        (packets [some 3, none, some 0])).map (fun r => (r.acc.batchStart,
          r.acc.batchCompleteIndices.keys, r.acc.pending.keys)) =
        some (0, [1, 3], [0, 1, 3]) := by decide +kernel
    rw [hrun, Option.map_some, Option.some.injEq, Prod.mk.injEq, Prod.mk.injEq] at hstate
    obtain ⟨hstart, hboundaries, hpending⟩ := hstate
    obtain ⟨i, h1, h2, hi⟩ := hwaits 1 (by rw [← Std.ExtTreeMap.mem_keys, hboundaries]; decide)
    rw [← Std.ExtTreeMap.mem_keys, hpending] at hi
    interval_cases i <;> simp at hi
  · intro h
    obtain ⟨r, hrun, k, hk, hstart, hserved⟩ := h twoBatches firstSets _ protects_twoBatches
      (sends_packets [some 2, some 0, some 1]) (still_packets _)
    have hstate : (runCalls pairEnv (2 ^ 32 + 1) (.fresh {} {})
        (packets [some 2, some 0, some 1])).map (fun r => (r.out, r.acc.batchStart,
          (r.acc.pending[2]?).map fun ps => ps.source.isRecovered)) =
        some ([LegacyWire.signedTx 1 []], 2, some false) := by decide +kernel
    rw [hrun, Option.map_some, Option.some.injEq, Prod.mk.injEq, Prod.mk.injEq] at hstate
    obtain ⟨hout, hbatch, hsource⟩ := hstate
    obtain rfl : k = 1 := by
      have hopens : twoBatches.start 1 = 2 := by decide
      exact twoBatches.start_inj hk (by decide) (by rw [hstart, hbatch, hopens])
    have hreceived : r.acc.Received 2 := Option.map_eq_some_iff.mp hsource
    have hmem := hserved 3 (fun i h1 h2 => by
      rw [hstart, hbatch] at h1
      obtain rfl : i = 2 := by omega
      exact hreceived) (LegacyWire.signedTx 2 []) (by decide +kernel)
    rw [hout] at hmem
    revert hmem
    decide

end Slot

end ShredStream
