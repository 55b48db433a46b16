import ShredStream.Accumulator.Steps

/-!
# The representation invariant

`Consistent` holds at every step of a call. Between calls there is moreover no
batch boundary that streaming could reach (`Clear`): on the way from the cursor to
it a shred is missing or recovered. `try_flush_batches` establishes it, because it
leaves its loop at a batch with a gap, and what its last recovery attempts add is
recovered.

* `represents_between_calls`: what holds between calls, what a call moves forward,
  and what holds at every iteration of `advance_streaming`.
-/

namespace ShredStream.SlotAccumulator

variable {C : Type} {env : Env C} {clock : Clock} {acc acc' : SlotAccumulator}

/-- The part of the invariant that every step keeps. -/
structure Consistent (acc : SlotAccumulator) : Prop where
  start_le : acc.batchStart ≤ acc.streamingCursor
  cursor_le : acc.streamingCursor ≤ u32Max
  ge_start : ∀ i ∈ acc.pending, acc.batchStart ≤ i
  boundary_iff : ∀ i, i ∈ acc.batchCompleteIndices ↔
    ∃ ps, acc.pending[i]? = some ps ∧ ps.batchComplete = true
  streamed : ∀ i, acc.batchStart ≤ i → i < acc.streamingCursor →
    ∃ ps, acc.pending[i]? = some ps ∧ ps.source.isRecovered = false

/-- On the way from the cursor to a boundary a shred is missing or recovered. -/
def Clear (acc : SlotAccumulator) : Prop :=
  ∀ b ∈ acc.batchCompleteIndices, ∃ i, acc.streamingCursor ≤ i ∧ i ≤ b ∧
    ∀ ps, acc.pending[i]? = some ps → ps.source.isRecovered = true

/-- No boundary was passed by the cursor. -/
def Unpassed (acc : SlotAccumulator) : Prop :=
  ∀ b ∈ acc.batchCompleteIndices, acc.streamingCursor ≤ b

theorem Clear.unpassed (h : acc.Clear) : acc.Unpassed := by
  intro b hb
  obtain ⟨i, h1, h2, -⟩ := h b hb
  exact h1.trans h2

/-- The representation invariant between calls. -/
structure Represents (acc : SlotAccumulator) : Prop where
  start_le_cursor : acc.batchStart ≤ acc.streamingCursor
  pending_ge : ∀ i ∈ acc.pending, acc.batchStart ≤ i
  boundaries : ∀ i, i ∈ acc.batchCompleteIndices ↔
    ∃ ps, acc.pending[i]? = some ps ∧ ps.batchComplete = true
  streamed : ∀ i, acc.batchStart ≤ i → i < acc.streamingCursor →
    ∃ ps, acc.pending[i]? = some ps ∧ ps.source.isRecovered = false ∧ ps.batchComplete = false

theorem Consistent.represents (h : acc.Consistent) (hclear : acc.Unpassed) : acc.Represents where
  start_le_cursor := h.start_le
  pending_ge := h.ge_start
  boundaries := h.boundary_iff
  streamed i h1 h2 := by
    obtain ⟨ps, hps, hpool⟩ := h.streamed i h1 h2
    refine ⟨ps, hps, hpool, ?_⟩
    by_contra hflag
    have := hclear i ((h.boundary_iff i).mpr ⟨ps, hps, by simpa using hflag⟩)
    omega

theorem consistent_withConfig (cfg : AccumulatorConfig) : (withConfig cfg).Consistent where
  start_le := le_rfl
  cursor_le := Nat.zero_le _
  ge_start i h := by simp [withConfig] at h
  boundary_iff i := by simp [withConfig]
  streamed i _ h := absurd h (Nat.not_lt_zero i)

theorem clear_withConfig (cfg : AccumulatorConfig) : (withConfig cfg).Clear := by
  intro b hb
  simp [withConfig] at hb

/-! ## Storing shreds -/

/-- The boundaries after a shred was stored at a new index. -/
theorem boundary_iff_insert
    (h : ∀ i, i ∈ acc.batchCompleteIndices ↔
      ∃ ps, acc.pending[i]? = some ps ∧ ps.batchComplete = true)
    {k : ℕ} (t : ℕ) (ps : PendingShred) (hk : k ∉ acc.pending) (i : ℕ) :
    (i ∈ if ps.batchComplete then acc.batchCompleteIndices.insertIfNew k t
      else acc.batchCompleteIndices) ↔
      ∃ ps', (acc.pending.insert k ps)[i]? = some ps' ∧ ps'.batchComplete = true := by
  have hnot : k ∉ acc.batchCompleteIndices := by
    rw [h]
    rintro ⟨ps', hps', -⟩
    exact hk (acc.pending.mem_iff_getElem?.mpr ⟨ps', hps'⟩)
  rw [BTreeMap.getElem?_insert_eq]
  by_cases hik : k = i
  · subst hik
    simp only [if_true, Option.some.injEq, exists_eq_left']
    split_ifs with hflag
    · simp [hflag]
    · simp [hflag, hnot]
  · rw [if_neg hik, ← h]
    split_ifs
    · rw [Std.ExtTreeMap.mem_insertIfNew, Nat.compare_eq_eq]
      simp [hik]
    · rfl

theorem Consistent.insertData (h : acc.Consistent) {a : DataArgs}
    (hge : acc.batchStart ≤ a.index) (hnew : a.index ∉ acc.pending) :
    (acc.insertData clock a).Consistent where
  start_le := h.start_le
  cursor_le := h.cursor_le
  ge_start i hi := by
    rcases Std.ExtTreeMap.mem_insert.mp hi with heq | hi
    · rwa [← Nat.compare_eq_eq.mp heq]
    · exact h.ge_start i hi
  boundary_iff := boundary_iff_insert h.boundary_iff _ a.shred hnew
  streamed i h1 h2 := by
    obtain ⟨ps, hps, hpool⟩ := h.streamed i h1 h2
    refine ⟨ps, ?_, hpool⟩
    rw [SlotAccumulator.insertData, BTreeMap.getElem?_insert_eq, if_neg ?_, hps]
    rintro rfl
    exact hnew (acc.pending.mem_iff_getElem?.mpr ⟨ps, hps⟩)

/-! ## Recovery -/

theorem boundary_iff_tryFecFill (cache : ReedSolomonCache C) (hint : ℕ)
    (h : ∀ i, i ∈ acc.batchCompleteIndices ↔
      ∃ ps, acc.pending[i]? = some ps ∧ ps.batchComplete = true) :
    ∀ i, i ∈ (acc.tryFecFill env clock cache hint).1.batchCompleteIndices ↔
      ∃ ps, (acc.tryFecFill env clock cache hint).1.pending[i]? = some ps ∧
        ps.batchComplete = true := by
  refine tryFecFill_invariant (I := fun acc => ∀ i, i ∈ acc.batchCompleteIndices ↔
    ∃ ps, acc.pending[i]? = some ps ∧ ps.batchComplete = true) env acc clock cache hint h ?_
    (fun _ _ h₁ => h₁) (fun _ _ h₁ => h₁)
  intro setIdx fec cache' recovered r acc₁ acc₂ _ _ _ h₁ hinserts
  cases hinserts with
  | skip => exact h₁
  | last => exact h₁
  | @store d _ hnew _ _ =>
    exact boundary_iff_insert h₁ (clock.now (wrapAdd32 setIdx r.1)) {
      source := .recovered r.2
      payloadEnd := asU16 (dataHeaderSize + d.payload.length)
      batchComplete := d.batchComplete
      fecSetIndex := setIdx } hnew

/-- Recovery only adds shreds in front of the cursor. -/
theorem Consistent.refilled (h : acc.Consistent) (hr : acc.Refilled acc')
    (hboundary : ∀ i, i ∈ acc'.batchCompleteIndices ↔
      ∃ ps, acc'.pending[i]? = some ps ∧ ps.batchComplete = true) : acc'.Consistent where
  start_le := by
    rw [hr.batchStart, hr.cursor]
    exact h.start_le
  cursor_le := by
    rw [hr.cursor]
    exact h.cursor_le
  ge_start i hi := by
    obtain ⟨ps, hps⟩ := acc'.pending.mem_iff_getElem?.mp hi
    rw [hr.batchStart]
    rcases hr.added i ps hps with hps | ⟨-, hge⟩
    · exact h.ge_start i (acc.pending.mem_iff_getElem?.mpr ⟨ps, hps⟩)
    · exact hge
  boundary_iff := hboundary
  streamed i h1 h2 := by
    rw [hr.batchStart] at h1
    rw [hr.cursor] at h2
    obtain ⟨ps, hps, hpool⟩ := h.streamed i h1 h2
    exact ⟨ps, hr.kept i ps hps, hpool⟩

/-- A recovered shred was not passed by the cursor. -/
theorem Consistent.cursor_le_of_recovered (h : acc.Consistent) {i : ℕ} {ps : PendingShred}
    (hps : acc.pending[i]? = some ps) (hrec : ps.source.isRecovered = true) :
    acc.streamingCursor ≤ i := by
  by_contra hlt
  obtain ⟨ps', hps', hpool⟩ :=
    h.streamed i (h.ge_start i (acc.pending.mem_iff_getElem?.mpr ⟨ps, hps⟩)) (by omega)
  rw [hps] at hps'
  cases hps'
  rw [hpool] at hrec
  cases hrec

theorem Clear.refilled (h : acc.Clear) (hc : acc.Consistent) (hr : acc.Refilled acc')
    (hc' : acc'.Consistent) : acc'.Clear := by
  intro b hb
  rw [hr.cursor]
  obtain ⟨ps, hps, hflag⟩ := (hc'.boundary_iff b).mp hb
  rcases hr.added b ps hps with hold | ⟨hrec, -⟩
  · obtain ⟨i, h1, h2, hgap⟩ := h b ((hc.boundary_iff b).mpr ⟨ps, hold, hflag⟩)
    refine ⟨i, h1, h2, fun ps' hps' => ?_⟩
    rcases hr.added i ps' hps' with hold' | ⟨hrec', -⟩
    · exact hgap ps' hold'
    · exact hrec'
  · -- a recovered boundary stops the streaming itself
    refine ⟨b, ?_, le_rfl, fun ps' hps' => ?_⟩
    · rw [← hr.cursor]
      exact hc'.cursor_le_of_recovered hps hrec
    · rw [hps] at hps'
      cases hps'
      exact hrec

theorem Consistent.tryFecFill (h : acc.Consistent) (cache : ReedSolomonCache C) (hint : ℕ) :
    (acc.tryFecFill env clock cache hint).1.Consistent :=
  h.refilled (refilled_tryFecFill env acc clock cache hint)
    (boundary_iff_tryFecFill cache hint h.boundary_iff)

/-! ## Steps -/

/-- Finalising a batch does not move the start back. -/
theorem Consistent.start_le_next (h : acc.Consistent) {bcIdx : ℕ} (hb : acc.batchStart ≤ bcIdx) :
    acc.batchStart ≤ satAdd32 bcIdx 1 := by
  have := h.start_le.trans h.cursor_le
  exact le_min (by omega) this

theorem Consistent.completeBatch (h : acc.Consistent) {bcIdx : ℕ} (hb : acc.batchStart ≤ bcIdx) :
    (acc.completeBatch bcIdx).Consistent where
  start_le := le_max_right _ _
  cursor_le := max_le h.cursor_le (satAdd32_le _ _)
  ge_start i hi := ((mem_completeBatch_pending _).mp hi).2
  boundary_iff i := by
    rw [mem_completeBatch_boundaries, h.boundary_iff]
    simp only [completeBatch_pending]
    constructor
    · rintro ⟨⟨ps, hps, hflag⟩, hge⟩
      exact ⟨ps, ⟨hps, hge⟩, hflag⟩
    · rintro ⟨ps, ⟨hps, hge⟩, hflag⟩
      exact ⟨⟨ps, hps, hflag⟩, hge⟩
  streamed i h1 h2 := by
    have hnext : satAdd32 bcIdx 1 ≤ i := h1
    have hcur : i < acc.streamingCursor := by
      rcases lt_max_iff.mp h2 with h2 | h2
      · exact h2
      · exact absurd hnext (not_le.mpr h2)
    obtain ⟨ps, hps, hpool⟩ := h.streamed i ((h.start_le_next hb).trans hnext) hcur
    exact ⟨ps, (completeBatch_pending _).mpr ⟨hps, hnext⟩, hpool⟩

/-- The cursor moves over a shred that came from a pool buffer. -/
theorem Consistent.advance (h : acc.Consistent) {ps : PendingShred}
    (hps : acc.pending[acc.streamingCursor]? = some ps) (hpool : ps.source.isRecovered = false)
    (hcur : acc'.streamingCursor = satAdd32 acc.streamingCursor 1)
    (hstart : acc'.batchStart = acc.batchStart) (hpending : acc'.pending = acc.pending)
    (hbc : acc'.batchCompleteIndices = acc.batchCompleteIndices) : acc'.Consistent where
  start_le := by
    rw [hstart, hcur]
    exact le_min (h.start_le.trans (Nat.le_succ _)) (h.start_le.trans h.cursor_le)
  cursor_le := by
    rw [hcur]
    exact satAdd32_le _ _
  ge_start := by
    rw [hstart, hpending]
    exact h.ge_start
  boundary_iff := by
    rw [hbc, hpending]
    exact h.boundary_iff
  streamed i h1 h2 := by
    rw [hstart] at h1
    rw [hcur] at h2
    rw [hpending]
    have hle : satAdd32 acc.streamingCursor 1 ≤ acc.streamingCursor + 1 := min_le_left _ _
    rcases Nat.lt_or_ge i acc.streamingCursor with hlt | hge
    · exact h.streamed i h1 hlt
    · obtain rfl : i = acc.streamingCursor := by omega
      exact ⟨ps, hps, hpool⟩

theorem Step.consistent {s s' : CallState C} (h : Step env clock s s') (hs : s.acc.Consistent) :
    s'.acc.Consistent := by
  cases h with
  | fill hint => exact hs.tryFecFill s.cache hint
  | stream hps hpool _ _ => exact hs.advance hps hpool rfl rfl rfl rfl
  | streamError hps hpool _ _ => exact hs.advance hps hpool rfl rfl rfl rfl
  | finalise txs hb _ =>
    have hrecord (counters : Counters) : Consistent { s.acc.record txs with counters } :=
      { hs with }
    exact (hrecord _).completeBatch hb
  | record | tally => exact { hs with }

/-- Neither the batch start nor the cursor ever moves back. -/
structure Forward (acc acc' : SlotAccumulator) : Prop where
  batchStart : acc.batchStart ≤ acc'.batchStart
  cursor : acc.streamingCursor ≤ acc'.streamingCursor

theorem Forward.trans {acc'' : SlotAccumulator} (h : acc.Forward acc') (h' : acc'.Forward acc'') :
    acc.Forward acc'' :=
  ⟨h.batchStart.trans h'.batchStart, h.cursor.trans h'.cursor⟩

theorem Step.forward {s s' : CallState C} (h : Step env clock s s') (hs : s.acc.Consistent) :
    s.acc.Forward s'.acc := by
  have hcur : s.acc.streamingCursor ≤ satAdd32 s.acc.streamingCursor 1 :=
    le_min (Nat.le_succ _) hs.cursor_le
  cases h with
  | fill hint =>
    have hr := refilled_tryFecFill env s.acc clock s.cache hint
    exact ⟨hr.batchStart.ge, hr.cursor.ge⟩
  | stream => exact ⟨le_rfl, hcur⟩
  | streamError => exact ⟨le_rfl, hcur⟩
  | finalise txs hb _ => exact ⟨hs.start_le_next hb, le_max_left _ _⟩
  | record | tally => exact ⟨le_rfl, le_rfl⟩

theorem Steps.consistent {s s' : CallState C} (h : Steps env clock s s') (hs : s.acc.Consistent) :
    s'.acc.Consistent ∧ s.acc.Forward s'.acc :=
  Steps.invariant (I := fun t => t.acc.Consistent ∧ s.acc.Forward t.acc)
    (fun _ _ ht hstep => ⟨hstep.consistent ht.1, ht.2.trans (hstep.forward ht.1)⟩) h
    ⟨hs, le_rfl, le_rfl⟩

/-! ## The flush leaves no boundary to be reached -/

/-- What `try_flush_batches` leaves. The batch at which it stops has a gap; what
    its recovery attempts added in front of that batch's end is recovered. -/
theorem Consistent.tryFlushBatches (h : acc.Consistent) {cache : ReedSolomonCache C}
    {out : List VersionedTransaction} {fuel : ℕ} {r : CallState C}
    (hr : acc.tryFlushBatches env clock fuel cache out = some r) : r.acc.Clear := by
  refine FuelLoop.run_spec (fun s : CallState C => s.acc.Consistent) (fun r => r.acc.Clear) ?_ ?_
    fuel ⟨acc, cache, out⟩ r h hr
  · intro s s' hs hbody
    exact (Steps.consistent (flushBody_steps hbody) hs).1
  · intro s r hs hbody
    rcases flushBody_outcome hbody with
      ⟨hnone, hr⟩ | ⟨bcIdx, t, acc₁, cache₁, hfirst, hfill, ⟨hmiss, hr⟩ | ⟨txs, counters, -, hr⟩⟩
    · cases hr
      intro b hb
      have hlt := (BTreeMap.firstFrom_eq_none _).mp hnone b hb
      obtain ⟨ps, hps, -⟩ := (hs.boundary_iff b).mp hb
      have := hs.ge_start b (s.acc.pending.mem_iff_getElem?.mpr ⟨ps, hps⟩)
      omega
    · cases hr
      have hrefill := refilled_flushFill env s.acc clock s.cache bcIdx
      have hc := (Steps.consistent (flushFill_steps env clock s bcIdx) hs).1
      rw [hfill] at hrefill hc
      obtain ⟨-, hge, hmin⟩ := BTreeMap.firstFrom_spec _ hfirst
      obtain ⟨i, h1, h2, hi⟩ : ∃ i, s.acc.batchStart ≤ i ∧ i ≤ bcIdx ∧ i ∉ acc₁.pending := by
        by_contra hall
        push Not at hall
        have hcount := BTreeMap.countIn_eq_iff acc₁.pending |>.mpr hall
        have hexp : expectedCount s.acc.batchStart bcIdx ≤ bcIdx - s.acc.batchStart + 1 :=
          Nat.mod_le _ _
        omega
      have hcur : s.acc.streamingCursor ≤ i := by
        by_contra hlt
        obtain ⟨ps, hps, -⟩ := hs.streamed i h1 (by omega)
        exact hi (acc₁.pending.mem_iff_getElem?.mpr ⟨ps, hrefill.kept i ps hps⟩)
      intro b hb
      obtain ⟨ps, hps, hflag⟩ := (hc.boundary_iff b).mp hb
      rcases hrefill.added b ps hps with hold | ⟨hrec, -⟩
      · -- the batch that was picked ends first, and has the gap
        have hbc := hmin b ((hs.boundary_iff b).mpr ⟨ps, hold, hflag⟩)
          (hs.ge_start b (s.acc.pending.mem_iff_getElem?.mpr ⟨ps, hold⟩))
        refine ⟨i, by rw [hrefill.cursor]; exact hcur, h2.trans hbc, fun ps' hps' => ?_⟩
        exact absurd (acc₁.pending.mem_iff_getElem?.mpr ⟨ps', hps'⟩) hi
      · refine ⟨b, hc.cursor_le_of_recovered hps hrec, le_rfl, fun ps' hps' => ?_⟩
        rw [hps] at hps'
        cases hps'
        exact hrec
    · cases hr

/-! ## Streaming does not pass a boundary -/

theorem Unpassed.refilled (h : acc.Unpassed) (hc : acc.Consistent) (hr : acc.Refilled acc')
    (hc' : acc'.Consistent) : acc'.Unpassed := by
  intro b hb
  obtain ⟨ps, hps, hflag⟩ := (hc'.boundary_iff b).mp hb
  rcases hr.added b ps hps with hold | ⟨hrec, -⟩
  · rw [hr.cursor]
    exact h b ((hc.boundary_iff b).mpr ⟨ps, hold, hflag⟩)
  · exact hc'.cursor_le_of_recovered hps hrec

/-- An iteration keeps the invariant. -/
theorem Consistent.streams (hc : acc.Consistent) (hp : acc.Parsed) {fuel : ℕ}
    {out : List VersionedTransaction}
    {r : (SlotAccumulator × List VersionedTransaction) ⊕
      (SlotAccumulator × List VersionedTransaction)}
    (hbody : advanceStreamingBody env fuel (acc, out) = some r) :
    (r.elim id id).1.Consistent ∧ (r.elim id id).1.Parsed := by
  rcases advanceStreamingBody_cases hp hbody with
    ⟨rfl, -⟩ | ⟨ps, payload, decoder, hps, hpool, -, ⟨txs, -, rfl⟩ | ⟨err, -, rfl⟩⟩
  · exact ⟨hc, hp⟩
  · have hstreamed : (acc.streamed decoder txs).Consistent ∧ (acc.streamed decoder txs).Parsed :=
      ⟨hc.advance hps hpool rfl rfl rfl rfl, hp.pending, hp.fecSets⟩
    split_ifs
    · exact hstreamed
    · exact hstreamed
  · exact ⟨hc.advance hps hpool rfl rfl rfl rfl, hp.pending, hp.fecSets⟩

/-- An iteration that goes on leaves every boundary in front of the cursor. -/
theorem Unpassed.next (h : acc.Unpassed) (hc : acc.Consistent) (hp : acc.Parsed) {fuel : ℕ}
    {out : List VersionedTransaction} {s : SlotAccumulator × List VersionedTransaction}
    (hbody : advanceStreamingBody env fuel (acc, out) = some (.inl s)) : s.1.Unpassed := by
  rcases advanceStreamingBody_cases hp hbody with
    ⟨hr, -⟩ | ⟨ps, payload, decoder, hps, -, -, ⟨txs, -, hr⟩ | ⟨err, -, hr⟩⟩
  · cases hr
  · split_ifs at hr with hflag
    cases hr
    intro b hb
    have hle := h b hb
    have hne : b ≠ acc.streamingCursor := by
      rintro rfl
      obtain ⟨ps', hps', hflag'⟩ := (hc.boundary_iff _).mp hb
      rw [hps] at hps'
      cases hps'
      exact hflag hflag'
    exact (min_le_left _ _).trans (show acc.streamingCursor + 1 ≤ b by omega)
  · cases hr

/-- What streaming leaves alone. -/
structure Streams (acc acc' : SlotAccumulator) : Prop where
  batchStart : acc'.batchStart = acc.batchStart
  pending : acc'.pending = acc.pending
  boundaries : acc'.batchCompleteIndices = acc.batchCompleteIndices

theorem Streams.next {acc₁ : SlotAccumulator} (hs : acc.Streams acc₁) (hp : acc₁.Parsed) {fuel : ℕ}
    {out : List VersionedTransaction}
    {r : (SlotAccumulator × List VersionedTransaction) ⊕
      (SlotAccumulator × List VersionedTransaction)}
    (hbody : advanceStreamingBody env fuel (acc₁, out) = some r) :
    acc.Streams (r.elim id id).1 := by
  rcases advanceStreamingBody_cases hp hbody with
    ⟨rfl, -⟩ | ⟨ps, payload, decoder, -, -, -, ⟨txs, -, rfl⟩ | ⟨err, -, rfl⟩⟩
  · exact hs
  · have hstreamed : acc.Streams (acc₁.streamed decoder txs) :=
      ⟨hs.batchStart, hs.pending, hs.boundaries⟩
    split_ifs
    · exact hstreamed
    · exact hstreamed
  · exact ⟨hs.batchStart, hs.pending, hs.boundaries⟩

/-- Moved on by one, the cursor is in front of every boundary, or behind the one it was at. -/
theorem Unpassed.moved (h : acc.Unpassed) (hc : acc.Consistent)
    (hcur : acc'.streamingCursor = satAdd32 acc.streamingCursor 1)
    (hbc : acc'.batchCompleteIndices = acc.batchCompleteIndices) :
    acc'.Unpassed ∨ ∃ b ∈ acc.batchCompleteIndices, acc'.streamingCursor = b + 1 := by
  have hcle : acc.streamingCursor ≤ u32Max := hc.cursor_le
  by_cases hb : acc.streamingCursor ∈ acc.batchCompleteIndices ∧ acc.streamingCursor < u32Max
  · exact .inr ⟨_, hb.1, hcur.trans (satAdd32_of_lt hb.2)⟩
  · refine .inl fun b hbb => ?_
    rw [hbc] at hbb
    rw [hcur]
    unfold satAdd32
    rcases Nat.eq_or_lt_of_le (h b hbb) with heq | hlt
    · rw [← heq] at hbb
      have hmax : ¬acc.streamingCursor < u32Max := fun hlt => hb ⟨hbb, hlt⟩
      omega
    · omega

/-- An iteration that leaves the loop moves the cursor over one boundary at most. -/
theorem Unpassed.stops (h : acc.Unpassed) (hc : acc.Consistent) (hp : acc.Parsed) {fuel : ℕ}
    {out : List VersionedTransaction} {r : SlotAccumulator × List VersionedTransaction}
    (hbody : advanceStreamingBody env fuel (acc, out) = some (.inr r)) :
    r.1.Unpassed ∨ ∃ b ∈ acc.batchCompleteIndices, r.1.streamingCursor = b + 1 := by
  rcases advanceStreamingBody_cases hp hbody with
    ⟨hr, -⟩ | ⟨ps, payload, decoder, -, -, -, ⟨txs, -, hr⟩ | ⟨err, -, hr⟩⟩
  · cases hr
    exact .inl h
  · split_ifs at hr
    cases hr
    exact h.moved hc rfl rfl
  · cases hr
    exact h.moved hc rfl rfl

/-- `advance_streaming` stops in front of every boundary or right behind one. -/
theorem advanceStreaming_stops (hu : acc.Unpassed) (hc : acc.Consistent) (hp : acc.Parsed)
    {fuel : ℕ} {out : List VersionedTransaction} {r : SlotAccumulator × List VersionedTransaction}
    (h : acc.advanceStreaming env fuel out = some r) :
    r.1.Consistent ∧ r.1.Parsed ∧ acc.Streams r.1 ∧
      (r.1.Unpassed ∨ ∃ b ∈ acc.batchCompleteIndices, r.1.streamingCursor = b + 1) := by
  refine FuelLoop.run_spec
    (fun s : SlotAccumulator × List VersionedTransaction =>
      s.1.Consistent ∧ s.1.Parsed ∧ acc.Streams s.1 ∧ s.1.Unpassed)
    (fun r => r.1.Consistent ∧ r.1.Parsed ∧ acc.Streams r.1 ∧
      (r.1.Unpassed ∨ ∃ b ∈ acc.batchCompleteIndices, r.1.streamingCursor = b + 1)) ?_ ?_
    fuel (acc, out) r ⟨hc, hp, ⟨rfl, rfl, rfl⟩, hu⟩ h
  · rintro ⟨acc₁, out₁⟩ s ⟨hc₁, hp₁, hs, hu₁⟩ hbody
    obtain ⟨hc₂, hp₂⟩ := hc₁.streams hp₁ hbody
    exact ⟨hc₂, hp₂, hs.next hp₁ hbody, hu₁.next hc₁ hp₁ hbody⟩
  · rintro ⟨acc₁, out₁⟩ r ⟨hc₁, hp₁, hs, hu₁⟩ hbody
    obtain ⟨hc₂, hp₂⟩ := hc₁.streams hp₁ hbody
    refine ⟨hc₂, hp₂, hs.next hp₁ hbody, ?_⟩
    rw [← hs.boundaries]
    exact hu₁.stops hc₁ hp₁ hbody

/-- An index that is not pending is not behind the cursor. -/
theorem Consistent.cursor_le_of_not_mem (h : acc.Consistent) {i : ℕ} (hge : acc.batchStart ≤ i)
    (hi : i ∉ acc.pending) : acc.streamingCursor ≤ i := by
  by_contra hlt
  obtain ⟨ps, hps, -⟩ := h.streamed i hge (by omega)
  exact hi (acc.pending.mem_iff_getElem?.mpr ⟨ps, hps⟩)

/-- The boundaries after a shred was stored. -/
theorem mem_insertData_boundaries {a : DataArgs} {b : ℕ}
    (h : b ∈ (acc.insertData clock a).batchCompleteIndices) :
    b ∈ acc.batchCompleteIndices ∨ b = a.index := by
  simp only [insertData] at h
  split_ifs at h
  · rcases Std.ExtTreeMap.mem_insertIfNew.mp h with heq | h
    · exact .inr (Nat.compare_eq_eq.mp heq).symm
    · exact .inl h
  · exact .inl h

theorem Clear.insertData (h : acc.Clear) (hc : acc.Consistent) {a : DataArgs}
    (hge : acc.batchStart ≤ a.index) (hnew : a.index ∉ acc.pending) :
    (acc.insertData clock a).Unpassed := by
  intro b hb
  rcases mem_insertData_boundaries hb with hb | rfl
  · exact h.unpassed b hb
  · exact hc.cursor_le_of_not_mem hge hnew

/-- Streaming that went past a boundary went past the shred just stored. -/
theorem Clear.streamed (h : acc.Clear) {a : DataArgs} (hc' : acc'.Consistent)
    (hs : (acc.insertData clock a).Streams acc')
    (hstop : acc'.Unpassed ∨ ∃ b ∈ (acc.insertData clock a).batchCompleteIndices,
      acc'.streamingCursor = b + 1)
    (hc : acc.Consistent) (hcur : acc'.streamingCursor ≤ a.index) : acc'.Unpassed := by
  rcases hstop with hu | ⟨b, hb, hcur'⟩
  · exact hu
  rcases mem_insertData_boundaries hb with hb | rfl
  · -- the gap before `b` was not closed
    obtain ⟨i, h1, h2, hgap⟩ := h b hb
    obtain ⟨ps, hps, hpool⟩ := hc'.streamed i
      (by rw [hs.batchStart]; exact hc.start_le.trans h1) (by omega)
    rw [hs.pending, SlotAccumulator.insertData, BTreeMap.getElem?_insert_eq, if_neg (by omega)] at hps
    rw [hgap ps hps] at hpool
    cases hpool
  · omega

theorem Consistent.recordCode (h : acc.Consistent) (a : CodeArgs) :
    (acc.recordCode a).Consistent := by
  obtain ⟨fecSets, counters, heq, -⟩ := acc.recordCode_eq a
  rw [heq]
  exact { h with }

theorem Clear.recordCode (h : acc.Clear) (a : CodeArgs) : (acc.recordCode a).Clear := by
  obtain ⟨fecSets, counters, heq, -⟩ := acc.recordCode_eq a
  rw [heq]
  exact h

/-- Whenever a call enters `advance_streaming`, no boundary was passed. -/
theorem EntersStreaming.unpassed {cache : ReedSolomonCache C} {fuel : ℕ} {c : Call}
    {s : SlotAccumulator × List VersionedTransaction}
    (h : EntersStreaming env clock fuel acc cache c s) (hc : acc.Consistent) (hclear : acc.Clear)
    (hp : acc.Parsed) (hcp : c.Parsed) : s.1.Consistent ∧ s.1.Parsed ∧ s.1.Unpassed := by
  cases h with
  | stored hlast hge hnew =>
    exact ⟨hc.insertData hge hnew, Opens.parsed (.data hlast hge hnew) hp hcp,
      hclear.insertData hc hge hnew⟩
  | @refilled a acc₁ out₁ hlast hge hnew hstream hcur hfill =>
    obtain ⟨hc₁, hp₁, hs, hstop⟩ := advanceStreaming_stops (hclear.insertData hc hge hnew)
      (hc.insertData hge hnew) (Opens.parsed (.data hlast hge hnew) hp hcp) hstream
    have hc₂ : (acc₁.tryFecFill env clock cache a.fecSetIndex).1.Consistent :=
      hc₁.tryFecFill cache a.fecSetIndex
    have hu := hclear.streamed hc₁ hs hstop hc hcur
    exact ⟨hc₂, hp₁.tryFecFill env clock cache a.fecSetIndex,
      hu.refilled hc₁ (refilled_tryFecFill env acc₁ clock cache a.fecSetIndex) hc₂⟩
  | @code a hfill =>
    have hc₀ := hc.recordCode a
    have hc₁ : ((acc.recordCode a).tryFecFill env clock cache a.fecSetIndex).1.Consistent :=
      hc₀.tryFecFill cache a.fecSetIndex
    exact ⟨hc₁, (hp.recordCode a).tryFecFill env clock cache a.fecSetIndex,
      ((hclear.recordCode a).refilled hc₀
        (refilled_tryFecFill env _ clock cache a.fecSetIndex) hc₁).unpassed⟩

theorem StreamsAt.unpassed {cache : ReedSolomonCache C} {fuel : ℕ} {c : Call}
    {s : SlotAccumulator × List VersionedTransaction}
    (h : StreamsAt env clock fuel acc cache c s) (hc : acc.Consistent) (hclear : acc.Clear)
    (hp : acc.Parsed) (hcp : c.Parsed) : s.1.Consistent ∧ s.1.Parsed ∧ s.1.Unpassed := by
  obtain ⟨s₀, henters, hvisits⟩ := h
  refine hvisits.invariant (I := fun s : SlotAccumulator × List VersionedTransaction =>
    s.1.Consistent ∧ s.1.Parsed ∧ s.1.Unpassed) (henters.unpassed hc hclear hp hcp) ?_
  rintro ⟨acc₁, out₁⟩ s' ⟨hc₁, hp₁, hu₁⟩ hbody
  obtain ⟨hc₂, hp₂⟩ := hc₁.streams hp₁ hbody
  exact ⟨hc₂, hp₂, hu₁.next hc₁ hp₁ hbody⟩

/-! ## Between calls -/

theorem Consistent.opens {acc₀ : SlotAccumulator} {c : Call} (h : acc.Consistent)
    (ho : Opens clock acc c acc₀) : acc₀.Consistent ∧ acc.Forward acc₀ := by
  cases ho with
  | last => exact ⟨{ h with }, le_rfl, le_rfl⟩
  | data _ hge hnew => exact ⟨h.insertData hge hnew, le_rfl, le_rfl⟩
  | @code a =>
    refine ⟨h.recordCode a, ?_⟩
    obtain ⟨fecSets, counters, heq, -⟩ := acc.recordCode_eq a
    rw [heq]
    exact ⟨le_rfl, le_rfl⟩
  | harvest => exact ⟨h, le_rfl, le_rfl⟩

/-- A call that returns keeps the invariant and moves nothing back. -/
theorem Consistent.call (h : acc.Consistent) (hp : acc.Parsed) {cache : ReedSolomonCache C}
    {fuel : ℕ} {c : Call} (hc : c.Parsed) {r : CallState C}
    (hr : acc.call env clock fuel cache c = some r) : r.acc.Consistent ∧ acc.Forward r.acc :=
  call_invariant (I := fun acc' => acc'.Consistent ∧ acc.Forward acc')
    (fun _ _ _ hs hstep => ⟨hstep.consistent hs.1, hs.2.trans (hstep.forward hs.1)⟩)
    (fun _ _ hs => ⟨{ hs.1 with }, hs.2.batchStart, hs.2.cursor⟩)
    (fun _ ho => h.opens ho) hp ⟨h, le_rfl, le_rfl⟩ hc hr

/-- A call for a packet ends with a flush, or stores nothing. -/
theorem Clear.call (hclear : acc.Clear) (h : acc.Consistent) (hp : acc.Parsed)
    {cache : ReedSolomonCache C} {fuel : ℕ} {c : Call} (hc : c.Parsed) (hpacket : c ≠ .harvest)
    {r : CallState C} (hr : acc.call env clock fuel cache c = some r) : r.acc.Clear := by
  rcases packet_cases hp hc hpacket hr with
    ⟨a, -, -, rfl⟩ | ⟨acc₀, s, s', ho, hs, hflush, ⟨rfl, -⟩ | ⟨a, -, -, rfl⟩⟩
  · exact hclear
  · exact (Steps.consistent hs (h.opens ho).1).1.tryFlushBatches hflush
  · have hflushed : s'.acc.Clear := (Steps.consistent hs (h.opens ho).1).1.tryFlushBatches hflush
    exact hflushed

theorem Live.consistent {fuel : ℕ} {cfg : AccumulatorConfig} {slot : ℕ}
    (h : Live env fuel cfg slot acc) : acc.Consistent ∧ acc.Clear := by
  induction h with
  | fresh => exact ⟨consistent_withConfig cfg, clear_withConfig cfg⟩
  | call hlive hc hr ih =>
    have hcons := (ih.1.call hlive.parsed hc.parsed hr).1
    exact ⟨{ hcons with }, ih.2.call ih.1 hlive.parsed hc.parsed hc.ne_harvest hr⟩

/-- Between calls the invariant holds; a call that returns keeps it and moves
    neither `batch_start` nor `streaming_cursor` back; and whenever it streams, the
    cursor is at or behind the batch start and in front of every boundary. -/
theorem represents_between_calls {fuel : ℕ} {cfg : AccumulatorConfig} {slot : ℕ}
    (h : Live env fuel cfg slot acc) :
    acc.Represents ∧ ∀ clock cache c, c.Made slot →
      (∀ r, acc.call env clock fuel cache c = some r →
        r.acc.Represents ∧ acc.Forward r.acc) ∧
      ∀ s, StreamsAt env clock fuel acc cache c s →
        s.1.batchStart ≤ s.1.streamingCursor ∧ s.1.Unpassed := by
  obtain ⟨hcons, hclear⟩ := h.consistent
  refine ⟨hcons.represents hclear.unpassed, fun clock cache c hc => ⟨fun r hr => ?_, fun s hs => ?_⟩⟩
  · obtain ⟨hcons', hforward⟩ := hcons.call h.parsed hc.parsed hr
    have hclear' := hclear.call hcons h.parsed hc.parsed hc.ne_harvest hr
    exact ⟨hcons'.represents hclear'.unpassed, hforward⟩
  · obtain ⟨hcons', -, hu⟩ := hs.unpassed hcons hclear h.parsed hc.parsed
    exact ⟨hcons'.start_le, hu⟩

end ShredStream.SlotAccumulator
