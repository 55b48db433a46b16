import ShredStream.Accumulator.Flush
import ShredStream.Slot.Basic

/-!
# An accumulator that follows a slot

`Aligned S k acc`: the accumulator waits for batch `k` of the slot, what it
holds are shreds of the slot, and its cursor lies inside the batch.
`Tracks S k acc`: besides, its incremental decoder was given the shreds from
the first of the batch up to the cursor, and the signatures recorded are those
of the transactions this yielded.

* `Tracks.advanceStreaming`: streaming moves on to the first shred that is not
  there (or was recovered), yields what arrives on the way, and never runs past
  the end of the batch.
* `Aligned.insert`, `Aligned.completeBatch`: what the other operations do.
-/

namespace ShredStream

open FirstByKey SelfDelimiting

namespace Slot

variable {w : Wincode} (S : Slot w)

/-- The arguments of `push_data` for a shred of the slot. -/
structure Genuine (a : SlotAccumulator.DataArgs) : Prop where
  index_lt : a.index < S.shreds
  payload : a.shred.payload = some (S.payload a.index)
  batchComplete : a.batchComplete = true ↔ S.EndsBatch a.index
  lastInSlot : a.lastInSlot = true ↔ S.IsLast a.index

/-- `ps` is shred `i` of the slot, which is not its last. -/
structure Holds (i : ℕ) (ps : PendingShred) : Prop where
  index_lt : i < S.shreds
  not_last : ¬S.IsLast i
  payload : ps.payload = some (S.payload i)
  batchComplete : ps.batchComplete = true ↔ S.EndsBatch i

/-- Where batch `k` ends; for `k = batches`, where the slot does. -/
def stop (k : ℕ) : ℕ := S.start (min (k + 1) S.batches)

theorem stop_of_lt {k : ℕ} (hk : k < S.batches) : S.stop k = S.start (k + 1) := by
  rw [stop, min_eq_left (by omega)]

theorem stop_batches : S.stop S.batches = S.start S.batches := by
  rw [stop, min_eq_right (by omega)]

theorem lt_batches_of_lt_stop {k i : ℕ} (hk : k ≤ S.batches) (h1 : S.start k ≤ i)
    (h2 : i < S.stop k) : k < S.batches := by
  rcases Nat.lt_or_eq_of_le hk with h | rfl
  · exact h
  · rw [stop_batches] at h2
    omega

theorem start_le_stop {k : ℕ} (hk : k ≤ S.batches) : S.start k ≤ S.stop k :=
  S.start_mono (by omega) (by omega)

theorem stop_le_shreds (k : ℕ) : S.stop k ≤ S.shreds := S.start_mono (by omega) le_rfl

/-- The number of shreds in front of the end bounds the iterations of a flush. -/
theorem shreds_sub_lt {fuel : ℕ} (hfuel : 2 ^ 32 < fuel) (n : ℕ) : S.shreds - n < fuel := by
  have h1 := S.shreds_le
  unfold u32Max at h1
  unfold shreds
  split_ifs at h1
  · omega
  · omega

theorem shreds_sub_start_lt {j k : ℕ} (hkj : k < j) (hj : j ≤ S.batches) :
    S.shreds - S.start j < S.shreds - S.start k := by
  have h1 := (S.start_lt_iff (by omega) hj).mpr hkj
  have h2 := S.start_mono hj le_rfl
  unfold shreds
  omega

/-- The accumulator waits for batch `k`. -/
structure Aligned (k : ℕ) (acc : SlotAccumulator) : Prop where
  k_le : k ≤ S.batches
  batchStart : acc.batchStart = S.start k
  holds : ∀ i ps, acc.pending[i]? = some ps → S.start k ≤ i ∧ S.Holds i ps
  boundary : ∀ i, i ∈ acc.batchCompleteIndices ↔ i ∈ acc.pending ∧ S.EndsBatch i
  cursor_ge : S.start k ≤ acc.streamingCursor
  cursor_le : acc.streamingCursor ≤ S.stop k
  streamed : ∀ i, S.start k ≤ i → i < acc.streamingCursor →
    ∃ ps, acc.pending[i]? = some ps ∧ ps.source.isRecovered = false

/-- The incremental decoder has been given the shreds of batch `k` up to the cursor. -/
structure Tracks (k : ℕ) (acc : SlotAccumulator) : Prop extends S.Aligned k acc where
  decoder : acc.streamingDecoder.Fed w (S.entries k) (S.bytes (S.start k) acc.streamingCursor)
  yielded : acc.yieldedSigs = sigKeys (S.streamed k acc.streamingCursor)

theorem tracks_withConfig (cfg : AccumulatorConfig) :
    S.Tracks 0 (SlotAccumulator.withConfig cfg) where
  k_le := Nat.zero_le _
  batchStart := S.start_zero.symm
  holds i ps h := by simp [SlotAccumulator.withConfig] at h
  boundary i := by simp [SlotAccumulator.withConfig]
  cursor_ge := S.start_zero.le
  cursor_le := Nat.zero_le _
  streamed i _ h := by simp [SlotAccumulator.withConfig] at h
  decoder := by
    have h0 : S.bytes (S.start 0) 0 = [] := by rw [S.start_zero, bytes_self]
    change StreamingDecoder.Fed w _ (S.bytes (S.start 0) 0) {}
    rw [h0]
    exact StreamingDecoder.fed_reset _ {}
  yielded := by
    have h := S.streamed_start 0
    rw [S.start_zero] at h
    change ∅ = sigKeys (S.streamed 0 0)
    rw [h]
    rfl

variable {S}

namespace Aligned

variable {k : ℕ} {acc : SlotAccumulator} (h : S.Aligned k acc)

include h

theorem lt_u32Max {i : ℕ} (hi : i ∈ acc.pending) : i < u32Max := by
  obtain ⟨ps, hps⟩ := acc.pending.mem_iff_getElem?.mp hi
  exact S.lt_u32Max (h.holds i ps hps).2.index_lt (h.holds i ps hps).2.not_last

theorem boundary_lt {i : ℕ} (hi : i ∈ acc.batchCompleteIndices) : i < u32Max :=
  h.lt_u32Max ((h.boundary i).mp hi).1

theorem start_le {i : ℕ} (hi : i ∈ acc.pending) : S.start k ≤ i := by
  obtain ⟨ps, hps⟩ := acc.pending.mem_iff_getElem?.mp hi
  exact (h.holds i ps hps).1

theorem payloadAt {i : ℕ} (hi : i ∈ acc.pending) : acc.payloadAt i = S.payload i := by
  obtain ⟨ps, hps⟩ := acc.pending.mem_iff_getElem?.mp hi
  rw [SlotAccumulator.payloadAt, hps]
  simp only [(h.holds i ps hps).2.payload, Option.getD_some]

/-- Pending shreds give the bytes of the slot. -/
theorem flatMap_payloadAt {a b : ℕ} (hab : ∀ i, a ≤ i → i < b → i ∈ acc.pending) :
    (List.range' a (b - a)).flatMap acc.payloadAt = S.bytes a b := by
  refine List.flatMap_congr fun i hi => ?_
  rw [List.mem_range'_1] at hi
  exact h.payloadAt (hab i hi.1 (by omega))

theorem combined {bcIdx : ℕ} (hall : ∀ i, S.start k ≤ i → i ≤ bcIdx → i ∈ acc.pending) :
    acc.combined (S.start k) bcIdx = S.bytes (S.start k) (bcIdx + 1) :=
  h.flatMap_payloadAt fun i h1 h2 => hall i h1 (by omega)

/-- Store a shred of the slot that is not there. -/
theorem insert {i : ℕ} {ps : PendingShred} (hps : S.Holds i ps) (hge : acc.batchStart ≤ i)
    (hnew : i ∉ acc.pending) (t : ℕ) :
    S.Aligned k { acc with
      pending := acc.pending.insert i ps
      batchCompleteIndices :=
        if ps.batchComplete then acc.batchCompleteIndices.insertIfNew i t
        else acc.batchCompleteIndices } := by
  have hget : ∀ j, (acc.pending.insert i ps)[j]? = if i = j then some ps else acc.pending[j]? :=
    fun j => acc.pending.getElem?_insert_eq
  refine ⟨h.k_le, h.batchStart, fun j ps' hps' => ?_, fun j => ?_, h.cursor_ge, h.cursor_le, ?_⟩
  · rw [hget] at hps'
    split_ifs at hps' with heq
    · cases hps'
      subst heq
      rw [h.batchStart] at hge
      exact ⟨hge, hps⟩
    · exact h.holds j ps' hps'
  · have hb := hps.batchComplete
    show (j ∈ if ps.batchComplete then acc.batchCompleteIndices.insertIfNew i t
      else acc.batchCompleteIndices) ↔ _
    split_ifs with hc
    · rw [Std.ExtTreeMap.mem_insertIfNew, Std.ExtTreeMap.mem_insert, h.boundary]
      simp only [Nat.compare_eq_eq]
      constructor
      · rintro (rfl | hj)
        · exact ⟨.inl rfl, hb.mp hc⟩
        · exact ⟨.inr hj.1, hj.2⟩
      · rintro ⟨rfl | hj, he⟩
        · exact .inl rfl
        · exact .inr ⟨hj, he⟩
    · rw [Std.ExtTreeMap.mem_insert, h.boundary]
      simp only [Nat.compare_eq_eq]
      constructor
      · exact fun hj => ⟨.inr hj.1, hj.2⟩
      · rintro ⟨rfl | hj, he⟩
        · exact absurd (hb.mpr he) hc
        · exact ⟨hj, he⟩
  · intro j h1 h2
    obtain ⟨ps', hps', hr⟩ := h.streamed j h1 h2
    refine ⟨ps', ?_, hr⟩
    rw [hget, if_neg ?_, hps']
    rintro rfl
    exact hnew (acc.pending.mem_iff_getElem?.mpr ⟨ps', hps'⟩)

/-- `push_data` stores a shred that is not there. -/
theorem insertData (clock : Clock) {a : SlotAccumulator.DataArgs} (ha : S.Genuine a)
    (hlast : a.lastInSlot = false) (hge : acc.batchStart ≤ a.index) (hnew : a.index ∉ acc.pending) :
    S.Aligned k (acc.insertData clock a) := by
  have hholds : S.Holds a.index a.shred :=
    ⟨ha.index_lt, by rw [← ha.lastInSlot, hlast]; simp, ha.payload, ha.batchComplete⟩
  exact h.insert hholds hge hnew (clock.now a.index)

/-- `complete_batch` at the end of a batch moves on to the batch behind it. -/
theorem completeBatch {bcIdx : ℕ} (hb : bcIdx ∈ acc.batchCompleteIndices) :
    ∃ j, k < j ∧ S.start j = bcIdx + 1 ∧ S.Tracks j (acc.completeBatch bcIdx) := by
  have hpend := ((h.boundary bcIdx).mp hb).1
  obtain ⟨j, hkj, hj, hjb⟩ :=
    ((h.boundary bcIdx).mp hb).2.next S h.k_le (h.start_le hpend)
  have hnext : satAdd32 bcIdx 1 = bcIdx + 1 := satAdd32_of_lt (h.boundary_lt hb)
  have hstop : S.stop k ≤ bcIdx + 1 := by
    rw [S.stop_of_lt (by omega), ← hjb]
    exact S.start_mono hkj hj
  have hcursor : (acc.completeBatch bcIdx).streamingCursor = S.start j := by
    change max acc.streamingCursor (satAdd32 bcIdx 1) = _
    have := h.cursor_le
    rw [hnext, hjb]
    omega
  refine ⟨j, hkj, hjb, ⟨hj, ?_, fun i ps hps => ?_, fun i => ?_, ?_, ?_, fun i h1 h2 => ?_⟩, ?_, ?_⟩
  · change satAdd32 bcIdx 1 = _
    rw [hnext, hjb]
  · rw [SlotAccumulator.completeBatch_pending, hnext] at hps
    rw [hjb]
    exact ⟨hps.2, (h.holds i ps hps.1).2⟩
  · rw [SlotAccumulator.mem_completeBatch_boundaries, SlotAccumulator.mem_completeBatch_pending,
      h.boundary]
    tauto
  · rw [hcursor]
  · rw [hcursor]
    exact S.start_le_stop hj
  · rw [hcursor] at h2
    omega
  · rw [hcursor, bytes_self]
    exact StreamingDecoder.fed_reset _ acc.streamingDecoder
  · rw [hcursor, streamed_start]
    rfl

end Aligned

/-! ## Streaming -/

/-- The accumulator with its streaming fields replaced. -/
def restream (acc : SlotAccumulator) (cursor : ℕ) (decoder : StreamingDecoder)
    (sigs : Finset Signature) : SlotAccumulator :=
  { acc with streamingCursor := cursor, streamingDecoder := decoder, yieldedSigs := sigs }

namespace Tracks

variable {C : Type} {env : Env C} {S : Slot env.wincode} {k : ℕ} {acc : SlotAccumulator}

/-- The shred at the cursor is the next piece of the batch. The decoder takes it, and
    all the transactions that it completes are new. -/
theorem push_next (hw : env.wincode.Lawful) (h : S.Tracks k acc)
    (hlt : acc.streamingCursor < S.stop k) :
    ∃ decoder new,
      acc.streamingDecoder.push env.wincode (S.payload acc.streamingCursor) = some (decoder, .ok new) ∧
      decoder.Fed env.wincode (S.entries k) (S.bytes (S.start k) (acc.streamingCursor + 1)) ∧
      S.streamed k (acc.streamingCursor + 1) = S.streamed k acc.streamingCursor ++ new ∧
      unseen acc.yieldedSigs new = new ∧
      acc.yieldedSigs ∪ sigKeys new = sigKeys (S.streamed k (acc.streamingCursor + 1)) := by
  have hk := S.lt_batches_of_lt_stop h.k_le h.cursor_ge hlt
  have hstop := S.stop_of_lt hk
  obtain ⟨pre, tail, hbytes, hframe, -⟩ := S.exists_frame hw hk
  have hpiece : S.bytes (S.start k) acc.streamingCursor ++ S.payload acc.streamingCursor =
      S.bytes (S.start k) (acc.streamingCursor + 1) := (S.bytes_succ h.cursor_ge).symm
  have hpre : S.bytes (S.start k) acc.streamingCursor ++ S.payload acc.streamingCursor <+:
      pre ++ tail := by
    rw [hpiece, ← hbytes]
    have hge := h.cursor_ge
    exact S.bytes_isPrefix (by omega) (by omega)
  obtain ⟨decoder, new, hpush, hfed, hnew⟩ := StreamingDecoder.push_fed hw hframe h.decoder hpre
  rw [hpiece] at hfed hnew
  have hstreamed : S.streamed k (acc.streamingCursor + 1) =
      S.streamed k acc.streamingCursor ++ new := hnew
  refine ⟨decoder, new, hpush, hfed, hstreamed, ?_, ?_⟩
  · have hsub := (S.streamed_isPrefix hw hk (acc.streamingCursor + 1)).sublist
    rw [hstreamed] at hsub
    rw [h.yielded]
    exact ((S.distinct_txs hk).of_sublist hsub).fresh_right
  · rw [h.yielded, hstreamed, sigKeys, sigKeys, sigKeys, keys_append]

/-- One iteration: streaming stops at a shred that is missing or was recovered,
    or pushes the next shred of the batch. -/
theorem advanceStreamingBody_cases (hw : env.wincode.Lawful) (h : S.Tracks k acc)
    (hcur : acc.streamingCursor < S.stop k ∨ acc.streamingCursor ∉ acc.pending) (fuel : ℕ)
    (out : List VersionedTransaction) :
    (SlotAccumulator.advanceStreamingBody env fuel (acc, out) = some (.inr (acc, out)) ∧
      ∀ ps, acc.pending[acc.streamingCursor]? = some ps → ps.source.isRecovered = true) ∨
    ∃ decoder new,
      let acc' := restream acc (acc.streamingCursor + 1) decoder
        (sigKeys (S.streamed k (acc.streamingCursor + 1)))
      S.Tracks k acc' ∧ acc.streamingCursor < S.stop k ∧
      S.streamed k (acc.streamingCursor + 1) = S.streamed k acc.streamingCursor ++ new ∧
      ((acc.streamingCursor + 1 < S.stop k ∧
          SlotAccumulator.advanceStreamingBody env fuel (acc, out) =
            some (.inl (acc', out ++ new))) ∨
        (acc.streamingCursor + 1 = S.stop k ∧
          SlotAccumulator.advanceStreamingBody env fuel (acc, out) =
            some (.inr (acc', out ++ new)))) := by
  cases hps : acc.pending[acc.streamingCursor]? with
  | none =>
    refine .inl ⟨by simp only [SlotAccumulator.advanceStreamingBody, hps], fun ps hps' => ?_⟩
    cases hps'
  | some ps =>
    by_cases hr : ps.source.isRecovered
    · refine .inl ⟨by simp only [SlotAccumulator.advanceStreamingBody, hps, if_pos hr], ?_⟩
      intro ps' hps'
      cases hps'
      exact hr
    have hmem : acc.streamingCursor ∈ acc.pending := acc.pending.mem_iff_getElem?.mpr ⟨ps, hps⟩
    have hlt : acc.streamingCursor < S.stop k := hcur.resolve_right fun hno => hno hmem
    have hk := S.lt_batches_of_lt_stop h.k_le h.cursor_ge hlt
    have hstop := S.stop_of_lt hk
    obtain ⟨hge, hholds⟩ := h.holds _ _ hps
    obtain ⟨decoder, new, hpush, hfed, hstreamed, hunseen, hsigs⟩ := h.push_next hw hlt
    have hsat : satAdd32 acc.streamingCursor 1 = acc.streamingCursor + 1 :=
      satAdd32_of_lt (h.lt_u32Max hmem)
    refine .inr ⟨decoder, new, ⟨⟨h.k_le, h.batchStart, h.holds, h.boundary, ?_, ?_, ?_⟩, hfed, rfl⟩,
      hlt, hstreamed, ?_⟩
    · exact hge.trans (Nat.le_succ _)
    · exact hlt
    · intro i h1 h2
      rcases Nat.lt_succ_iff_lt_or_eq.mp h2 with h2 | rfl
      · exact h.streamed i h1 h2
      · exact ⟨ps, hps, by simpa using hr⟩
    have hbody : SlotAccumulator.advanceStreamingBody env fuel (acc, out) =
        if ps.batchComplete then
          some (.inr (restream acc (acc.streamingCursor + 1) decoder
            (sigKeys (S.streamed k (acc.streamingCursor + 1))), out ++ new))
        else some (.inl (restream acc (acc.streamingCursor + 1) decoder
            (sigKeys (S.streamed k (acc.streamingCursor + 1))), out ++ new)) := by
      simp only [SlotAccumulator.advanceStreamingBody, hps, if_neg hr, hholds.payload, hpush,
        Option.bind_eq_bind, Option.bind_some, SlotAccumulator.recordAll_eq, hsat, hunseen]
      simp only [SlotAccumulator.record, hsigs]
      rfl
    by_cases hc : ps.batchComplete
    · -- the last shred of the batch
      have := (hholds.batchComplete.mp hc).of_mem S hk hge (by omega)
      exact .inr ⟨by omega, by rw [hbody, if_pos hc]⟩
    · refine .inl ⟨lt_of_le_of_ne hlt fun heq => hc (hholds.batchComplete.mpr ?_), by
        rw [hbody, if_neg hc]⟩
      exact ⟨k, hk, by omega⟩

/-- `advance_streaming` yields what the shreds up to the first one that is
    missing or recovered complete. -/
theorem advanceStreaming (hw : env.wincode.Lawful) (h : S.Tracks k acc)
    (hcur : acc.streamingCursor < S.stop k ∨ acc.streamingCursor ∉ acc.pending) {fuel : ℕ}
    (hfuel : 2 ^ 32 < fuel) (out : List VersionedTransaction) :
    ∃ cursor decoder new,
      let acc' := restream acc cursor decoder (sigKeys (S.streamed k cursor))
      acc.advanceStreaming env fuel out = some (acc', out ++ new) ∧ S.Tracks k acc' ∧
      acc.streamingCursor ≤ cursor ∧
      S.streamed k cursor = S.streamed k acc.streamingCursor ++ new ∧
      ((acc.streamingCursor < cursor ∧ cursor = S.stop k) ∨
        ∀ ps, acc.pending[cursor]? = some ps → ps.source.isRecovered = true) := by
  suffices hrun : ∃ r, FuelLoop.run (SlotAccumulator.advanceStreamingBody env fuel) fuel (acc, out) =
      some r ∧ ∃ cursor decoder new,
        r = (restream acc cursor decoder (sigKeys (S.streamed k cursor)), out ++ new) ∧
        S.Tracks k r.1 ∧ acc.streamingCursor ≤ cursor ∧
        S.streamed k cursor = S.streamed k acc.streamingCursor ++ new ∧
        ((acc.streamingCursor < cursor ∧ cursor = S.stop k) ∨
          ∀ ps, acc.pending[cursor]? = some ps → ps.source.isRecovered = true) by
    obtain ⟨r, hr, cursor, decoder, new, rfl, hrest⟩ := hrun
    exact ⟨cursor, decoder, new, hr, hrest⟩
  have hstart : restream acc acc.streamingCursor acc.streamingDecoder
      (sigKeys (S.streamed k acc.streamingCursor)) = acc := by
    rw [restream, ← h.yielded]
  refine FuelLoop.run_total
    (fun r => ∃ cursor decoder new,
        r = (restream acc cursor decoder (sigKeys (S.streamed k cursor)), out ++ new) ∧
        S.Tracks k r.1 ∧ acc.streamingCursor ≤ cursor ∧
        S.streamed k cursor = S.streamed k acc.streamingCursor ++ new ∧
        (cursor < S.stop k ∨ cursor ∉ acc.pending)) _
    (fun r => S.stop k - r.1.streamingCursor) ?_ fuel (acc, out)
    ⟨_, _, [], by rw [hstart, List.append_nil], h, le_rfl, by simp, hcur⟩ ?_
  · rintro r ⟨cursor, decoder, new, rfl, htracks, hle, hnew, hcur⟩
    rcases htracks.advanceStreamingBody_cases hw hcur fuel (out ++ new) with
      ⟨hbody, hstop⟩ | ⟨decoder', new', htracks', hlt, hnew', hbody⟩
    · exact .inr ⟨_, hbody, cursor, decoder, new, rfl, htracks, hle, hnew, .inr hstop⟩
    have hnew'' : S.streamed k (cursor + 1) =
        S.streamed k acc.streamingCursor ++ (new ++ new') := by
      rw [← List.append_assoc, ← hnew]
      exact hnew'
    rcases hbody with ⟨hlt', hbody⟩ | ⟨heq, hbody⟩
    · refine .inl ⟨_, hbody, ⟨cursor + 1, decoder', new ++ new', ?_, htracks', by omega, hnew'',
        .inl hlt'⟩, ?_⟩
      · rw [← List.append_assoc]
        rfl
      · simp only [restream] at hlt ⊢
        omega
    · refine .inr ⟨_, hbody, cursor + 1, decoder', new ++ new', ?_, htracks', by omega, hnew'',
        .inl ⟨by omega, heq⟩⟩
      rw [← List.append_assoc]
      rfl
  · have h1 := S.stop_le_shreds k
    have h2 := S.shreds_le
    have h3 : S.shreds = S.start S.batches := rfl
    unfold u32Max at h2
    simp only
    split_ifs at h2 <;> omega

end Tracks

end Slot

end ShredStream
