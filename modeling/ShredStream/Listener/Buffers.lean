import ShredStream.Listener.Live

/-!
# Pool buffers are conserved

Every step of a call keeps the pool buffers of the accumulator, those of its
pending shreds and those it dropped, and a call adds the buffer it was given
(`call_held`). The listener hands what was dropped back to the pool, so the free
list, the buffers in hand and those of the live slots are always all buffers of the
pool.

* `buffers_conserved`: between two calls every buffer is free or stored, and once.
-/

namespace ShredStream

namespace SlotAccumulator

variable {C : Type} {env : Env C} {clock : Clock} {acc acc' : SlotAccumulator}

/-- The buffers of the pending shreds. -/
def buffers (acc : SlotAccumulator) : List ℕ :=
  acc.pending.toList.filterMap (·.2.source.bufferIdx)

/-- The buffers of the pending shreds and those that were dropped. -/
def held (acc : SlotAccumulator) : Multiset ℕ :=
  acc.dropped + acc.pending.sumOver fun _ ps => (ps.source.bufferIdx.toList : Multiset ℕ)

theorem coe_filterMap {α : Type} (f : α → Option ℕ) (l : List α) :
    ((l.filterMap f : List ℕ) : Multiset ℕ) = (l.map fun e => ((f e).toList : Multiset ℕ)).sum := by
  induction l with
  | nil => rfl
  | cons e l ih =>
    rw [List.map_cons, List.sum_cons, ← ih]
    cases h : f e with
    | none => simp [h]
    | some i => simp [h]

theorem coe_flatMap {α : Type} (f : α → List ℕ) (l : List α) :
    ((l.flatMap f : List ℕ) : Multiset ℕ) = (l.map fun e => (f e : Multiset ℕ)).sum := by
  induction l with
  | nil => rfl
  | cons e l ih => rw [List.map_cons, List.sum_cons, ← ih, List.flatMap_cons, Multiset.coe_add]

theorem held_eq (acc : SlotAccumulator) : acc.held = (acc.dropped ++ acc.buffers : List ℕ) := by
  rw [← Multiset.coe_add, buffers, coe_filterMap]
  rfl

/-! ## Steps -/

/-- A recovered shred has no pool buffer. -/
theorem held_inserts {setIdx : ℕ} {r : ℕ × Bytes} (h : Inserts clock setIdx r acc acc') :
    acc'.held = acc.held := by
  cases h with
  | skip => rfl
  | last => rfl
  | store _ hnew _ _ =>
    show (acc.dropped : Multiset ℕ) + _ = _
    rw [storeRecovered, BTreeMap.sumOver_insert_new _ _ hnew]
    show (acc.dropped : Multiset ℕ) + (0 + _) = _
    rw [zero_add]
    rfl

theorem held_completeBatch (acc : SlotAccumulator) (bcIdx : ℕ) :
    (acc.completeBatch bcIdx).held = acc.held := by
  have hfilter := acc.pending.sumOver_filter
    (fun _ ps => (ps.source.bufferIdx.toList : Multiset ℕ)) (fun k _ => k ≥ satAdd32 bcIdx 1)
  have hgone : (acc.pending.toList.filter fun e => !decide (e.1 ≥ satAdd32 bcIdx 1)) =
      acc.pending.toList.filter fun e => e.1 < satAdd32 bcIdx 1 := by
    apply List.filter_congr
    intro e _
    rw [← decide_not]
    exact decide_eq_decide.mpr not_le
  rw [hgone, ← coe_filterMap (fun e : ℕ × PendingShred => e.2.source.bufferIdx)] at hfilter
  rw [held, held, hfilter]
  show ((acc.dropped ++ _ : List ℕ) : Multiset ℕ) + _ = _
  rw [← Multiset.coe_add, add_assoc, add_comm (Multiset.ofList (List.filterMap _ _))]
  rfl

theorem Step.held {s s' : CallState C} (h : Step env clock s s') : s'.acc.held = s.acc.held := by
  cases h with
  | fill hint =>
    refine tryFecFill_invariant (I := fun acc => acc.held = s.acc.held) env s.acc clock s.cache hint
      rfl ?_ (fun _ _ h => h) (fun _ _ h => h)
    intro _ _ _ _ _ _ _ _ _ _ h hins
    exact (held_inserts hins).trans h
  | finalise txs => exact held_completeBatch _ _
  | stream => rfl
  | streamError => rfl
  | record => rfl
  | tally => rfl

theorem Steps.held {s s' : CallState C} (h : Steps env clock s s') : s'.acc.held = s.acc.held :=
  Steps.invariant (I := fun t => t.acc.held = s.acc.held) (fun _ _ ht hstep => hstep.held.trans ht)
    h rfl

/-! ## Calls -/

/-- The buffer a call is given. -/
def Call.buffer : Call → List ℕ
  | .data a => [a.handle.idx]
  | _ => []

theorem held_insertData {a : DataArgs} (hnew : a.index ∉ acc.pending) :
    (acc.insertData clock a).held = acc.held + [a.handle.idx] := by
  show (acc.dropped : Multiset ℕ) + _ = _
  rw [insertData, BTreeMap.sumOver_insert_new _ _ hnew]
  show (acc.dropped : Multiset ℕ) + ([a.handle.idx] + _) = _
  rw [held]
  ac_rfl

theorem held_dropHandle (acc : SlotAccumulator) (b : BufferHandle) :
    (acc.dropHandle b).held = acc.held + [b.idx] := by
  show ((acc.dropped ++ [b.idx] : List ℕ) : Multiset ℕ) + _ = _
  rw [held, ← Multiset.coe_add]
  ac_rfl

/-- A call keeps all buffers, and has one more when it is a data call. -/
theorem call_held (hp : acc.Parsed) {c : Call} (hc : c.Parsed) {cache : ReedSolomonCache C}
    {fuel : ℕ} {r : CallState C} (h : acc.call env clock fuel cache c = some r) :
    r.acc.held = acc.held + c.buffer := by
  rcases call_cases hp hc h with ⟨a, rfl, -, rfl⟩ | ⟨acc₀, s, ho, hs, hr⟩
  · exact held_dropHandle acc a.handle
  · have hkept : s.acc.held = acc₀.held := hs.held
    rcases hr with ⟨rfl, hlast⟩ | ⟨a, rfl, hlast, rfl⟩
    · rw [hkept]
      cases ho with
      | last hl =>
        rw [hlast _ rfl] at hl
        cases hl
      | data _ _ hnew => exact held_insertData hnew
      | @code a =>
        obtain ⟨fecSets, counters, heq, -⟩ := acc.recordCode_eq a
        rw [heq]
        exact (add_zero _).symm
      | harvest => exact (add_zero _).symm
    · have hsame : acc₀.held = acc.held := by
        cases ho with
        | last => rfl
        | data hl =>
          rw [hlast] at hl
          cases hl
      rw [held_dropHandle, hkept, hsame]
      rfl

theorem Live.dropped_nil {fuel : ℕ} {cfg : AccumulatorConfig} {slot : ℕ}
    (h : Live env fuel cfg slot acc) : acc.dropped = [] := by
  cases h with
  | fresh => rfl
  | call => rfl

end SlotAccumulator

namespace ShredListener

open SlotAccumulator

variable {C : Type} {env : Env C} {fuel : ℕ} {l l' : ShredListener C}

/-- The buffers stored in the live slots. -/
def storedBuffers (l : ShredListener C) : List ℕ := l.slots.toList.flatMap fun e => e.2.buffers

/-- The free buffers, those in hand and those of the live slots. -/
def allBuffers (m : ShredListener C × List ℕ) : Multiset ℕ :=
  m.1.pool.free + m.2 + m.1.slots.sumOver fun _ acc => acc.held

theorem free_release (pool : ShredPool) (idxs : List ℕ) :
    ((pool.release idxs).free : Multiset ℕ) = idxs + pool.free := by
  show ((idxs.reverse ++ pool.free : List ℕ) : Multiset ℕ) = _
  rw [← Multiset.coe_add, Multiset.coe_reverse]

/-- A move takes no buffer away and adds none. -/
theorem Move.allBuffers {cfg : AccumulatorConfig} {clock : Clock}
    {m m' : ShredListener C × List ℕ} (h : Move env clock fuel m m')
    (hlive : AllLive env fuel cfg m.1) : allBuffers m' = allBuffers m := by
  cases h with
  | keep hsame =>
    unfold ShredListener.allBuffers
    rw [hsame.pool, hsame.slots]
  | @retire l l' hand s hretire =>
    rcases retireSlot_cases hretire with rfl | ⟨acc, r, hacc, hr, hl'⟩
    · rfl
    · have hheld : r.acc.held = acc.held + Call.harvest.buffer :=
        call_held (hlive.slots s acc hacc).parsed Call.parsed_harvest (c := .harvest) hr
      have hdropped : ((r.acc.dropped ++ r.acc.buffers : List ℕ) : Multiset ℕ) = acc.held := by
        rw [← held_eq, hheld]
        exact add_zero _
      unfold ShredListener.allBuffers
      rw [BTreeMap.sumOver_erase l.slots _ hacc, ← hdropped, hl'.slots, hl'.pool, free_release]
      show ((r.acc.dropped ++ r.acc.buffers : List ℕ) : Multiset ℕ) + _ + _ + _ = _
      ac_rfl
  | @acquire l hand idx pool hfree =>
    unfold ShredPool.acquire at hfree
    split at hfree
    · cases hfree
    · rename_i free heq
      cases hfree
      unfold ShredListener.allBuffers
      rw [heq]
      show (free : Multiset ℕ) + (([idx] : List ℕ) + hand) + _ = ([idx] + free) + hand + _
      ac_rfl
  | @free l hand idx =>
    unfold ShredListener.allBuffers
    show ((l.pool.release [idx]).free : Multiset ℕ) + hand + _ = _ + (([idx] : List ℕ) + hand) + _
    rw [free_release]
    ac_rfl

theorem buffer_of_packetCall {idx slot : ℕ} {raw : Bytes} {c : Call}
    (h : packetCall ⟨idx, raw⟩ = some (slot, c)) : c.buffer ++ c.unstored idx = [idx] := by
  unfold packetCall at h
  split at h
  · cases h
    rfl
  · cases h
    rfl
  · cases h

theorem allBuffers_finishCall {cfg : AccumulatorConfig} {clock : Clock} {idx slot : ℕ}
    {raw : Bytes} {c : Call} {r : CallState C} (hlive : AllLive env fuel cfg l)
    (hlen : raw.length ≤ bufSize) (hpacket : packetCall ⟨idx, raw⟩ = some (slot, c))
    (hr : (l.slotEntry slot).call env clock fuel l.rsCache c = some r) :
    allBuffers ((l.finishCall slot r).1, c.unstored idx) = allBuffers (l, [idx]) := by
  have hheld := call_held (hlive.slotEntry slot).parsed (made_of_packetCall hpacket hlen).parsed hr
  have hidx : (c.buffer : Multiset ℕ) + c.unstored idx = ([idx] : List ℕ) := by
    rw [Multiset.coe_add, buffer_of_packetCall hpacket]
  have hstored : ({ r.acc with dropped := [] } : SlotAccumulator).held + r.acc.dropped =
      r.acc.held := by
    show (0 : Multiset ℕ) + _ + _ = _
    rw [zero_add, held]
    ac_rfl
  unfold allBuffers
  rw [l.sumOver_slotEntry _ slot rfl, ← hidx]
  show ((l.pool.release r.acc.dropped).free : Multiset ℕ) + c.unstored idx +
    BTreeMap.sumOver (l.slots.insert slot { r.acc with dropped := [] }) _ = _
  rw [BTreeMap.sumOver_insert, free_release]
  calc _ = ({ r.acc with dropped := [] } : SlotAccumulator).held + r.acc.dropped + l.pool.free +
        c.unstored idx + BTreeMap.sumOver (l.slots.erase slot) (fun _ acc => acc.held) := by ac_rfl
    _ = _ := by
      rw [hstored, hheld]
      ac_rfl

/-- Between two calls the free list of the pool together with the buffers stored
    in the live slots lists every buffer exactly once. -/
theorem buffers_conserved (opts : ListenerOptions) {qs : List (Surroundings × Request)}
    {replies : List Reply} (h : runRequests env fuel (fromSocket opts) qs = some (l, replies)) :
    (l.pool.free ++ l.storedBuffers).Perm (List.range opts.poolSize) := by
  have hlive := runRequests_live opts h
  have hnew : allBuffers ((fromSocket opts : ShredListener C), []) = List.range opts.poolSize := by
    show (List.range opts.poolSize : Multiset ℕ) + 0 + BTreeMap.sumOver ∅ _ = _
    rw [BTreeMap.sumOver_empty, add_zero, add_zero]
  have hcons : allBuffers (l, []) = List.range opts.poolSize :=
    runRequests_moves_live (I := fun m => allBuffers m = List.range opts.poolSize)
      (fun _ _ _ hlive hm hmove => (hmove.allBuffers hlive).trans hm)
      (fun _ _ _ _ _ _ _ hlive hl hlen hpacket hr =>
        (allBuffers_finishCall hlive hlen hpacket hr).trans hl)
      (allLive_fromSocket opts) hnew h
  have hheld : l.slots.sumOver (fun _ acc => acc.held) = (l.storedBuffers : Multiset ℕ) := by
    rw [storedBuffers, coe_flatMap, BTreeMap.sumOver]
    congr 1
    apply List.map_congr_left
    rintro ⟨s, acc⟩ he
    have hdropped := (hlive.slots s acc (l.slots.mem_toList.mp he)).dropped_nil
    show acc.held = acc.buffers
    rw [held_eq, hdropped]
    rfl
  rw [← Multiset.coe_eq_coe, ← Multiset.coe_add, ← hheld, ← hcons]
  show _ = _ + (0 : Multiset ℕ) + _
  rw [add_zero]

/-- A pool of two buffers, of which a packet takes one. -/
theorem buffers_conserved_twoBuffers :
    ∃ l replies, runRequests legacyEnv (2 ^ 32 + 1) (fromSocket { poolSize := 2 })
        [(quiet, .handlePacket (legacyPacket 1 0 0 [7]))] = some (l, replies) ∧
      l.pool.free = [1] ∧ l.storedBuffers = [0] ∧
      (l.pool.free ++ l.storedBuffers).Perm (List.range 2) := by
  have hrun : ((runRequests legacyEnv (2 ^ 32 + 1) (fromSocket { poolSize := 2 })
      [(quiet, .handlePacket (legacyPacket 1 0 0 [7]))]).map fun r =>
        (r.1.pool.free, r.1.storedBuffers)) = some ([1], [0]) := by decide +kernel
  obtain ⟨⟨l, replies⟩, h, heq⟩ := Option.map_eq_some_iff.mp hrun
  obtain ⟨hfree, hstored⟩ := Prod.mk.inj heq
  exact ⟨l, replies, h, hfree, hstored, buffers_conserved { poolSize := 2 } h⟩

end ShredListener

end ShredStream
