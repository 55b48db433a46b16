import ShredStream.Accumulator.Completions
import ShredStream.Listener.Live

/-!
# Slots that are retired early

Proofs about `listener.rs`, lines 479–520. A slot marked `slot_complete` is evicted
once `last_slot` is two slots ahead, any other one when it is more than `max_age`
slots ahead. The mark only says that the last shred of the slot came.

Results:
* `early_eviction_whole`: if nothing in front of the last shred was missing when it
  came or was recovered, then nothing is missing when the slot is evicted early.
-/

namespace ShredStream.ShredListener

open SlotAccumulator

variable {C : Type} {env : Env C} {fuel : ℕ} {l l' t : ShredListener C}

/-- The states in which a call enters `evict_old_slots`, up to counters: a buffer is
    needed and none is free, or the packet is of a slot ahead of `last_slot`. -/
inductive EntersEviction (env : Env C) (sur : Surroundings) (fuel : ℕ) (l : ShredListener C)
    (q : Request) : ShredListener C → Prop
  | exhausted : (∀ datagram, q = .recvOne datagram → l.pendingBatches = []) → l.pool.free = [] →
      EntersEviction env sur fuel l q l
  | newer {idx slot : ℕ} {raw : Bytes} {l₁ : ShredListener C} : raw ∈ l.incoming q →
      l.acquireBufferWithFallback env sur fuel = some (l₁, some idx) →
      packetSlot l₁.enableFec raw = some slot → l₁.slotOutOfRange slot = false →
      slot ∉ l₁.recentlySeenSlots → l₁.lastSlot < slot →
      EntersEviction env sur fuel l q { l₁ with lastSlot := slot }

/-- `last_slot` stays in the range of the slot numbers. -/
theorem runRequests_lastSlot_le (opts : ListenerOptions) {qs : List (Surroundings × Request)}
    {replies : List Reply} (h : runRequests env fuel (fromSocket opts) qs = some (l, replies)) :
    l.lastSlot ≤ u64Max := by
  refine runRequests_invariant (fun _ l => l.lastSlot ≤ u64Max) (fun _ _ => True) ?_ qs [] _ _ _
    (Nat.zero_le _) (throughout_of_forall (P := fun _ => True) (fun _ _ => trivial) _) h
  intro pre sur l q l' reply hl _ hrun
  cases request_outcome hrun with
  | popped _ _ _ _ _ hl' =>
    rw [hl']
    exact hl
  | refused gone queued he =>
    rw [he.lastSlot]
    exact hl
  | accepted raw slot l₁ l₂ gone gone' queued queued' batch hraw hslot he hpool ha =>
    rw [ha.stores.lastSlot, ha.evicts.lastSlot]
    show max l₁.lastSlot slot ≤ u64Max
    rw [he.lastSlot]
    exact max_le hl (slot_le_of_inRange ha.inRange)

/-- What the eviction finds are live slots as the last call left them. -/
theorem EntersEviction.entry {sur : Surroundings} {q : Request}
    (h : EntersEviction env sur fuel l q t) (hlast : l.lastSlot ≤ u64Max) :
    t.lastSlot ≤ u64Max ∧
      ∀ (s : ℕ) (acc : SlotAccumulator), t.slots[s]? = some acc → l.slots[s]? = some acc := by
  cases h with
  | exhausted => exact ⟨hlast, fun s acc hacc => hacc⟩
  | newer _ hacquire _ hrange _ _ =>
    obtain ⟨gone, queued, hevicts, -⟩ := acquire_evicts hacquire
    refine ⟨slot_le_of_inRange hrange, fun s acc hacc => ?_⟩
    replace hacc := (hevicts.slots s).symm.trans hacc
    split_ifs at hacc
    exact hacc

/-- A slot that goes while it is within `max_age` of `last_slot` was marked
    complete. -/
theorem slotComplete_of_early {s : ℕ} {acc : SlotAccumulator} (hlast : t.lastSlot ≤ u64Max)
    (hacc : t.slots[s]? = some acc) (hs : s ∈ t.toEvict) (hearly : t.lastSlot ≤ s + t.maxAge) :
    acc.slotComplete = true := by
  have hold : satAdd64 s (t.retention acc) < t.lastSlot := by
    simpa [toEvict, hacc] using hs
  by_contra hmark
  unfold retention at hold
  rw [if_neg hmark] at hold
  exact absurd hold (not_lt.mpr (le_min hearly hlast))

/-- Whenever a slot is evicted while it is within `max_age` of `last_slot`, its last
    shred came, and every index in front of it is pending or in a finalised batch,
    if that was so each time a last shred came or was recovered. -/
theorem early_eviction_whole (opts : ListenerOptions) {qs : List (Surroundings × Request)}
    {replies : List Reply} (hrun : runRequests env fuel (fromSocket opts) qs = some (l, replies))
    {sur : Surroundings} {q : Request} (hevict : EntersEviction env sur fuel l q t) {s : ℕ}
    {acc : SlotAccumulator} (hacc : t.slots[s]? = some acc) (hs : s ∈ t.toEvict)
    (hearly : t.lastSlot ≤ s + t.maxAge) (hwhole : ∀ f ∈ acc.completions, f.Whole) :
    acc.completions ≠ [] ∧ ∀ f ∈ acc.completions, ∀ i < f.index, acc.Accounts i := by
  obtain ⟨hlast, hslots⟩ := hevict.entry (runRequests_lastSlot_le opts hrun)
  have haccounted := ((runRequests_live opts hrun).slots s acc (hslots s acc hacc)).accounted
  exact ⟨haccounted.marked (slotComplete_of_early hlast hacc hs hearly),
    fun f hf i hi => haccounted.kept f hf i (hwhole f hf i hi)⟩

/-! ## A last shred that comes last, and one that comes first -/

/-- Slot 3 makes the listener evict slot 1 after `packets` of it. -/
def earlyEviction (packets : List Bytes) :
    Option (ShredListener Unit × ShredListener Unit × SlotAccumulator × Option ℕ) := do
  let (l, _) ← runRequests legacyEnv (2 ^ 32 + 1) (fromSocket {})
    (packets.map fun raw => (quiet, .handlePacket raw))
  let (l₁, buffer) ← l.acquireBufferWithFallback legacyEnv quiet (2 ^ 32 + 1)
  let acc ← l₁.slots[1]?
  return (l, l₁, acc, buffer)

theorem earlyEviction_spec {packets : List Bytes} {l l₁ : ShredListener Unit}
    {acc : SlotAccumulator} {buffer : Option ℕ}
    (h : earlyEviction packets = some (l, l₁, acc, buffer)) :
    (∃ replies, runRequests legacyEnv (2 ^ 32 + 1) (fromSocket {})
      (packets.map fun raw => (quiet, .handlePacket raw)) = some (l, replies)) ∧
    l.acquireBufferWithFallback legacyEnv quiet (2 ^ 32 + 1) = some (l₁, buffer) ∧
    l₁.slots[1]? = some acc := by
  obtain ⟨⟨l', replies⟩, hrun, h⟩ := Option.bind_eq_some_iff.mp h
  obtain ⟨⟨l₁', buffer'⟩, hacquire, h⟩ := Option.bind_eq_some_iff.mp h
  obtain ⟨acc', hacc, h⟩ := Option.bind_eq_some_iff.mp h
  cases h
  exact ⟨⟨replies, hrun⟩, hacquire, hacc⟩

/-- The packet of slot 3 makes the listener evict slot 1 early. -/
def EvictsFirst (l₁ : ShredListener Unit) : Prop :=
  packetSlot l₁.enableFec (legacyPacket 3 0 0 [7]) = some 3 ∧ l₁.slotOutOfRange 3 = false ∧
    3 ∉ l₁.recentlySeenSlots ∧ l₁.lastSlot < 3 ∧ 1 ∈ { l₁ with lastSlot := 3 }.toEvict ∧
      3 ≤ 1 + l₁.maxAge

instance (l₁ : ShredListener Unit) : Decidable (EvictsFirst l₁) :=
  inferInstanceAs (Decidable (_ ∧ _ ∧ _ ∧ _ ∧ _ ∧ _))

theorem EvictsFirst.enters {l l₁ : ShredListener Unit} (h : EvictsFirst l₁) {idx : ℕ}
    (hacquire : l.acquireBufferWithFallback legacyEnv quiet (2 ^ 32 + 1) = some (l₁, some idx)) :
    EntersEviction legacyEnv quiet (2 ^ 32 + 1) l (.handlePacket (legacyPacket 3 0 0 [7]))
      { l₁ with lastSlot := 3 } := by
  obtain ⟨hslot, hrange, hunseen, hlt, -⟩ := h
  refine .newer ?_ hacquire hslot hrange hunseen hlt
  show _ ∈ some ((legacyPacket 3 0 0 [7]).take bufSize)
  rw [List.take_of_length_le (by decide)]
  rfl

/-- Slot 1 has a batch of one shred and then its last shred. -/
def orderedPackets : List Bytes :=
  [legacyPacket 1 0 0x40 (LegacyWire.encodeBatch []), legacyPacket 1 1 0xC0 []]

theorem early_eviction_whole_ordered : ∃ (l l₁ : ShredListener Unit) (acc : SlotAccumulator),
    earlyEviction orderedPackets = some (l, l₁, acc, some 0) ∧
    acc.completions.map Completion.index = [1] ∧
    ∀ f ∈ acc.completions, ∀ i < f.index, acc.Accounts i := by
  have hrun : (earlyEviction orderedPackets).map (fun r => (r.2.2.2, decide (EvictsFirst r.2.1),
      r.2.2.1.completions.map Completion.index, decide (∀ f ∈ r.2.2.1.completions, f.Whole))) =
      some (some 0, true, [1], true) := by decide +kernel
  obtain ⟨⟨l, l₁, acc, buffer⟩, hearly, heq⟩ := Option.map_eq_some_iff.mp hrun
  simp only [Prod.mk.injEq, decide_eq_true_eq] at heq
  obtain ⟨rfl, hfirst, hindex, hwhole⟩ := heq
  obtain ⟨⟨replies, hl⟩, hacquire, hacc⟩ := earlyEviction_spec hearly
  exact ⟨l, l₁, acc, hearly, hindex, (early_eviction_whole {} hl (hfirst.enters hacquire) hacc
    hfirst.2.2.2.2.1 hfirst.2.2.2.2.2 hwhole).2⟩

/-- All that comes of slot 1 is its last shred, at index 5: the slot is evicted early
    although the five shreds in front of it are missing. -/
theorem early_eviction_with_gaps : ¬∀ (opts : ListenerOptions) (qs : List (Surroundings × Request))
    (l t : ShredListener Unit) (replies : List Reply) (q : Request) (s : ℕ) (acc : SlotAccumulator),
    1 ≤ opts.maxAge → runRequests legacyEnv (2 ^ 32 + 1) (fromSocket opts) qs = some (l, replies) →
    EntersEviction legacyEnv quiet (2 ^ 32 + 1) l q t → t.slots[s]? = some acc → s ∈ t.toEvict →
    t.lastSlot ≤ s + t.maxAge → ∀ f ∈ acc.completions, ∀ i < f.index, acc.Accounts i := by
  intro h
  have hrun : (earlyEviction [legacyPacket 1 5 0xC0 []]).map (fun r => (r.2.2.2,
      decide (EvictsFirst r.2.1), r.2.2.1.completions.map Completion.index, r.2.2.1.batchStart,
      decide (0 ∈ r.2.2.1.pending))) = some (some 0, true, [5], 0, false) := by decide +kernel
  obtain ⟨⟨l, l₁, acc, buffer⟩, hearly, heq⟩ := Option.map_eq_some_iff.mp hrun
  simp only [Prod.mk.injEq, decide_eq_true_eq, decide_eq_false_iff_not] at heq
  obtain ⟨rfl, hfirst, hindex, hstart, hmissing⟩ := heq
  obtain ⟨⟨replies, hl⟩, hacquire, hacc⟩ := earlyEviction_spec hearly
  obtain ⟨f, hf, hf5⟩ : ∃ f ∈ acc.completions, f.index = 5 := by
    rw [← List.mem_map, hindex]
    exact List.mem_singleton_self 5
  rcases h {} _ l _ replies _ 1 acc (by decide) hl (hfirst.enters hacquire) hacc
    hfirst.2.2.2.2.1 hfirst.2.2.2.2.2 f hf 0 (by omega) with hlt | hmem
  · rw [hstart] at hlt
    exact absurd hlt (lt_irrefl 0)
  · exact hmissing hmem

end ShredStream.ShredListener
