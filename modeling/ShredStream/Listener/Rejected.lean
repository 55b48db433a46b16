import ShredStream.Listener.Fallback
import ShredStream.Listener.Retirements

/-!
# Rejected packets

Proofs about `listener.rs`, lines 340–399, 430–445 and 548–583. A packet is looked
at after a buffer was acquired for it, since the socket reads into the buffer. With
a free buffer at hand the acquisition evicts nothing; with none it first evicts the
slots that are too old, then the oldest slot.

Results:
* `rejected_keeps_state`: a rejected packet gives its buffer back and changes
  nothing but counters; only the evictions of the acquisition remain, if it made any
  (`FallsBack`).
-/

namespace ShredStream.ShredListener

variable {C : Type} {env : Env C} {l l₁ : ShredListener C}

/-! ## Rejection -/

/-- `handle_packet_owned` rejects the bytes: they do not parse, their slot is out
    of range, or it was retired recently. -/
def Rejects (l : ShredListener C) (bytes : Bytes) : Prop :=
  match parseKind bytes with
  | .error _ => True
  | .ok (.data d) => l.slotOutOfRange d.slot = true ∨ d.slot ∈ l.recentlySeenSlots
  | .ok (.code c) => l.slotOutOfRange c.slot = true ∨ c.slot ∈ l.recentlySeenSlots

instance (l : ShredListener C) (bytes : Bytes) : Decidable (l.Rejects bytes) := by
  unfold Rejects
  split <;> infer_instance

/-- A data shred of a rejected slot. -/
theorem handleData_of_rejected {sur : Surroundings} {fuel : ℕ} {handle : BufferHandle}
    {d : DataShred} (h : l.slotOutOfRange d.slot = true ∨ d.slot ∈ l.recentlySeenSlots) :
    ∃ counters, l.handleData env sur fuel handle d =
      some ({ l with counters, pool := l.pool.release [handle.idx] }, none) := by
  unfold handleData
  by_cases hrange : l.slotOutOfRange d.slot = true
  · rw [if_pos hrange]
    exact ⟨_, rfl⟩
  · rw [if_neg hrange, if_pos (h.resolve_left hrange)]
    exact ⟨_, rfl⟩

/-- A code shred of a rejected slot. -/
theorem handleCode_of_rejected {sur : Surroundings} {fuel : ℕ} {handle : BufferHandle}
    {c : CodeShred} (h : l.slotOutOfRange c.slot = true ∨ c.slot ∈ l.recentlySeenSlots) :
    ∃ counters, l.handleCode env sur fuel handle c =
      some ({ l with counters, pool := l.pool.release [handle.idx] }, none) := by
  unfold handleCode
  by_cases hrange : l.slotOutOfRange c.slot = true
  · rw [if_pos hrange]
    exact ⟨_, rfl⟩
  · rw [if_neg hrange, if_pos (h.resolve_left hrange)]
    exact ⟨_, rfl⟩

/-- A rejected packet changes counters and gives its buffer back. -/
theorem handlePacketOwned_of_rejected {sur : Surroundings} {fuel : ℕ} {handle : BufferHandle}
    (h : l.Rejects handle.bytes) :
    ∃ counters, l.handlePacketOwned env sur fuel handle =
      some ({ l with counters, pool := l.pool.release [handle.idx] }, none) := by
  unfold handlePacketOwned
  unfold Rejects at h
  cases hparse : parseKind handle.bytes with
  | error e => exact ⟨_, rfl⟩
  | ok kind =>
    rw [hparse] at h
    cases kind with
    | data d => exact handleData_of_rejected (by exact h)
    | code c => exact handleCode_of_rejected (by exact h)

/-! ## The buffer -/

/-- No buffer was free, so the slots `rs` were taken out: those that are too old,
    and if none of these holds a buffer, `forced`, the oldest of the others. -/
structure FallsBack (env : Env C) (sur : Surroundings) (fuel : ℕ) (l : ShredListener C)
    (rs : List Retirement) (forced : Option ℕ) (l' : ShredListener C) : Prop where
  takesOut : TakesOut env sur.clock fuel l rs l'
  keepsRest : KeepsRest l rs l'
  order : rs.map Retirement.slot = sur.hashOrder l.toEvict ++ forced.toList
  oldest : ∀ s, forced = some s ↔ (∀ s' ∈ l.toEvict, ¬l.HoldsBuffer s') ∧ l.OldestKept s
  seen : l'.recentlySeenSlots =
    (l.recentlySeenSlots ∪ l.toEvict.toFinset).filter (· ≥ l.blacklistFloor) ∪
      forced.toList.toFinset

/-- What an acquisition does that finds the pool empty. -/
theorem Falls.fallsBack {cfg : AccumulatorConfig} {sur : Surroundings}
    (hl : Sound env fuel cfg l) (hfree : l.pool.free = []) (h : Falls env sur fuel l l₁) :
    ∃ rs forced, FallsBack env sur fuel l rs forced l₁ := by
  cases h with
  | free hne => exact absurd hfree hne
  | old _ h₁ hne =>
    obtain ⟨rs, hrs, htakes, hrest, hseen, -⟩ := evictOldSlots_takesOut hl h₁
    obtain ⟨s, hs, hholds⟩ := (evictOldSlots_free_iff hl.live hfree h₁).1.mp hne
    refine ⟨rs, none, htakes, hrest, by simpa using hrs, fun s' => ?_, by simpa using hseen⟩
    exact iff_of_false (by simp) fun hnone => hnone.1 s hs hholds
  | forced l₀ _ h₀ hnil h₁ =>
    obtain ⟨rs, hrs, htakes, hrest, hseen, hl₀⟩ := evictOldSlots_takesOut hl h₀
    obtain ⟨rs', hrs', htakes', hrest', hseen', -⟩ := forceEvictOldestSlot_takesOut hl₀ h₁
    obtain ⟨hiff, hslots, -⟩ := evictOldSlots_free_iff hl.live hfree h₀
    have hnone : ∀ s' ∈ l.toEvict, ¬l.HoldsBuffer s' :=
      fun s' hs' hholds => hiff.mpr ⟨s', hs', hholds⟩ hnil
    refine ⟨rs ++ rs', l₀.slots.keys.head?, htakes.trans htakes', hrest.trans hrest', ?_,
      fun s => ?_, ?_⟩
    · rw [List.map_append, hrs, hrs']
    · rw [BTreeMap.head?_keys_iff, oldestKept_iff hslots]
      exact (and_iff_right hnone).symm
    · rw [hseen', hseen]

/-- In every state that calls lead to, a packet that no buffer is found for or that
    is rejected then returns nothing. With a free buffer on entry it changes nothing
    but counters; with none, the slots that were taken out for a buffer are gone, and
    nothing else has changed but counters and the codecs their harvests cached. -/
theorem rejected_keeps_state (opts : ListenerOptions) {qs : List (Surroundings × Request)}
    {replies : List Reply} (hrun : runRequests env fuel (fromSocket opts) qs = some (l, replies))
    {sur : Surroundings} {raw : Bytes} {buffer : Option ℕ}
    (hacquire : l.acquireBufferWithFallback env sur fuel = some (l₁, buffer))
    (hreject : ∀ idx ∈ buffer, l₁.Rejects (raw.take bufSize)) :
    ∃ (l₂ : ShredListener C) (counters : PacketCounters),
      l.handlePacket env sur fuel raw = some ({ l₂ with counters }, none) ∧
      (l.pool.free ≠ [] → l₂ = l) ∧
      (l.pool.free = [] → ∃ rs forced, FallsBack env sur fuel l rs forced l₂) := by
  obtain ⟨l₂, htake, hfalls⟩ := acquire_falls hacquire
  have hcall : ∃ counters,
      l.handlePacket env sur fuel raw = some ({ l₂ with counters }, none) := by
    cases buffer with
    | none =>
      obtain rfl := takeBuffer_none htake
      refine ⟨l₁.countPoolExhausted.counters, ?_⟩
      simp only [handlePacket, hacquire, Option.bind_eq_bind, Option.bind_some]
      rfl
    | some idx =>
      have howned : ∃ counters, l₁.handlePacketOwned env sur fuel ⟨idx, raw.take bufSize⟩ =
          some ({ l₁ with counters, pool := l₁.pool.release [idx] }, none) :=
        handlePacketOwned_of_rejected (hreject idx rfl)
      obtain ⟨counters, howned⟩ := howned
      refine ⟨counters, ?_⟩
      simp only [handlePacket, hacquire, Option.bind_eq_bind, Option.bind_some]
      rw [howned, ← takeBuffer_release htake]
  obtain ⟨counters, hcall⟩ := hcall
  refine ⟨l₂, counters, hcall, fun hfree => ?_, fun hfree => ?_⟩
  · cases hfalls with
    | free _ heq => exact heq
    | old hnil => exact absurd hnil hfree
    | forced _ hnil => exact absurd hnil hfree
  · exact hfalls.fallsBack (runRequests_sound opts hrun) hfree

/-- The only buffer is held by slot 3, with a whole batch behind a gap, when an empty
    packet comes: slot 3 goes and its tail is queued. -/
theorem rejected_keeps_state_exhausted :
    ∃ (l l₂ : ShredListener Unit) (replies : List Reply) (counters : PacketCounters)
        (rs : List Retirement) (forced : Option ℕ),
      runRequests legacyEnv (2 ^ 32 + 1) (fromSocket { poolSize := 1 })
        [(quiet, .handlePacket (legacyPacket 3 4 0 (LegacyWire.encodeBatch
          [[LegacyWire.signedTx 3 []]])))] = some (l, replies) ∧
      l.handlePacket legacyEnv quiet (2 ^ 32 + 1) [] = some ({ l₂ with counters }, none) ∧
      FallsBack legacyEnv quiet (2 ^ 32 + 1) l rs forced l₂ ∧ l₂.pendingBatches.length = 1 := by
  have hrun : ((runRequests legacyEnv (2 ^ 32 + 1) (fromSocket { poolSize := 1 })
      [(quiet, .handlePacket (legacyPacket 3 4 0 (LegacyWire.encodeBatch
        [[LegacyWire.signedTx 3 []]])))]).bind fun r =>
        (r.1.acquireBufferWithFallback legacyEnv quiet (2 ^ 32 + 1)).bind fun r' =>
          (r.1.handlePacket legacyEnv quiet (2 ^ 32 + 1) []).map fun r'' =>
            (r.1.pool.free, r'.2, decide (r'.1.Rejects []), r''.1.pendingBatches.length)) =
      some ([], some 0, true, 1) := by decide +kernel
  obtain ⟨⟨l, replies⟩, hl, hrun⟩ := Option.bind_eq_some_iff.mp hrun
  obtain ⟨⟨l₁, buffer⟩, hacquire, hrun⟩ := Option.bind_eq_some_iff.mp hrun
  obtain ⟨⟨l', out⟩, hcall, heq⟩ := Option.map_eq_some_iff.mp hrun
  simp only [Prod.mk.injEq] at heq
  obtain ⟨hfree, -, hreject, hlen⟩ := heq
  have hreject : l₁.Rejects (([] : Bytes).take bufSize) := of_decide_eq_true hreject
  obtain ⟨l₂, counters, hcall', -, hfalls⟩ :=
    rejected_keeps_state { poolSize := 1 } hl hacquire fun _ _ => hreject
  obtain ⟨rs, forced, hfalls⟩ := hfalls hfree
  rw [hcall'] at hcall
  cases hcall
  exact ⟨l, l₂, replies, counters, rs, forced, hl, hcall', hfalls, hlen⟩

/-- In the same state the call loses slot 1, although its packet is empty. -/
theorem rejected_packet_evicts :
    ¬∀ (opts : ListenerOptions) (qs : List (Surroundings × Request)) (l l' : ShredListener Unit)
      (replies : List Reply) (out : Option TxBatch) (raw : Bytes) (e : ParseError),
      runRequests legacyEnv (2 ^ 32 + 1) (fromSocket opts) qs = some (l, replies) →
      parseKind (raw.take bufSize) = .error e →
      l.handlePacket legacyEnv quiet (2 ^ 32 + 1) raw = some (l', out) → l'.slots = l.slots := by
  intro h
  have hrun : ((runRequests legacyEnv (2 ^ 32 + 1) (fromSocket { poolSize := 1 } : ShredListener Unit)
      [(quiet, .handlePacket (legacyPacket 1 0 0 [7]))]).bind fun r =>
        (r.1.handlePacket legacyEnv quiet (2 ^ 32 + 1) []).map fun r' =>
          (r.1.slotCount, r'.1.slotCount)) = some (1, 0) := by decide +kernel
  obtain ⟨⟨l, replies⟩, hl, hcall⟩ := Option.bind_eq_some_iff.mp hrun
  obtain ⟨⟨l', out⟩, hcall, hcounts⟩ := Option.map_eq_some_iff.mp hcall
  obtain ⟨hbefore, hafter⟩ := Prod.mk.inj hcounts
  have hslots := h _ _ l l' replies out [] .tooShort hl (by decide) hcall
  unfold slotCount at hbefore hafter
  rw [hslots, hbefore] at hafter
  cases hafter

end ShredStream.ShredListener
