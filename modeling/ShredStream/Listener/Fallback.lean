import ShredStream.Listener.Buffers
import ShredStream.Listener.Returns

/-!
# Buffers for an exhausted pool

Proofs about `listener.rs`, lines 548–583. When the pool is empty, the acquisition
of a buffer retires the slots that are too old, and if that freed no buffer, the
oldest slot that is left. A slot need not hold a buffer: all its batches may be
finalised, or it may have code shreds and recovered shreds only. Then the forced
eviction frees nothing, however many buffers the younger slots hold.

Results:
* `retireSlot_free_iff`, `retireSlots_free_iff`: retiring slots leaves a free buffer
  iff there was one or a retired slot held one.
* `acquire_returns_buffer_iff`: the acquisition gives a buffer iff one is free, a
  slot that is too old holds one, or the oldest of the other slots does.
-/

namespace ShredStream.ShredListener

open SlotAccumulator

variable {C : Type} {env : Env C} {clock : Clock} {fuel : ℕ} {l l' : ShredListener C}
  {cfg : AccumulatorConfig}

/-- Slot `s` is live and holds a pool buffer. -/
def HoldsBuffer (l : ShredListener C) (s : ℕ) : Prop :=
  ∃ acc : SlotAccumulator, l.slots[s]? = some acc ∧ acc.buffers ≠ []

/-- The oldest live slot that is not too old. -/
def OldestKept (l : ShredListener C) (s : ℕ) : Prop :=
  (s ∈ l.slots ∧ s ∉ l.toEvict) ∧ ∀ s' ∈ l.slots, s' ∉ l.toEvict → s ≤ s'

/-- A buffer is free, or a slot that the acquisition would retire holds one. -/
def CanFree (l : ShredListener C) : Prop :=
  l.pool.free ≠ [] ∨ (∃ s ∈ l.toEvict, l.HoldsBuffer s) ∨
    ∃ s, l.OldestKept s ∧ l.HoldsBuffer s

/-! ## Retiring slots -/

/-- Retiring a slot frees the buffers it holds. -/
theorem retireSlot_free_iff (hlive : AllLive env fuel cfg l) {s : ℕ}
    (h : l.retireSlot env clock fuel s = some l') :
    (l'.pool.free ≠ [] ↔ l.pool.free ≠ [] ∨ l.HoldsBuffer s) ∧
      ∀ s' : ℕ, l'.slots[s']? = if s' = s then none else l.slots[s']? := by
  unfold retireSlot at h
  unfold HoldsBuffer
  cases hacc : l.slots[s]? with
  | none =>
    rw [hacc] at h
    cases h
    refine ⟨by simp, fun s' => ?_⟩
    split_ifs with hs
    · rw [hs, hacc]
    · rfl
  | some acc =>
    rw [hacc] at h
    obtain ⟨r, hr, h⟩ := Option.bind_eq_some_iff.mp h
    cases h
    have hlive' := hlive.slots s acc hacc
    have hheld : r.acc.held = acc.held + Call.harvest.buffer :=
      call_held hlive'.parsed Call.parsed_harvest (c := .harvest) hr
    have hperm : (r.acc.dropped ++ r.acc.buffers).Perm acc.buffers := by
      rw [← Multiset.coe_eq_coe, ← held_eq, hheld, held_eq, hlive'.dropped_nil]
      exact add_zero _
    constructor
    · show (r.acc.dropped ++ r.acc.buffers).reverse ++ l.pool.free ≠ [] ↔ _
      have hnil : r.acc.dropped ++ r.acc.buffers = [] ↔ acc.buffers = [] :=
        ⟨fun hnil => List.nil_perm.mp (hnil ▸ hperm), fun hnil => List.perm_nil.mp (hnil ▸ hperm)⟩
      rw [ne_eq, List.append_eq_nil_iff, List.reverse_eq_nil_iff, hnil]
      simp only [Option.some.injEq, exists_eq_left']
      tauto
    · intro s'
      show (l.slots.erase s)[s']? = _
      rw [BTreeMap.getElem?_erase_eq]
      by_cases hs : s' = s
      · rw [if_pos hs.symm, if_pos hs]
      · rw [if_neg (Ne.symm hs), if_neg hs]

/-- Retiring slots in turn frees the buffers any of them holds. -/
theorem retireSlots_free_iff (hlive : AllLive env fuel cfg l) {ss : List ℕ}
    (h : retireSlots env clock fuel l ss = some l') :
    (l'.pool.free ≠ [] ↔ l.pool.free ≠ [] ∨ ∃ s ∈ ss, l.HoldsBuffer s) ∧
      (∀ s' : ℕ, l'.slots[s']? = if s' ∈ ss then none else l.slots[s']?) ∧
      AllLive env fuel cfg l' := by
  induction ss generalizing l with
  | nil =>
    cases h
    exact ⟨by simp, fun s' => by simp, hlive⟩
  | cons s ss ih =>
    obtain ⟨l₁, h₁, h₂⟩ := Option.bind_eq_some_iff.mp h
    obtain ⟨hfree₁, hslots₁⟩ := retireSlot_free_iff hlive h₁
    have hlive₁ : AllLive env fuel cfg l₁ := AllLive.move (m := (l, [])) hlive (.retire h₁)
    obtain ⟨hfree₂, hslots₂, hlive₂⟩ := ih hlive₁ h₂
    have hholds : ∀ s', l₁.HoldsBuffer s' ↔ s' ≠ s ∧ l.HoldsBuffer s' := by
      intro s'
      unfold HoldsBuffer
      rw [hslots₁]
      split_ifs with hs
      · simp [hs]
      · simp [hs]
    refine ⟨?_, fun s' => ?_, hlive₂⟩
    · rw [hfree₂, hfree₁]
      simp only [hholds, List.mem_cons, exists_eq_or_imp]
      constructor
      · rintro ((hfree | hs) | ⟨s', hs', -, hhold⟩)
        · exact .inl hfree
        · exact .inr (.inl hs)
        · exact .inr (.inr ⟨s', hs', hhold⟩)
      · rintro (hfree | hs | ⟨s', hs', hhold⟩)
        · exact .inl (.inl hfree)
        · exact .inl (.inr hs)
        · by_cases heq : s' = s
          · exact .inl (.inr (heq ▸ hhold))
          · exact .inr ⟨s', hs', heq, hhold⟩
    · rw [hslots₂, hslots₁]
      simp only [List.mem_cons]
      split_ifs <;> tauto

/-! ## The two stages -/

theorem acquire_eq_none_iff {pool : ShredPool} : pool.acquire = none ↔ pool.free = [] := by
  unfold ShredPool.acquire
  cases pool.free with
  | nil => simp
  | cons i free => simp

/-- The first stage frees a buffer iff a slot that is too old holds one; the slots
    it leaves are untouched. -/
theorem evictOldSlots_free_iff (hlive : AllLive env fuel cfg l) {sur : Surroundings}
    (hfree : l.pool.free = []) (h : l.evictOldSlots env sur fuel = some l') :
    (l'.pool.free ≠ [] ↔ ∃ s ∈ l.toEvict, l.HoldsBuffer s) ∧
      (∀ s : ℕ, l'.slots[s]? = if s ∈ l.toEvict then none else l.slots[s]?) ∧
      AllLive env fuel cfg l' := by
  obtain ⟨l₁, h₁, h₂⟩ := Option.bind_eq_some_iff.mp h
  obtain ⟨hiff, hslots, hlive₁⟩ := retireSlots_free_iff hlive h₁
  have hmem : ∀ s, s ∈ sur.hashOrder l.toEvict ↔ s ∈ l.toEvict := fun s =>
    (sur.hashOrder_perm _).mem_iff
  simp only [hmem] at hiff hslots
  cases h₂
  refine ⟨?_, hslots, hlive₁.cfg_eq, hlive₁.slots, hlive₁.retired⟩
  rw [hiff]
  exact or_iff_right (not_not_intro hfree)

/-- The second stage frees a buffer iff the oldest slot holds one. -/
theorem forceEvictOldestSlot_free_iff (hlive : AllLive env fuel cfg l) {sur : Surroundings}
    (hfree : l.pool.free = []) (h : l.forceEvictOldestSlot env sur fuel = some l') :
    l'.pool.free ≠ [] ↔ ∃ s, (s ∈ l.slots ∧ ∀ s' ∈ l.slots, s ≤ s') ∧ l.HoldsBuffer s := by
  unfold forceEvictOldestSlot at h
  simp only [← BTreeMap.head?_keys_iff]
  cases hhead : l.slots.keys.head? with
  | none =>
    rw [hhead] at h
    cases h
    simp [hfree]
  | some s =>
    rw [hhead] at h
    rw [(retireSlot_free_iff hlive h).1, hfree]
    simp

/-- What the first stage leaves as the oldest slot. -/
theorem oldestKept_iff
    (hslots : ∀ s : ℕ, l'.slots[s]? = if s ∈ l.toEvict then none else l.slots[s]?) {s : ℕ} :
    (s ∈ l'.slots ∧ ∀ s' ∈ l'.slots, s ≤ s') ↔ l.OldestKept s := by
  have hkept : ∀ s, s ∈ l'.slots ↔ s ∈ l.slots ∧ s ∉ l.toEvict := by
    intro s
    rw [BTreeMap.mem_iff_getElem?, BTreeMap.mem_iff_getElem?, hslots]
    split_ifs with hold
    · simp [hold]
    · simp [hold]
  unfold OldestKept
  simp only [hkept, and_imp]

/-! ## The acquisition -/

/-- The acquisition gives a buffer iff one is free or a slot it would retire holds
    one. -/
theorem acquire_isSome_iff (hlive : AllLive env fuel cfg l) {sur : Surroundings}
    {buffer : Option ℕ} (h : l.acquireBufferWithFallback env sur fuel = some (l', buffer)) :
    buffer.isSome = true ↔ l.CanFree := by
  unfold acquireBufferWithFallback at h
  unfold CanFree
  cases hpool : l.pool.acquire with
  | some b =>
    rw [hpool] at h
    cases h
    refine iff_of_true rfl (.inl fun hnil => ?_)
    rw [acquire_eq_none_iff.mpr hnil] at hpool
    cases hpool
  | none =>
    have hfree := acquire_eq_none_iff.mp hpool
    simp only [hpool, Option.bind_eq_bind, Option.bind_eq_some_iff] at h
    obtain ⟨l₁, h₁, h⟩ := h
    obtain ⟨hfree₁, hslots₁, hlive₁⟩ := evictOldSlots_free_iff hlive hfree h₁
    rw [or_iff_right (not_not_intro hfree)]
    cases hpool₁ : l₁.pool.acquire with
    | some b =>
      rw [hpool₁] at h
      cases h
      refine iff_of_true rfl (.inl (hfree₁.mp fun hnil => ?_))
      rw [acquire_eq_none_iff.mpr hnil] at hpool₁
      cases hpool₁
    | none =>
      have hnil₁ := acquire_eq_none_iff.mp hpool₁
      simp only [hpool₁, Option.bind_eq_some_iff] at h
      obtain ⟨l₂, h₂, h⟩ := h
      rw [or_iff_right fun hold => hfree₁.mpr hold hnil₁]
      have holdest : (∃ s, (s ∈ l₁.slots ∧ ∀ s' ∈ l₁.slots, s ≤ s') ∧ l₁.HoldsBuffer s) ↔
          ∃ s, l.OldestKept s ∧ l.HoldsBuffer s := by
        apply exists_congr
        intro s
        rw [oldestKept_iff hslots₁]
        apply and_congr_right
        rintro ⟨⟨-, hkeep⟩, -⟩
        unfold HoldsBuffer
        rw [hslots₁, if_neg hkeep]
      rw [← holdest, ← forceEvictOldestSlot_free_iff hlive₁ hnil₁ h₂, ne_eq,
        ← acquire_eq_none_iff]
      cases hpool₂ : l₂.pool.acquire with
      | some b =>
        rw [hpool₂] at h
        cases h
        simp
      | none =>
        rw [hpool₂] at h
        cases h
        simp

/-- In every state that calls lead to, the acquisition gives a buffer iff one is
    free, a slot that is too old holds one, or the oldest of the other slots does.
    It returns as long as the packets stay below index `u32::MAX`. -/
theorem acquire_returns_buffer_iff (hw : env.wincode.Lawful) (hfuel : 2 ^ 32 < fuel)
    (opts : ListenerOptions) {qs : List (Surroundings × Request)} {replies : List Reply}
    (hrun : runRequests env fuel (fromSocket opts) qs = some (l, replies)) (sur : Surroundings) :
    (∀ l' buffer, l.acquireBufferWithFallback env sur fuel = some (l', buffer) →
      (buffer.isSome = true ↔ l.CanFree)) ∧
    (Throughout env fuel StaysBelow (fromSocket opts) qs →
      ∃ l' buffer, l.acquireBufferWithFallback env sur fuel = some (l', buffer)) := by
  refine ⟨fun l' buffer h => acquire_isSome_iff (runRequests_live opts hrun) h, fun hqs => ?_⟩
  obtain ⟨l₁, replies₁, hrun₁, hb⟩ := runRequests_total Bounded StaysBelow
    (fun sur l q hl hq => by
      obtain ⟨l', reply, h, hb⟩ := hl.request hw sur hfuel hq
      exact ⟨l', reply, h, hb⟩) qs (fromSocket opts) (Bounded.fromSocket opts) hqs
  rw [hrun] at hrun₁
  cases hrun₁
  obtain ⟨l', buffer, h, -⟩ := hb.acquireBufferWithFallback env sur hfuel
  exact ⟨l', buffer, h⟩

/-! ## A slot without buffers in front of one with the only buffer -/

/-- A packet of slot `slot` whose batch is complete and decoded at once. -/
def wholeBatch (slot : ℕ) : Bytes :=
  legacyPacket slot 0 0x40 (LegacyWire.encodeBatch [[LegacyWire.signedTx 1 []]])

/-- The only buffer is held by the only slot: the acquisition retires it. -/
theorem acquire_returns_buffer_one : ∃ (l : ShredListener Unit) (replies : List Reply),
    runRequests legacyEnv (2 ^ 32 + 1) (fromSocket { poolSize := 1 })
      [(quiet, .handlePacket (legacyPacket 2 0 0 [7]))] = some (l, replies) ∧
    l.pool.free = [] ∧
    ∃ l', l.acquireBufferWithFallback legacyEnv quiet (2 ^ 32 + 1) = some (l', some 0) ∧
      l.CanFree := by
  have hrun : ((runRequests legacyEnv (2 ^ 32 + 1) (fromSocket { poolSize := 1 })
      [(quiet, .handlePacket (legacyPacket 2 0 0 [7]))]).bind fun r =>
        (r.1.acquireBufferWithFallback legacyEnv quiet (2 ^ 32 + 1)).map fun r' =>
          (r.1.pool.free, r'.2)) = some ([], some 0) := by decide +kernel
  obtain ⟨⟨l, replies⟩, hl, hacquire⟩ := Option.bind_eq_some_iff.mp hrun
  obtain ⟨⟨l', buffer⟩, hacquire, heq⟩ := Option.map_eq_some_iff.mp hacquire
  obtain ⟨hfree, hbuffer⟩ := Prod.mk.inj heq
  obtain rfl : buffer = some 0 := hbuffer
  exact ⟨l, replies, hl, hfree, l', hacquire,
    ((acquire_returns_buffer_iff LegacyWire.wincode_lawful (by decide) { poolSize := 1 } hl quiet).1
      l' (some 0) hacquire).mp rfl⟩

/-- Slot 1 is decoded and holds nothing, slot 2 holds the only buffer: the
    acquisition retires slot 1 and gives no buffer. -/
theorem acquire_gives_up : ¬∀ (opts : ListenerOptions) (qs : List (Surroundings × Request))
    (l l' : ShredListener Unit) (replies : List Reply) (buffer : Option ℕ),
    runRequests legacyEnv (2 ^ 32 + 1) (fromSocket opts) qs = some (l, replies) →
    l.storedBuffers ≠ [] →
    l.acquireBufferWithFallback legacyEnv quiet (2 ^ 32 + 1) = some (l', buffer) →
      buffer.isSome = true := by
  intro h
  have hrun : ((runRequests legacyEnv (2 ^ 32 + 1) (fromSocket { poolSize := 1 } : ShredListener Unit)
      [(quiet, .handlePacket (wholeBatch 1)), (quiet, .handlePacket (legacyPacket 2 0 0 [7]))]).bind
        fun r => (r.1.acquireBufferWithFallback legacyEnv quiet (2 ^ 32 + 1)).map fun r' =>
          (r.1.storedBuffers, r'.2)) = some ([0], none) := by decide +kernel
  obtain ⟨⟨l, replies⟩, hl, hacquire⟩ := Option.bind_eq_some_iff.mp hrun
  obtain ⟨⟨l', buffer⟩, hacquire, heq⟩ := Option.map_eq_some_iff.mp hacquire
  obtain ⟨hstored, hbuffer⟩ := Prod.mk.inj heq
  obtain rfl : buffer = none := hbuffer
  have hsome := h _ _ l l' replies none hl (by rw [hstored]; exact List.cons_ne_nil _ _) hacquire
  cases hsome

end ShredStream.ShredListener
