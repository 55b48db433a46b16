import ShredStream.Listener.Basic

/-!
# The queue is only ever appended to

Nothing that handles a packet reads `pending_batches`; an eviction appends to it.
So batches waiting in front of the queue stay there and change nothing else
(`handlePacket_enqueue`).
-/

namespace ShredStream.ShredListener

variable {C : Type} {env : Env C} {clock : Clock} {sur : Surroundings} {fuel : ℕ}

/-- The listener with `waiting` in front of its queue. -/
def enqueue (waiting : List TxBatch) (l : ShredListener C) : ShredListener C :=
  { l with pendingBatches := waiting ++ l.pendingBatches }

variable (l : ShredListener C) (waiting : List TxBatch)

@[simp] theorem enqueue_pendingBatches :
    (l.enqueue waiting).pendingBatches = waiting ++ l.pendingBatches := rfl

@[simp] theorem enqueue_slots : (l.enqueue waiting).slots = l.slots := rfl

@[simp] theorem enqueue_pool : (l.enqueue waiting).pool = l.pool := rfl

/-! ## Evictions -/

theorem retireSlot_enqueue (s : ℕ) :
    (l.enqueue waiting).retireSlot env clock fuel s =
      (l.retireSlot env clock fuel s).map (enqueue waiting) := by
  unfold retireSlot
  rw [enqueue_slots]
  cases l.slots[s]? with
  | none => rfl
  | some acc =>
    show (acc.tryHarvestTail env clock fuel l.rsCache).bind _ =
      ((acc.tryHarvestTail env clock fuel l.rsCache).bind _).map _
    rw [Option.map_bind]
    congr 1
    funext r
    show some _ = some _
    congr 1
    unfold enqueue
    split_ifs <;> simp

theorem retireSlots_enqueue (ss : List ℕ) :
    retireSlots env clock fuel (l.enqueue waiting) ss =
      (retireSlots env clock fuel l ss).map (enqueue waiting) := by
  induction ss generalizing l with
  | nil => rfl
  | cons s ss ih =>
    show ((l.enqueue waiting).retireSlot env clock fuel s).bind _ =
      ((l.retireSlot env clock fuel s).bind _).map _
    rw [retireSlot_enqueue, Option.map_bind, Option.map_eq_bind, Option.bind_assoc]
    congr 1
    funext l₁
    exact ih l₁

theorem evictOldSlots_enqueue :
    (l.enqueue waiting).evictOldSlots env sur fuel =
      (l.evictOldSlots env sur fuel).map (enqueue waiting) := by
  show (retireSlots env sur.clock fuel (l.enqueue waiting) (sur.hashOrder l.toEvict)).bind _ =
    ((retireSlots env sur.clock fuel l (sur.hashOrder l.toEvict)).bind _).map _
  rw [retireSlots_enqueue, Option.map_bind, Option.map_eq_bind, Option.bind_assoc]
  rfl

theorem forceEvictOldestSlot_enqueue :
    (l.enqueue waiting).forceEvictOldestSlot env sur fuel =
      (l.forceEvictOldestSlot env sur fuel).map (enqueue waiting) := by
  unfold forceEvictOldestSlot
  rw [enqueue_slots]
  cases l.slots.keys.head? with
  | none => rfl
  | some s => exact retireSlot_enqueue l waiting s

theorem acquireBufferWithFallback_enqueue :
    (l.enqueue waiting).acquireBufferWithFallback env sur fuel =
      (l.acquireBufferWithFallback env sur fuel).map (Prod.map (enqueue waiting) id) := by
  unfold acquireBufferWithFallback
  rw [enqueue_pool]
  cases l.pool.acquire with
  | some r => rfl
  | none =>
    show ((l.enqueue waiting).evictOldSlots env sur fuel).bind _ =
      ((l.evictOldSlots env sur fuel).bind _).map _
    rw [evictOldSlots_enqueue, Option.map_bind, Option.map_eq_bind, Option.bind_assoc]
    congr 1
    funext l₁
    simp only [Function.comp, Option.bind_some, enqueue_pool]
    cases l₁.pool.acquire with
    | some r => rfl
    | none =>
      show ((l₁.enqueue waiting).forceEvictOldestSlot env sur fuel).bind _ =
        ((l₁.forceEvictOldestSlot env sur fuel).bind _).map _
      rw [forceEvictOldestSlot_enqueue, Option.map_bind, Option.map_eq_bind, Option.bind_assoc]
      congr 1
      funext l₂
      simp only [Function.comp, Option.bind_some, enqueue_pool]
      cases l₂.pool.acquire with
      | some r => rfl
      | none => rfl

/-! ## Packets -/

theorem advanceSlot_enqueue (slot : ℕ) :
    (l.enqueue waiting).advanceSlot env sur fuel slot =
      (l.advanceSlot env sur fuel slot).map (enqueue waiting) := by
  unfold advanceSlot
  show (if slot > l.lastSlot then _ else _) = _
  split_ifs
  · exact evictOldSlots_enqueue { l with lastSlot := slot } waiting
  · rfl

theorem handleData_enqueue (handle : BufferHandle) (d : DataShred) :
    (l.enqueue waiting).handleData env sur fuel handle d =
      (l.handleData env sur fuel handle d).map (Prod.map (enqueue waiting) id) := by
  unfold handleData
  show (if l.slotOutOfRange d.slot then _ else if d.slot ∈ l.recentlySeenSlots then _ else _) = _
  split_ifs
  · rfl
  · rfl
  · set l₀ : ShredListener C := { l with counters := _ }
    show ((l₀.enqueue waiting).advanceSlot env sur fuel d.slot).bind _ =
      ((l₀.advanceSlot env sur fuel d.slot).bind _).map _
    rw [advanceSlot_enqueue, Option.map_bind, Option.map_eq_bind, Option.bind_assoc]
    congr 1
    funext l₁
    show ((l₁.slotEntry d.slot).pushData env sur.clock fuel l₁.rsCache _).bind _ =
      (((l₁.slotEntry d.slot).pushData env sur.clock fuel l₁.rsCache _).bind _).map _
    rw [Option.map_bind]
    rfl

theorem handleCode_enqueue (handle : BufferHandle) (c : CodeShred) :
    (l.enqueue waiting).handleCode env sur fuel handle c =
      (l.handleCode env sur fuel handle c).map (Prod.map (enqueue waiting) id) := by
  unfold handleCode
  show (if l.slotOutOfRange c.slot then _ else if c.slot ∈ l.recentlySeenSlots then _ else
    if !l.enableFec then _ else _) = _
  split_ifs with h₁ h₂ h₃
  · rfl
  · rfl
  · simp only [h₃, if_true]
    rfl
  · simp only [h₃]
    set l₀ : ShredListener C := { l with counters := _ }
    show ((l₀.enqueue waiting).advanceSlot env sur fuel c.slot).bind _ =
      ((l₀.advanceSlot env sur fuel c.slot).bind _).map _
    rw [advanceSlot_enqueue, Option.map_bind, Option.map_eq_bind, Option.bind_assoc]
    congr 1
    funext l₁
    show ((l₁.slotEntry c.slot).pushCode env sur.clock fuel l₁.rsCache _).bind _ =
      (((l₁.slotEntry c.slot).pushCode env sur.clock fuel l₁.rsCache _).bind _).map _
    rw [Option.map_bind]
    rfl

theorem handlePacketOwned_enqueue (handle : BufferHandle) :
    (l.enqueue waiting).handlePacketOwned env sur fuel handle =
      (l.handlePacketOwned env sur fuel handle).map (Prod.map (enqueue waiting) id) := by
  unfold handlePacketOwned
  let l₀ : ShredListener C := { l with counters := { l.counters with
    bytesReceived := wrapAdd64 l.counters.bytesReceived handle.bytes.length } }
  rcases parseKind handle.bytes with e | d | c
  · rfl
  · exact handleData_enqueue l₀ waiting handle d
  · exact handleCode_enqueue l₀ waiting handle c

/-- Whatever waits in front of the queue, `handle_packet` does the same. -/
theorem handlePacket_enqueue (raw : Bytes) :
    (l.enqueue waiting).handlePacket env sur fuel raw =
      (l.handlePacket env sur fuel raw).map (Prod.map (enqueue waiting) id) := by
  unfold handlePacket
  show ((l.enqueue waiting).acquireBufferWithFallback env sur fuel).bind _ =
    ((l.acquireBufferWithFallback env sur fuel).bind _).map _
  rw [acquireBufferWithFallback_enqueue, Option.map_bind, Option.map_eq_bind, Option.bind_assoc]
  congr 1
  funext r
  obtain ⟨l₁, _ | idx⟩ := r
  · rfl
  · exact handlePacketOwned_enqueue l₁ waiting _

end ShredStream.ShredListener
