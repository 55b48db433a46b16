import ShredStream.Listener.Outcome
import ShredStream.Slot.Build

/-!
# Live slots, retired slots

`evict_old_slots` runs when a packet raises `last_slot`, and forgets retired
slots behind `blacklist_floor`; packets are only compared with the past through
`recently_seen_slots`. So what the listener promises about its slots holds as
long as no late packet gets past that set:

* `slots_stay_in_window`: live slots are at most `max(max_age, 1)` behind;
* `retired_stays_retired`: a retired slot is never live again, and of its
  transactions only the batch queued at its eviction is still returned.
-/

namespace ShredStream.ShredListener

variable {C : Type} {env : Env C} {fuel : ℕ}

/-! ## The retention window -/

/-- The packet of the call, if it is accepted, is for a slot of the window: it
    is out of range, its slot is known (and not just about to be forgotten by a
    fallback eviction), or it is at most `max(max_age, 1)` slots late. -/
def InWindow (l : ShredListener C) (q : Request) : Prop :=
  ∀ raw ∈ l.incoming q, ∀ slot ∈ packetSlot l.enableFec raw, l.slotOutOfRange slot = false →
    (slot ∈ l.recentlySeenSlots → l.pool.free = [] ∧ slot < l.blacklistFloor) →
      l.lastSlot ≤ slot + max l.maxAge completedRetentionSlots

instance (l : ShredListener C) (q : Request) : Decidable (InWindow l q) :=
  inferInstanceAs (Decidable (∀ raw ∈ l.incoming q, ∀ slot ∈ packetSlot l.enableFec raw,
    l.slotOutOfRange slot = false →
      (slot ∈ l.recentlySeenSlots → l.pool.free = [] ∧ slot < l.blacklistFloor) →
        l.lastSlot ≤ slot + max l.maxAge completedRetentionSlots))

/-- Live slots are neither ahead of `last_slot` nor too far behind it. -/
structure Windowed (l : ShredListener C) : Prop where
  le : ∀ s ∈ l.slots, s ≤ l.lastSlot
  ge : ∀ s ∈ l.slots, l.lastSlot ≤ s + max l.maxAge completedRetentionSlots

theorem retention_le (l : ShredListener C) (acc : SlotAccumulator) :
    l.retention acc ≤ max l.maxAge completedRetentionSlots := by
  unfold retention
  split_ifs
  · exact le_max_right _ _
  · exact le_max_left _ _

theorem Windowed.evicts {l l' : ShredListener C} {gone : List (ℕ × SlotAccumulator)}
    {queued : List TxBatch} (h : Windowed l) (he : Evicts l l' gone queued) : Windowed l' where
  le s hs := by
    rw [he.lastSlot]
    exact h.le s ((he.mem_slots s).mp hs).2
  ge s hs := by
    rw [he.lastSlot, he.maxAge]
    exact h.ge s ((he.mem_slots s).mp hs).2

/-- Accepting a packet of the window keeps the window. -/
theorem Windowed.accepts {l l₁ l' : ShredListener C} {slot : ℕ}
    {gone : List (ℕ × SlotAccumulator)} {queued : List TxBatch} {batch : Option TxBatch}
    (h : Windowed l) (ha : Accepts l l₁ l' slot gone queued batch)
    (hslot : l.lastSlot ≤ slot + max l.maxAge completedRetentionSlots) : Windowed l' := by
  have hlast : l'.lastSlot = max l.lastSlot slot := by rw [ha.stores.lastSlot, ha.evicts.lastSlot]
  have hage : l'.maxAge = l.maxAge := by rw [ha.stores.maxAge, ha.evicts.maxAge]
  have hmem : ∀ s ∈ l'.slots, s = slot ∨ s ∈ l₁.slots := by
    intro s hs
    by_cases heq : s = slot
    · exact .inl heq
    · rw [BTreeMap.mem_iff_getElem?, ha.stores.slots s heq] at hs
      exact .inr ((BTreeMap.mem_iff_getElem? _).mpr hs)
  refine ⟨fun s hs => ?_, fun s hs => ?_⟩
  · rw [hlast]
    rcases hmem s hs with rfl | hs
    · exact le_max_right _ _
    · exact le_max_of_le_left (h.le s ((ha.evicts.mem_slots s).mp hs).2)
  · rw [hlast, hage]
    rcases hmem s hs with rfl | hs
    · apply max_le hslot
      exact Nat.le_add_right _ _
    · have hlive := h.ge s ((ha.evicts.mem_slots s).mp hs).2
      by_cases hlt : l.lastSlot < slot
      · -- the eviction left what the new slot's window holds
        obtain ⟨acc, hacc⟩ := (BTreeMap.mem_iff_getElem? _).mp hs
        have hwin := ha.window hlt s acc hacc
        have hret := l.retention_le acc
        simp only [satAdd64] at hwin
        rw [max_eq_right (le_of_lt hlt)]
        omega
      · rw [max_eq_left (by omega)]
        exact hlive

theorem Windowed.request {l l' : ShredListener C} (h : Windowed l) {sur : Surroundings}
    {q : Request} {reply : Reply} (hq : InWindow l q)
    (hrun : l.request env sur fuel q = some (l', reply)) : Windowed l' := by
  cases request_outcome hrun with
  | popped _ _ _ _ _ hl' => exact hl' ▸ ⟨h.le, h.ge⟩
  | refused gone queued he => exact h.evicts he
  | accepted raw slot l₁ l₂ gone gone' queued queued' batch hraw hslot he hpool ha =>
    refine (h.evicts he).accepts ha ?_
    rw [he.lastSlot, he.maxAge]
    refine hq raw hraw slot hslot ?_ fun hseen => ?_
    · have := ha.inRange
      rw [slotOutOfRange, he.lastSlot] at this
      exact this
    · -- a slot the listener knew was forgotten by the fallback eviction
      refine ⟨?_, (he.seen slot (.inl hseen)).resolve_left ha.unseen⟩
      by_contra hfree
      have hsame := (hpool hfree).2
      exact ha.unseen (hsame ▸ hseen)

theorem Windowed.slotCount_le {l : ShredListener C} (h : Windowed l) :
    l.slotCount ≤ max l.maxAge completedRetentionSlots + 1 := by
  have hle := l.slots.countIn_le (l.lastSlot - max l.maxAge completedRetentionSlots) l.lastSlot
  have hall : l.slots.countIn (l.lastSlot - max l.maxAge completedRetentionSlots) l.lastSlot =
      l.slotCount := by
    unfold BTreeMap.countIn slotCount
    rw [← Std.ExtTreeMap.length_toList, List.filter_eq_self.mpr]
    rintro ⟨s, acc⟩ hs
    have hs : s ∈ l.slots :=
      (BTreeMap.mem_iff_getElem? _).mpr ⟨acc, (BTreeMap.mem_toList _).mp hs⟩
    have h1 := h.le s hs
    have h2 := h.ge s hs
    rw [decide_eq_true_eq]
    exact ⟨by simp only; omega, h1⟩
  omega

/-- Without accepted packets from behind the window, live slots stay in it. -/
theorem slots_stay_in_window (opts : ListenerOptions) {qs : List (Surroundings × Request)}
    {l : ShredListener C} {replies : List Reply}
    (hq : Throughout env fuel InWindow (fromSocket opts) qs)
    (hrun : runRequests env fuel (fromSocket opts) qs = some (l, replies)) :
    (∀ s ∈ l.slots, l.lastSlot ≤ s + max l.maxAge completedRetentionSlots) ∧
      l.slotCount ≤ max l.maxAge completedRetentionSlots + 1 := by
  have hstart : Windowed (fromSocket opts : ShredListener C) :=
    ⟨fun s hs => by simp [fromSocket] at hs, fun s hs => by simp [fromSocket] at hs⟩
  have h := runRequests_invariant (fun _ l => Windowed l) InWindow
    (fun _ _ _ _ _ _ hl hq hrun => hl.request hq hrun) qs [] _ _ _ hstart hq hrun
  exact ⟨h.ge, h.slotCount_le⟩

/-- Packets for slot 5 and, late, for slot 2. -/
theorem slots_stay_in_window_late :
    ∃ (l : ShredListener Unit) (replies : List Reply),
      runRequests legacyEnv (2 ^ 32 + 1) (fromSocket {})
        [(quiet, .handlePacket (legacyPacket 5 0 0 [])),
          (quiet, .handlePacket (legacyPacket 2 0 0 []))] = some (l, replies) ∧
      (∀ s ∈ l.slots, l.lastSlot ≤ s + max l.maxAge completedRetentionSlots) ∧
      l.slotCount ≤ max l.maxAge completedRetentionSlots + 1 := by
  obtain ⟨⟨l, replies⟩, hrun⟩ : ∃ r, runRequests legacyEnv (2 ^ 32 + 1)
      (fromSocket {} : ShredListener Unit) [(quiet, .handlePacket (legacyPacket 5 0 0 [])),
        (quiet, .handlePacket (legacyPacket 2 0 0 []))] = some r :=
    Option.isSome_iff_exists.mp (by decide +kernel)
  exact ⟨l, replies, hrun, slots_stay_in_window {} (by decide +kernel) hrun⟩

/-- Slot 1 is accepted 99 slots late. -/
theorem late_slot_kept :
    ¬∀ (opts : ListenerOptions) (qs : List (Surroundings × Request)) (l : ShredListener Unit)
      (replies : List Reply),
      runRequests legacyEnv (2 ^ 32 + 1) (fromSocket opts) qs = some (l, replies) →
        ∀ s ∈ l.slots, l.lastSlot ≤ s + max l.maxAge completedRetentionSlots := by
  intro h
  have hstate : (runRequests legacyEnv (2 ^ 32 + 1) (fromSocket {} : ShredListener Unit)
      [(quiet, .handlePacket (legacyPacket 100 0 0 [])),
        (quiet, .handlePacket (legacyPacket 1 0 0 []))]).map
      (fun r => (r.1.lastSlot, r.1.maxAge, decide (1 ∈ r.1.slots))) = some (100, 3, true) := by
    decide +kernel
  obtain ⟨⟨l, replies⟩, hrun, hl⟩ := Option.map_eq_some_iff.mp hstate
  simp only [Prod.mk.injEq, decide_eq_true_eq] at hl
  have := h {} _ l replies hrun 1 hl.2.2
  rw [hl.1, hl.2.1] at this
  revert this
  decide

/-! ## Retired slots -/

/-- The packet of the call is not for a slot behind the floor that was retired
    and forgotten, or that the fallback eviction is about to retire and forget. -/
def NotForgotten (l : ShredListener C) (q : Request) : Prop :=
  ∀ raw ∈ l.incoming q, ∀ slot ∈ packetSlot l.enableFec raw, slot < l.blacklistFloor →
    (slot ∈ l.retired.map Prod.fst → slot ∈ l.recentlySeenSlots ∧ l.pool.free ≠ []) ∧
      (slot ∈ l.slots → l.pool.free ≠ [])

instance (l : ShredListener C) (q : Request) : Decidable (NotForgotten l q) :=
  inferInstanceAs (Decidable (∀ raw ∈ l.incoming q, ∀ slot ∈ packetSlot l.enableFec raw,
    slot < l.blacklistFloor →
      (slot ∈ l.retired.map Prod.fst → slot ∈ l.recentlySeenSlots ∧ l.pool.free ≠ []) ∧
        (slot ∈ l.slots → l.pool.free ≠ [])))

/-- Retired slots are not live, and known unless they are behind the floor; each
    is retired once, and queued at most one of the batches that were `popped` or
    still wait. -/
structure Remembers (popped : List TxBatch) (l : ShredListener C) : Prop where
  dead : ∀ s ∈ l.retired.map Prod.fst, s ∉ l.slots
  known : ∀ s ∈ l.retired.map Prod.fst, s ∈ l.recentlySeenSlots ∨ s < l.blacklistFloor
  nodup : (l.retired.map Prod.fst).Nodup
  queue : ((popped ++ l.pendingBatches).map Prod.fst).Sublist (l.retired.map Prod.fst)

namespace Remembers

variable {l l₁ l' : ShredListener C} {popped : List TxBatch} {slot : ℕ}
  {gone : List (ℕ × SlotAccumulator)} {queued : List TxBatch} {batch : Option TxBatch}

theorem evicts (h : Remembers popped l) (he : Evicts l l' gone queued) : Remembers popped l' where
  dead s hs hlive := by
    rw [he.retired, List.map_append, List.mem_append] at hs
    obtain ⟨hgone, hlive⟩ := (he.mem_slots s).mp hlive
    exact hs.elim (fun hs => h.dead s hs hlive) hgone
  known s hs := by
    rw [he.retired, List.map_append, List.mem_append] at hs
    rw [he.floor]
    rcases hs with hs | hs
    · rcases h.known s hs with hs | hs
      · exact he.seen s (.inl hs)
      · exact .inr hs
    · exact he.seen s (.inr hs)
  nodup := by
    rw [he.retired, List.map_append, List.nodup_append]
    refine ⟨h.nodup, he.nodup, fun s hs s' hs' => ?_⟩
    rintro rfl
    exact h.dead s hs (he.live s hs')
  queue := by
    have := h.queue.append he.queued
    rwa [← List.map_append, ← List.map_append, List.append_assoc, ← he.pending,
      ← he.retired] at this

/-- The floor rises with `last_slot`. -/
theorem advance (h : Remembers popped l) (slot : ℕ) :
    Remembers popped { l with lastSlot := max l.lastSlot slot } :=
  { h with
    known := fun s hs => by
      rcases h.known s hs with hs | hs
      · exact .inl hs
      · apply Or.inr
        unfold blacklistFloor at hs ⊢
        simp only
        have := le_max_left l.lastSlot slot
        omega }

theorem stores (h : Remembers popped l) (hs : Stores l l' slot)
    (hslot : slot ∉ l.retired.map Prod.fst) : Remembers popped l' where
  dead s hs' hlive := by
    rw [hs.retired] at hs'
    have hne : s ≠ slot := by
      rintro rfl
      exact hslot hs'
    rw [BTreeMap.mem_iff_getElem?, hs.slots s hne, ← BTreeMap.mem_iff_getElem?] at hlive
    exact h.dead s hs' hlive
  known s hs' := by
    rw [hs.retired] at hs'
    rw [hs.seen, blacklistFloor, hs.lastSlot, hs.maxAge]
    exact h.known s hs'
  nodup := by rw [hs.retired]; exact h.nodup
  queue := by rw [hs.retired, hs.pending]; exact h.queue

theorem accepts (h : Remembers popped l) (ha : Accepts l l₁ l' slot gone queued batch)
    (hslot : slot ∉ l.retired.map Prod.fst) : Remembers popped l' := by
  refine ((h.advance slot).evicts ha.evicts).stores ha.stores ?_
  rw [ha.evicts.retired, List.map_append, List.mem_append, not_or]
  exact ⟨hslot, ha.others⟩

/-- An accepted packet is for a slot that was never retired. -/
theorem not_retired_of_accepts {q : Request} (h : Remembers popped l) (hq : NotForgotten l q)
    {raw : Bytes} (hraw : raw ∈ l.incoming q) (hslot : packetSlot l.enableFec raw = some slot)
    (he : Evicts l l₁ gone queued)
    (hpool : l.pool.free ≠ [] → gone = [] ∧ l₁.recentlySeenSlots = l.recentlySeenSlots)
    (hunseen : slot ∉ l₁.recentlySeenSlots) : slot ∉ l₁.retired.map Prod.fst := by
  intro hret
  have hlow := ((h.evicts he).known slot hret).resolve_left hunseen
  rw [he.floor] at hlow
  obtain ⟨hold, hlive⟩ := hq raw hraw slot hslot hlow
  rw [he.retired, List.map_append, List.mem_append] at hret
  rcases hret with hret | hret
  · obtain ⟨hseen, hfree⟩ := hold hret
    rw [(hpool hfree).2] at hunseen
    exact hunseen hseen
  · have hfree := hlive (he.live slot hret)
    rw [(hpool hfree).1] at hret
    simp at hret

theorem request {sur : Surroundings} {q : Request} {reply : Reply} (h : Remembers popped l)
    (hq : NotForgotten l q) (hrun : l.request env sur fuel q = some (l', reply)) :
    Remembers (popped ++ reply.fromQueue.toList) l' := by
  cases request_outcome hrun with
  | popped datagram batch rest hrecv hpend hl' hreply =>
    rw [hl', hreply]
    refine { h with queue := ?_ }
    have := h.queue
    rwa [hpend, List.append_cons] at this
  | refused gone queued he hnone =>
    have : reply.fromQueue = none := by
      cases reply <;> first | rfl | cases hnone
    rw [this, Option.toList_none, List.append_nil]
    exact h.evicts he
  | accepted raw slot l₁ l₂ gone gone' queued queued' batch hraw hslot he hpool ha hreply =>
    rw [hreply]
    show Remembers (popped ++ []) l'
    rw [List.append_nil]
    exact (h.evicts he).accepts ha (h.not_retired_of_accepts hq hraw hslot he hpool ha.unseen)

end Remembers

/-- What is returned for a retired slot `s`, and what waits for it: `queued` is
    what its eviction queued. -/
structure Buried (s : ℕ) (queued : List TxBatch) (replies : List Reply) (l : ShredListener C) :
    Prop where
  retired : s ∈ l.retired.map Prod.fst
  queue : (replies.filterMap Reply.batch ++ l.pendingBatches).filter (·.1 = s) = queued

namespace Buried

variable {l l' : ShredListener C} {s : ℕ} {waiting : List TxBatch} {replies : List Reply}
  {popped : List TxBatch}

theorem evicts {gone : List (ℕ × SlotAccumulator)} {queued : List TxBatch}
    (h : Buried s waiting replies l) (hl : Remembers popped l) (he : Evicts l l' gone queued) :
    Buried s waiting replies l' where
  retired := by
    rw [he.retired, List.map_append]
    exact List.mem_append_left _ h.retired
  queue := by
    -- a slot that is retired already queues nothing
    have hnone : queued.filter (·.1 = s) = [] := by
      rw [List.filter_eq_nil_iff]
      intro b hb heq
      rw [decide_eq_true_eq] at heq
      have hgone := he.queued.subset (List.mem_map_of_mem hb)
      rw [heq] at hgone
      exact hl.dead s h.retired (he.live s hgone)
    rw [he.pending, ← List.append_assoc, List.filter_append, hnone, List.append_nil]
    exact h.queue

theorem request {sur : Surroundings} {q : Request} {reply : Reply}
    (h : Buried s waiting replies l) (hl : Remembers popped l) (hq : NotForgotten l q)
    (hrun : l.request env sur fuel q = some (l', reply)) :
    Buried s waiting (replies ++ [reply]) l' := by
  have hbatches : (replies ++ [reply]).filterMap Reply.batch =
      replies.filterMap Reply.batch ++ reply.batch.toList := by
    rw [List.filterMap_append]
    cases hb : reply.batch <;> simp [hb]
  cases request_outcome hrun with
  | popped datagram batch rest hrecv hpend hl' hreply =>
    rw [hl']
    refine ⟨h.retired, ?_⟩
    have := h.queue
    rw [hpend, List.append_cons] at this
    rw [hbatches, hreply]
    exact this
  | refused gone queued he hnone =>
    have he' := h.evicts hl he
    refine ⟨he'.retired, ?_⟩
    rw [hbatches, hnone, Option.toList_none, List.append_nil]
    exact he'.queue
  | accepted raw slot l₁ l₂ gone gone' queued queued' batch hraw hslot he hpool ha hreply =>
    have hret := hl.not_retired_of_accepts hq hraw hslot he hpool ha.unseen
    have he' := h.evicts hl he
    have hadv : Buried s waiting replies { l₁ with lastSlot := max l₁.lastSlot slot } :=
      ⟨he'.retired, he'.queue⟩
    have he'' := hadv.evicts ((hl.evicts he).advance slot) ha.evicts
    have hne : s ≠ slot := by
      rintro rfl
      exact hret he'.retired
    refine ⟨by rw [ha.stores.retired]; exact he''.retired, ?_⟩
    -- what the packet completed belongs to its own slot
    have hown : batch.toList.filter (·.1 = s) = [] := by
      rw [List.filter_eq_nil_iff]
      intro b hb heq
      rw [decide_eq_true_eq] at heq
      exact hne (heq.symm.trans (ha.own b (Option.mem_toList.mp hb)))
    rw [hbatches, hreply, ha.stores.pending, List.append_assoc, List.filter_append,
      List.filter_append]
    show _ ++ (batch.toList.filter _ ++ _) = _
    rw [hown, List.nil_append, ← List.filter_append]
    exact he''.queue

end Buried

/-- Without packets for forgotten slots, a retired slot is never live again, and
    what later calls return of it, with what still waits, is the batch its
    eviction queued, if it queued one. -/
theorem retired_stays_retired (opts : ListenerOptions) {qs qs' : List (Surroundings × Request)}
    {l l' : ShredListener C} {replies replies' : List Reply}
    (hq : Throughout env fuel NotForgotten (fromSocket opts) qs)
    (hrun : runRequests env fuel (fromSocket opts) qs = some (l, replies))
    (hq' : Throughout env fuel NotForgotten l qs')
    (hrun' : runRequests env fuel l qs' = some (l', replies')) :
    ∀ s ∈ l.retired.map Prod.fst, s ∉ l'.slots ∧
      (replies'.filterMap Reply.batch ++ l'.pendingBatches).filter (·.1 = s) =
        l.pendingBatches.filter (·.1 = s) ∧
      (l.pendingBatches.filter (·.1 = s)).length ≤ 1 := by
  intro s hs
  have hstart : Remembers [] (fromSocket opts : ShredListener C) :=
    ⟨fun s hs => by simp [fromSocket] at hs, fun s hs => by simp [fromSocket] at hs,
      List.nodup_nil, List.Sublist.refl _⟩
  have hstep : ∀ pre sur (l : ShredListener C) q l' reply,
      Remembers (pre.filterMap Reply.fromQueue) l → NotForgotten l q →
        l.request env sur fuel q = some (l', reply) →
          Remembers ((pre ++ [reply]).filterMap Reply.fromQueue) l' := by
    intro pre sur l q l' reply hl hq hrun
    have := hl.request hq hrun
    rw [List.filterMap_append]
    cases hb : reply.fromQueue <;> simpa [hb] using this
  have hl := runRequests_invariant (fun replies l => Remembers (replies.filterMap Reply.fromQueue) l)
    NotForgotten hstep qs [] _ _ _ hstart hq hrun
  have hl' := runRequests_invariant
    (fun later l' => Remembers ((replies ++ later).filterMap Reply.fromQueue) l' ∧
      Buried s (l.pendingBatches.filter (·.1 = s)) later l') NotForgotten
    (fun pre sur l q l' reply hl hq hrun => by
      refine ⟨?_, hl.2.request hl.1 hq hrun⟩
      rw [← List.append_assoc]
      exact hstep _ sur l q l' reply hl.1 hq hrun)
    qs' [] l l' replies' ⟨by simpa using hl, hs, by simp⟩ hq' hrun'
  refine ⟨hl'.1.dead s hl'.2.retired, hl'.2.queue, ?_⟩
  -- the queue holds at most one batch of each slot
  have hnodup : (l.pendingBatches.map Prod.fst).Nodup := by
    refine (List.Sublist.trans ?_ hl.queue).nodup hl.nodup
    rw [List.map_append]
    exact List.sublist_append_right _ _
  rw [← List.countP_eq_length_filter]
  have := List.nodup_iff_count_le_one.mp hnodup s
  rw [List.count_eq_countP, List.countP_map] at this
  convert this using 2
  funext b
  show decide (b.1 = s) = (b.1 == s)
  rw [beq_eq_decide]

/-- A packet with one transaction of slot `slot`. -/
def txPacket (slot : ℕ) : Bytes :=
  legacyPacket slot 0 0 (LegacyWire.encodeBatch [[LegacyWire.signedTx 1 []]])

/-- Slot 10 retires slot 1, whose packet is then replayed. -/
theorem retired_stays_retired_replay :
    ∃ (l l' : ShredListener Unit) (replies replies' : List Reply),
      runRequests legacyEnv (2 ^ 32 + 1) (fromSocket {})
        [(quiet, .handlePacket (txPacket 1)), (quiet, .handlePacket (txPacket 10))] =
          some (l, replies) ∧
      runRequests legacyEnv (2 ^ 32 + 1) l [(quiet, .handlePacket (txPacket 1))] =
        some (l', replies') ∧
      ∀ s ∈ l.retired.map Prod.fst, s ∉ l'.slots ∧
        (replies'.filterMap Reply.batch ++ l'.pendingBatches).filter (·.1 = s) =
          l.pendingBatches.filter (·.1 = s) ∧
        (l.pendingBatches.filter (·.1 = s)).length ≤ 1 := by
  have hrun : ∃ r, runRequests legacyEnv (2 ^ 32 + 1) (fromSocket {} : ShredListener Unit)
      [(quiet, .handlePacket (txPacket 1)), (quiet, .handlePacket (txPacket 10))] = some r :=
    Option.isSome_iff_exists.mp (by decide +kernel)
  have hnext : ∀ r ∈ runRequests legacyEnv (2 ^ 32 + 1) (fromSocket {} : ShredListener Unit)
      [(quiet, .handlePacket (txPacket 1)), (quiet, .handlePacket (txPacket 10))],
      Throughout legacyEnv (2 ^ 32 + 1) NotForgotten r.1
          [(quiet, .handlePacket (txPacket 1))] ∧
        (runRequests legacyEnv (2 ^ 32 + 1) r.1
          [(quiet, .handlePacket (txPacket 1))]).isSome := by
    decide +kernel
  obtain ⟨⟨l, replies⟩, hrun⟩ := hrun
  obtain ⟨hq', hsome⟩ := hnext _ hrun
  obtain ⟨⟨l', replies'⟩, hrun'⟩ := Option.isSome_iff_exists.mp hsome
  exact ⟨l, l', replies, replies', hrun, hrun',
    retired_stays_retired {} (by decide +kernel) hrun hq' hrun'⟩

/-- Slot 100 retires slot 1 and has it forgotten; its packet then delivers the
    transaction a second time. -/
theorem retired_slot_returns :
    ¬∀ (opts : ListenerOptions) (qs qs' : List (Surroundings × Request))
      (l l' : ShredListener Unit) (replies replies' : List Reply),
      runRequests legacyEnv (2 ^ 32 + 1) (fromSocket opts) qs = some (l, replies) →
      runRequests legacyEnv (2 ^ 32 + 1) l qs' = some (l', replies') →
        ∀ s ∈ l.retired.map Prod.fst, s ∉ l'.slots ∧
          ∀ b ∈ replies'.filterMap Reply.batch, b.1 = s → b ∈ l.pendingBatches := by
  intro h
  have hstate : (runRequests legacyEnv (2 ^ 32 + 1) (fromSocket {} : ShredListener Unit)
      [(quiet, .handlePacket (txPacket 1)), (quiet, .handlePacket (txPacket 100))]).bind
      (fun r => (runRequests legacyEnv (2 ^ 32 + 1) r.1 [(quiet, .handlePacket (txPacket 1))]).map
        fun r' => (r.1.retired.map Prod.fst, r.1.pendingBatches.length,
          r'.2.filterMap Reply.batch)) = some ([1], 0, [(1, [LegacyWire.signedTx 1 []])]) := by
    decide +kernel
  obtain ⟨⟨l, replies⟩, hrun, hstate⟩ := Option.bind_eq_some_iff.mp hstate
  obtain ⟨⟨l', replies'⟩, hrun', hstate⟩ := Option.map_eq_some_iff.mp hstate
  simp only [Prod.mk.injEq, List.length_eq_zero_iff] at hstate
  obtain ⟨hret, hpend, hreplies⟩ := hstate
  obtain ⟨-, hback⟩ := h {} _ _ l l' replies replies' hrun hrun' 1 (by rw [hret]; decide)
  have := hback _ (by rw [hreplies]; exact List.mem_singleton_self _) rfl
  rw [hpend] at this
  cases this

end ShredStream.ShredListener
