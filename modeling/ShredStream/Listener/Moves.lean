import ShredStream.Accumulator.Steps
import ShredStream.Listener.Outcome

/-!
# The moves of the listener

Whatever the listener does with its accumulators and its pool, it does by the
moves of `Move`, on the listener and the buffers it has in hand, and by handing
a packet to the accumulator of its slot. `request_moves` takes every call that
returns apart into these, so an invariant of the moves and of that one call on an
accumulator is an invariant of all runs (`runRequests_moves`).
-/

namespace ShredStream

open Relation SlotAccumulator

/-- The call on an accumulator that a packet leads to, and its slot. -/
def packetCall (handle : BufferHandle) : Option (ℕ × Call) :=
  match parseKind handle.bytes with
  | .ok (.data d) => some (d.slot, .data (d.args handle))
  | .ok (.code c) => some (c.slot, .code c.args)
  | .error _ => none

/-- The buffers still in hand after a call that was given the buffer `idx`. -/
def SlotAccumulator.Call.unstored (idx : ℕ) : Call → List ℕ
  | .data _ => []
  | _ => [idx]

theorem made_of_packetCall {handle : BufferHandle} {slot : ℕ} {c : Call}
    (h : packetCall handle = some (slot, c)) (hlen : handle.bytes.length ≤ bufSize) :
    c.Made slot := by
  unfold packetCall at h
  split at h
  · rename_i d hparse
    cases h
    exact .data hparse hlen rfl
  · rename_i c hparse
    cases h
    exact .code hparse hlen rfl
  · cases h

namespace ShredListener

variable {C : Type} {env : Env C} {clock : Clock} {fuel : ℕ}

/-- Nothing happened to the accumulators, the pool, the cache and the totals. -/
structure SameStore (l l' : ShredListener C) : Prop where
  slots : l'.slots = l.slots
  pool : l'.pool = l.pool
  rsCache : l'.rsCache = l.rsCache
  totals : l'.totals = l.totals
  retired : l'.retired = l.retired
  cfg : l'.accumulatorCfg = l.accumulatorCfg

/-- The moves, on the listener and the buffers in hand. -/
inductive Move (env : Env C) (clock : Clock) (fuel : ℕ) :
    ShredListener C × List ℕ → ShredListener C × List ℕ → Prop
  | keep {l l' : ShredListener C} {hand : List ℕ} :
      SameStore l l' → Move env clock fuel (l, hand) (l', hand)
  | retire {l l' : ShredListener C} {hand : List ℕ} {s : ℕ} :
      l.retireSlot env clock fuel s = some l' → Move env clock fuel (l, hand) (l', hand)
  | acquire {l : ShredListener C} {hand : List ℕ} {idx : ℕ} {pool : ShredPool} :
      l.pool.acquire = some (idx, pool) →
      Move env clock fuel (l, hand) ({ l with pool }, idx :: hand)
  | free {l : ShredListener C} {hand : List ℕ} {idx : ℕ} :
      Move env clock fuel (l, idx :: hand) (l.freeBuffer idx, hand)

/-- Any number of moves. -/
abbrev Moves (env : Env C) (clock : Clock) (fuel : ℕ) :
    ShredListener C × List ℕ → ShredListener C × List ℕ → Prop :=
  ReflTransGen (Move env clock fuel)

theorem Moves.invariant {I : ShredListener C × List ℕ → Prop}
    (hmove : ∀ m m', I m → Move env clock fuel m m' → I m')
    {m m' : ShredListener C × List ℕ} (h : Moves env clock fuel m m') (hm : I m) : I m' := by
  induction h with
  | refl => exact hm
  | tail _ h ih => exact hmove _ _ ih h

/-! ## Evictions -/

variable {l l' : ShredListener C} {hand : List ℕ}

/-- Retiring slot `s`, whose accumulator the harvest left as `r`. -/
structure Retires (l : ShredListener C) (s : ℕ) (r : CallState C) (l' : ShredListener C) :
    Prop where
  slots : l'.slots = l.slots.erase s
  rsCache : l'.rsCache = r.cache
  pool : l'.pool = l.pool.release
    (r.acc.dropped ++ r.acc.pending.toList.filterMap (·.2.source.bufferIdx))
  totals : l'.totals = rollup l.totals r.acc.counters
  retired : l'.retired = l.retired ++ [(s, r.acc)]
  cfg : l'.accumulatorCfg = l.accumulatorCfg

theorem retireSlot_cases {s : ℕ} (h : l.retireSlot env clock fuel s = some l') :
    l' = l ∨ ∃ acc r, l.slots[s]? = some acc ∧
      acc.tryHarvestTail env clock fuel l.rsCache = some r ∧ l.Retires s r l' := by
  unfold retireSlot at h
  split at h
  · cases h
    exact .inl rfl
  · rename_i acc hacc
    obtain ⟨r, hr, h⟩ := Option.bind_eq_some_iff.mp h
    cases h
    exact .inr ⟨acc, r, hacc, hr, rfl, rfl, rfl, rfl, rfl, rfl⟩

theorem retireSlots_moves {ss : List ℕ} (h : retireSlots env clock fuel l ss = some l') :
    Moves env clock fuel (l, hand) (l', hand) := by
  induction ss generalizing l with
  | nil =>
    cases h
    exact .refl
  | cons s ss ih =>
    obtain ⟨l₁, h₁, h₂⟩ := Option.bind_eq_some_iff.mp h
    exact .head (.retire h₁) (ih h₂)

theorem evictOldSlots_moves {sur : Surroundings} (h : l.evictOldSlots env sur fuel = some l') :
    Moves env sur.clock fuel (l, hand) (l', hand) := by
  obtain ⟨l₁, h₁, h₂⟩ := Option.bind_eq_some_iff.mp h
  cases h₂
  exact (retireSlots_moves h₁).tail (.keep ⟨rfl, rfl, rfl, rfl, rfl, rfl⟩)

theorem forceEvictOldestSlot_moves {sur : Surroundings}
    (h : l.forceEvictOldestSlot env sur fuel = some l') :
    Moves env sur.clock fuel (l, hand) (l', hand) := by
  unfold forceEvictOldestSlot at h
  split at h
  · cases h
    exact .refl
  · exact .single (.retire h)

theorem acquire_moves {sur : Surroundings} {buffer : Option ℕ}
    (h : l.acquireBufferWithFallback env sur fuel = some (l', buffer)) :
    Moves env sur.clock fuel (l, []) (l', buffer.toList) := by
  unfold acquireBufferWithFallback at h
  split at h
  · rename_i idx pool hfree
    cases h
    exact .single (.acquire hfree)
  · obtain ⟨l₁, h₁, h⟩ := Option.bind_eq_some_iff.mp h
    refine (evictOldSlots_moves h₁).trans ?_
    split at h
    · rename_i idx pool hfree
      cases h
      exact .single (.acquire hfree)
    · obtain ⟨l₂, h₂, h⟩ := Option.bind_eq_some_iff.mp h
      refine (forceEvictOldestSlot_moves h₂).trans ?_
      split at h
      · rename_i idx pool hfree
        cases h
        exact .single (.acquire hfree)
      · cases h
        exact .refl

theorem advanceSlot_moves {sur : Surroundings} {slot : ℕ}
    (h : l.advanceSlot env sur fuel slot = some l') :
    Moves env sur.clock fuel (l, hand) (l', hand) := by
  unfold advanceSlot at h
  split_ifs at h
  · refine .head (.keep ?_) (evictOldSlots_moves h)
    exact ⟨rfl, rfl, rfl, rfl, rfl, rfl⟩
  · cases h
    exact .refl

/-! ## The accumulator a packet meets -/

theorem retireSlot_entry {s : ℕ} (h : l.retireSlot env clock fuel s = some l') (s' : ℕ) :
    l'.accumulatorCfg = l.accumulatorCfg ∧ (l'.slotEntry s' = l.slotEntry s' ∨
      s' = s ∧ l'.slotEntry s' = withConfig l.accumulatorCfg) := by
  rcases retireSlot_cases h with rfl | ⟨acc, r, -, -, hl'⟩
  · exact ⟨rfl, .inl rfl⟩
  · refine ⟨hl'.cfg, ?_⟩
    unfold slotEntry
    rw [hl'.slots, hl'.cfg, BTreeMap.getElem?_erase_eq]
    split_ifs with hs
    · exact .inr ⟨hs.symm, rfl⟩
    · exact .inl rfl

/-- Moves leave the accumulator of a slot alone, or take it away. -/
theorem Moves.entry {m m' : ShredListener C × List ℕ} (h : Moves env clock fuel m m') (s : ℕ) :
    m'.1.accumulatorCfg = m.1.accumulatorCfg ∧ (m'.1.slotEntry s = m.1.slotEntry s ∨
      m'.1.slotEntry s = withConfig m.1.accumulatorCfg) := by
  refine Moves.invariant (I := fun m' : ShredListener C × List ℕ =>
    m'.1.accumulatorCfg = m.1.accumulatorCfg ∧ (m'.1.slotEntry s = m.1.slotEntry s ∨
      m'.1.slotEntry s = withConfig m.1.accumulatorCfg)) ?_ h ⟨rfl, .inl rfl⟩
  rintro m₁ m₂ ⟨hcfg, hentry⟩ hmove
  cases hmove with
  | keep hsame =>
    unfold slotEntry at hentry ⊢
    rw [hsame.slots, hsame.cfg]
    exact ⟨hcfg, hentry⟩
  | retire hretire =>
    obtain ⟨hcfg', hkeep | ⟨-, hfresh⟩⟩ := retireSlot_entry hretire s
    · exact ⟨hcfg'.trans hcfg, by rw [hkeep]; exact hentry⟩
    · exact ⟨hcfg'.trans hcfg, .inr (by rw [hfresh]; exact congrArg withConfig hcfg)⟩
  | acquire => exact ⟨hcfg, hentry⟩
  | free => exact ⟨hcfg, hentry⟩

theorem acquire_entry {sur : Surroundings} {buffer : Option ℕ}
    (h : l.acquireBufferWithFallback env sur fuel = some (l', buffer)) (s : ℕ) :
    l'.slotEntry s = l.slotEntry s ∨
      (l.pool.free = [] ∧ l'.slotEntry s = withConfig l.accumulatorCfg) := by
  have hmoves := acquire_moves h
  unfold acquireBufferWithFallback at h
  split at h
  · cases h
    exact .inl rfl
  · rename_i hnone
    have hfree : l.pool.free = [] := by
      unfold ShredPool.acquire at hnone
      split at hnone
      · assumption
      · cases hnone
    rcases (hmoves.entry s).2 with hkeep | hfresh
    · exact .inl hkeep
    · exact .inr ⟨hfree, hfresh⟩

theorem retireSlots_entry {ss : List ℕ} (h : retireSlots env clock fuel l ss = some l') {s : ℕ}
    (hs : s ∉ ss) : l'.slotEntry s = l.slotEntry s := by
  induction ss generalizing l with
  | nil =>
    cases h
    rfl
  | cons s' ss ih =>
    rw [List.mem_cons, not_or] at hs
    obtain ⟨l₁, h₁, h₂⟩ := Option.bind_eq_some_iff.mp h
    obtain ⟨-, hkeep | ⟨heq, -⟩⟩ := retireSlot_entry h₁ s
    · exact (ih h₂ hs.2).trans hkeep
    · exact absurd heq hs.1

/-- A slot does not evict itself. -/
theorem advanceSlot_entry {sur : Surroundings} {slot : ℕ}
    (h : l.advanceSlot env sur fuel slot = some l') (hslot : slot ≤ u64Max) :
    l'.slotEntry slot = l.slotEntry slot := by
  unfold advanceSlot at h
  split_ifs at h
  · obtain ⟨l₁, h₁, h₂⟩ := Option.bind_eq_some_iff.mp h
    cases h₂
    refine retireSlots_entry h₁ fun hmem => ?_
    obtain ⟨⟨s, acc⟩, he, rfl⟩ := List.mem_map.mp ((sur.hashOrder_perm _).mem_iff.mp hmem)
    have hlate : satAdd64 s _ < s := of_decide_eq_true (List.mem_filter.mp he).2
    unfold satAdd64 at hlate
    simp only at hslot
    omega
  · cases h
    rfl

/-! ## Packets -/

/-- A packet that reaches an accumulator: the listener moves, hands it over, and
    frees what buffer is left in hand. -/
structure Hands (env : Env C) (sur : Surroundings) (fuel : ℕ) (m : ShredListener C × List ℕ)
    (handle : BufferHandle) (l' : ShredListener C) (l₁ : ShredListener C) (slot : ℕ) (c : Call)
    (r : CallState C) : Prop where
  packet : packetCall handle = some (slot, c)
  accepted : packetSlot m.1.enableFec handle.bytes = some slot
  inRange : m.1.slotOutOfRange slot = false
  unseen : slot ∉ m.1.recentlySeenSlots
  moves : Moves env sur.clock fuel m (l₁, [handle.idx])
  entry : l₁.slotEntry slot = m.1.slotEntry slot
  call : (l₁.slotEntry slot).call env sur.clock fuel l₁.rsCache c = some r
  rest : Moves env sur.clock fuel ((l₁.finishCall slot r).1, c.unstored handle.idx) (l', [])

theorem handlePacketOwned_moves {sur : Surroundings} {handle : BufferHandle} {out : Option TxBatch}
    (h : l.handlePacketOwned env sur fuel handle = some (l', out)) :
    Moves env sur.clock fuel (l, [handle.idx]) (l', []) ∨
      ∃ l₁ slot c r, Hands env sur fuel (l, [handle.idx]) handle l' l₁ slot c r := by
  have hrefuse {l₀ l₁ : ShredListener C} (h₀ : SameStore l₀ l₁) :
      Moves env sur.clock fuel (l₀, [handle.idx]) (l₁.freeBuffer handle.idx, []) :=
    .head (.keep h₀) (.single .free)
  unfold handlePacketOwned at h
  simp only at h
  split at h
  · cases h
    exact .inl (hrefuse ⟨rfl, rfl, rfl, rfl, rfl, rfl⟩)
  · rename_i d hparse
    unfold handleData at h
    split_ifs at h with hrange hseen
    · cases h
      exact .inl (hrefuse ⟨rfl, rfl, rfl, rfl, rfl, rfl⟩)
    · cases h
      exact .inl (hrefuse ⟨rfl, rfl, rfl, rfl, rfl, rfl⟩)
    · obtain ⟨l₁, h₁, h⟩ := Option.bind_eq_some_iff.mp h
      obtain ⟨r, hr, h⟩ := Option.bind_eq_some_iff.mp h
      cases h
      have hrange' := (Bool.not_eq_true _).mp hrange
      have hentry := advanceSlot_entry h₁ (slot_le_of_inRange hrange')
      refine .inr ⟨l₁, d.slot, .data (d.args handle), r, ?_, ?_, hrange', hseen,
        .head (.keep ?_) (advanceSlot_moves h₁), hentry, hr, .refl⟩
      · unfold packetCall
        rw [hparse]
      · unfold packetSlot
        rw [hparse]
      · exact ⟨rfl, rfl, rfl, rfl, rfl, rfl⟩
  · rename_i c hparse
    unfold handleCode at h
    simp only at h
    split_ifs at h with hrange hseen hfec
    · cases h
      exact .inl (hrefuse ⟨rfl, rfl, rfl, rfl, rfl, rfl⟩)
    · cases h
      exact .inl (hrefuse ⟨rfl, rfl, rfl, rfl, rfl, rfl⟩)
    · cases h
      exact .inl (hrefuse ⟨rfl, rfl, rfl, rfl, rfl, rfl⟩)
    · obtain ⟨l₁, h₁, h⟩ := Option.bind_eq_some_iff.mp h
      obtain ⟨r, hr, h⟩ := Option.bind_eq_some_iff.mp h
      cases h
      have hrange' := (Bool.not_eq_true _).mp hrange
      have hentry := advanceSlot_entry h₁ (slot_le_of_inRange hrange')
      refine .inr ⟨l₁, c.slot, .code c.args, r, ?_, ?_, hrange', hseen,
        .head (.keep ?_) (advanceSlot_moves h₁), hentry, hr, .single .free⟩
      · unfold packetCall
        rw [hparse]
      · have hon : l.enableFec = true := by simpa using hfec
        unfold packetSlot
        rw [hparse]
        exact if_pos hon
      · exact ⟨rfl, rfl, rfl, rfl, rfl, rfl⟩

theorem length_of_incoming {q : Request} {raw : Bytes} (h : raw ∈ l.incoming q) :
    raw.length ≤ bufSize := by
  have hpacket : raw ∈ q.packet := by
    cases q with
    | handlePacket => exact h
    | recvOne datagram =>
      unfold incoming at h
      by_cases hpend : l.pendingBatches = []
      · simpa only [if_pos hpend] using h
      · simp only [if_neg hpend] at h
        cases h
  cases q with
  | handlePacket bytes =>
    cases hpacket
    exact List.length_take_le _ _
  | recvOne datagram =>
    cases datagram with
    | error kind => cases hpacket
    | ok bytes =>
      cases hpacket
      exact List.length_take_le _ _

/-- The listener in the state `l` may, in the call `q`, make the call `c` on `acc`
    for the slot. That is the accumulator of the slot, or a fresh one: when the pool
    is exhausted, the eviction that follows may take the slot away. -/
structure MayHand (l : ShredListener C) (q : Request) (slot : ℕ) (c : Call)
    (acc : SlotAccumulator) : Prop where
  packet : ∃ raw ∈ l.incoming q, packetSlot l.enableFec raw = some slot ∧
    ∃ idx, packetCall ⟨idx, raw⟩ = some (slot, c)
  inRange : l.slotOutOfRange slot = false
  unseen : slot ∈ l.recentlySeenSlots → l.pool.free = [] ∧ slot < l.blacklistFloor
  entry : acc = l.slotEntry slot ∨ (l.pool.free = [] ∧ acc = withConfig l.accumulatorCfg)

theorem mayHand_of_accepted {sur : Surroundings} {q : Request} {idx : ℕ} {raw : Bytes}
    {l₀ : ShredListener C} {slot : ℕ} {c : Call}
    (h₀ : l.acquireBufferWithFallback env sur fuel = some (l₀, some idx))
    (hraw : raw ∈ l.incoming q) (haccepted : packetSlot l₀.enableFec raw = some slot)
    (hrange : l₀.slotOutOfRange slot = false) (hunseen : slot ∉ l₀.recentlySeenSlots)
    (hpacket : packetCall ⟨idx, raw⟩ = some (slot, c)) :
    l.MayHand q slot c (l₀.slotEntry slot) := by
  obtain ⟨gone, queued, he, hpool⟩ := acquire_evicts h₀
  refine ⟨⟨raw, hraw, ?_, idx, hpacket⟩, ?_, fun hseen => ?_, acquire_entry h₀ slot⟩
  · rw [← he.enableFec]
    exact haccepted
  · unfold slotOutOfRange at hrange ⊢
    rwa [he.lastSlot] at hrange
  · refine ⟨?_, (he.seen slot (.inl hseen)).resolve_left hunseen⟩
    by_contra hne
    rw [(hpool hne).2] at hunseen
    exact hunseen hseen

theorem mayHand_of_hands {sur : Surroundings} {q : Request} {idx : ℕ} {raw : Bytes}
    {l₀ l₁ : ShredListener C} {slot : ℕ} {c : Call} {r : CallState C}
    (h₀ : l.acquireBufferWithFallback env sur fuel = some (l₀, some idx))
    (hraw : raw ∈ l.incoming q) (h : Hands env sur fuel (l₀, [idx]) ⟨idx, raw⟩ l' l₁ slot c r) :
    l.MayHand q slot c (l₁.slotEntry slot) := by
  rw [h.entry]
  exact mayHand_of_accepted h₀ hraw h.accepted h.inRange h.unseen h.packet

/-- Every call on a listener that returns is a sequence of moves, with at most one
    packet handed over on the way. -/
theorem request_moves {sur : Surroundings} {q : Request} {reply : Reply}
    (h : l.request env sur fuel q = some (l', reply)) :
    Moves env sur.clock fuel (l, []) (l', []) ∨
      ∃ idx raw l₀ l₁ slot c r, raw ∈ l.incoming q ∧
        Moves env sur.clock fuel (l, []) (l₀, [idx]) ∧ l.MayHand q slot c (l₁.slotEntry slot) ∧
        Hands env sur fuel (l₀, [idx]) ⟨idx, raw⟩ l' l₁ slot c r := by
  cases request_serves h with
  | popped datagram batch rest hq hpend hl' hreply =>
    subst hl'
    exact .inl (.single (.keep ⟨rfl, rfl, rfl, rfl, rfl, rfl⟩))
  | exhausted l₁ h₁ hl' hreply =>
    have hmoves : Moves env sur.clock fuel (l, []) (l₁, []) := acquire_moves h₁
    subst hl'
    exact .inl (hmoves.tail (.keep ⟨rfl, rfl, rfl, rfl, rfl, rfl⟩))
  | failed l₁ idx h₁ hl' hreply =>
    have hmoves : Moves env sur.clock fuel (l, []) (l₁, [idx]) := acquire_moves h₁
    subst hl'
    exact .inl (hmoves.tail .free)
  | handled l₀ idx raw out h₀ hraw h₁ hreply =>
    have hacq : Moves env sur.clock fuel (l, []) (l₀, [idx]) := acquire_moves h₀
    rcases handlePacketOwned_moves h₁ with hrefuse | ⟨l₁, slot, c, r, hhands⟩
    · exact .inl (hacq.trans hrefuse)
    · exact .inr ⟨idx, raw, l₀, l₁, slot, c, r, hraw, hacq, mayHand_of_hands h₀ hraw hhands, hhands⟩

/-- What the moves keep and handing over a packet keeps, with the buffers in hand
    accounted for, every run keeps whose calls satisfy `P`. -/
theorem runRequests_moves_throughout {I : ShredListener C × List ℕ → Prop}
    {P : ShredListener C → Request → Prop}
    (hmove : ∀ clock m m', I m → Move env clock fuel m m' → I m')
    (hcall : ∀ l₀ q clock l idx raw slot c r, P l₀ q → l₀.MayHand q slot c (l.slotEntry slot) →
      I (l, [idx]) → raw.length ≤ bufSize →
      packetCall ⟨idx, raw⟩ = some (slot, c) →
      (l.slotEntry slot).call env clock fuel l.rsCache c = some r →
      I ((l.finishCall slot r).1, c.unstored idx))
    {qs : List (Surroundings × Request)} {replies : List Reply} (hl : I (l, []))
    (hP : Throughout env fuel P l qs) (h : runRequests env fuel l qs = some (l', replies)) :
    I (l', []) := by
  refine runRequests_invariant (fun _ l => I (l, [])) P ?_ qs [] l l' replies hl hP h
  intro _ sur l q l' reply hl hP hreq
  have hrun {m m' : ShredListener C × List ℕ} (h : Moves env sur.clock fuel m m') (hm : I m) : I m' :=
    Moves.invariant (hmove sur.clock) h hm
  rcases request_moves hreq with
    hmoves | ⟨idx, raw, l₀, l₁, slot, c, r, hraw, hmoves, hmay, hhands⟩
  · exact hrun hmoves hl
  · have hlen : raw.length ≤ bufSize := length_of_incoming hraw
    exact hrun hhands.rest (hcall l q sur.clock l₁ idx raw slot c r hP hmay
      (hrun hhands.moves (hrun hmoves hl)) hlen hhands.packet hhands.call)

/-- The same for all runs. -/
theorem runRequests_moves {I : ShredListener C × List ℕ → Prop}
    (hmove : ∀ clock m m', I m → Move env clock fuel m m' → I m')
    (hcall : ∀ clock l idx raw slot c r, I (l, [idx]) → raw.length ≤ bufSize →
      packetCall ⟨idx, raw⟩ = some (slot, c) →
      (l.slotEntry slot).call env clock fuel l.rsCache c = some r →
      I ((l.finishCall slot r).1, c.unstored idx))
    {qs : List (Surroundings × Request)} {replies : List Reply} (hl : I (l, []))
    (h : runRequests env fuel l qs = some (l', replies)) : I (l', []) :=
  runRequests_moves_throughout hmove
    (fun _ _ clock l idx raw slot c r _ _ hl hlen hpacket hr =>
      hcall clock l idx raw slot c r hl hlen hpacket hr)
    hl (throughout_of_forall (P := fun _ => True) (fun _ _ => trivial) l) h

end ShredListener

end ShredStream
