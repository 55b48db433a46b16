import ShredStream.Accumulator.AnyCache
import ShredStream.Listener.Buffers

/-!
# What retiring slots leaves behind

Proofs about `listener.rs`, lines 479–528 and 548–583. Retiring slots is exact:
`TakesOut` gives the slots, the queue and the three counters of slots in terms of
what `try_harvest_tail` made of each accumulator, `KeepsRest` the rest of the
state. The codec cache plays no part, so the harvests are those of the accumulators
alone.

Results:
* `retireSlots_takesOut`, `evictOldSlots_takesOut`, `forceEvictOldestSlot_takesOut`:
  one statement for each function.
* `request_takesOut`: the same for the evictions of a whole call.
-/

namespace ShredStream

open SlotAccumulator

/-- A slot that was taken out: its accumulator, what `try_harvest_tail` left of it
    and the transactions it gave. -/
structure Retirement where
  slot : ℕ
  acc : SlotAccumulator
  left : SlotAccumulator
  txs : List VersionedTransaction

namespace Retirement

/-- `try_harvest_tail` gives what the record says. -/
def Harvested {C : Type} (env : Env C) (clock : Clock) (fuel : ℕ) (r : Retirement) : Prop :=
  ∃ cache, r.acc.tryHarvestTail env clock fuel {} = some ⟨r.left, cache, r.txs⟩

/-- The entry of the history. -/
def gone (r : Retirement) : ℕ × SlotAccumulator := (r.slot, r.left)

/-- The batch for the queue: none if the tail is empty. -/
def tail? (r : Retirement) : Option TxBatch := if r.txs = [] then none else some (r.slot, r.txs)

end Retirement

/-- A 64-bit counter that counts the elements that satisfy `p`. -/
def countWrapping {α : Type} (p : α → Bool) (n : ℕ) (xs : List α) : ℕ :=
  xs.foldl (fun n x => if p x then wrapAdd64 n 1 else n) n

theorem countWrapping_append {α : Type} (p : α → Bool) (n : ℕ) (xs ys : List α) :
    countWrapping p n (xs ++ ys) = countWrapping p (countWrapping p n xs) ys :=
  List.foldl_append

theorem countWrapping_mod {α : Type} (p : α → Bool) (n : ℕ) (xs : List α) :
    countWrapping p (n % 2 ^ 64) xs = (n + xs.countP p) % 2 ^ 64 := by
  induction xs generalizing n with
  | nil => rfl
  | cons x xs ih =>
    unfold countWrapping
    rw [List.foldl_cons, List.countP_cons]
    by_cases hx : p x = true
    · rw [if_pos hx, if_pos hx, wrapAdd64, Nat.mod_add_mod]
      refine (ih (n + 1)).trans ?_
      congr 1
      omega
    · rw [if_neg hx, if_neg hx]
      exact ih n

namespace ShredListener

variable {C : Type} {env : Env C} {clock : Clock} {fuel : ℕ} {cfg : AccumulatorConfig}
  {l l' l'' : ShredListener C}

/-! ## The states of a run -/

/-- What every state between two calls satisfies: the accumulators came from
    packets, the cached codecs from the crate. -/
structure Sound (env : Env C) (fuel : ℕ) (cfg : AccumulatorConfig) (l : ShredListener C) :
    Prop where
  live : AllLive env fuel cfg l
  cache : l.rsCache.Valid env.reedSolomon

theorem Sound.move {m m' : ShredListener C × List ℕ} (h : Sound env fuel cfg m.1)
    (hmove : Move env clock fuel m m') : Sound env fuel cfg m'.1 := by
  refine ⟨h.live.move hmove, ?_⟩
  cases hmove with
  | keep hsame =>
    rw [hsame.rsCache]
    exact h.cache
  | retire hretire =>
    obtain rfl | ⟨acc, r, -, hr, hl'⟩ := retireSlot_cases hretire
    · exact h.cache
    · rw [hl'.rsCache]
      exact (call_withCache (c := .harvest) h.cache h.cache hr).1
  | acquire => exact h.cache
  | free => exact h.cache

theorem runRequests_sound (opts : ListenerOptions) {qs : List (Surroundings × Request)}
    {replies : List Reply} (h : runRequests env fuel (fromSocket opts) qs = some (l, replies)) :
    Sound env fuel opts.accumulator l :=
  runRequests_moves (I := fun m => Sound env fuel opts.accumulator m.1)
    (fun _ _ _ hm hmove => hm.move hmove)
    (fun _ _ _ _ _ _ _ hm hlen hpacket hr =>
      ⟨hm.live.finishCall (made_of_packetCall hpacket hlen) hr,
        (call_withCache hm.cache hm.cache hr).1⟩)
    ⟨allLive_fromSocket opts, ReedSolomonCache.valid_empty _⟩ h

/-! ## Slots, queue and counters -/

/-- The slots `rs` were taken out one after the other: each was live, its tail was
    queued unless salvage delivery is disabled, and it was counted. -/
structure TakesOut (env : Env C) (clock : Clock) (fuel : ℕ) (l : ShredListener C)
    (rs : List Retirement) (l' : ShredListener C) : Prop where
  live : ∀ r ∈ rs, l.slots[r.slot]? = some r.acc ∧ r.Harvested env clock fuel
  nodup : (rs.map Retirement.slot).Nodup
  slots : ∀ s : ℕ, l'.slots[s]? = if s ∈ rs.map Retirement.slot then none else l.slots[s]?
  history : l'.retired = l.retired ++ rs.map Retirement.gone
  queue : l'.pendingBatches =
    l.pendingBatches ++ if l.disableSalvageDelivery then [] else rs.filterMap Retirement.tail?
  completed : l'.counters.slotsCompletedTotal =
    countWrapping (fun r => r.left.slotComplete) l.counters.slotsCompletedTotal rs
  evicted : l'.counters.slotsEvictedByAge =
    countWrapping (fun r => !r.left.slotComplete) l.counters.slotsEvictedByAge rs
  harvested : l'.counters.harvestedBatchesTotal =
    countWrapping (fun r => decide (r.txs ≠ [])) l.counters.harvestedBatchesTotal rs
  salvage : l'.disableSalvageDelivery = l.disableSalvageDelivery

namespace TakesOut

variable {rs rs' : List Retirement}

theorem refl (l : ShredListener C) : TakesOut env clock fuel l [] l where
  live := by simp
  nodup := List.nodup_nil
  slots := by simp
  history := (List.append_nil _).symm
  queue := by simp
  completed := rfl
  evicted := rfl
  harvested := rfl
  salvage := rfl

theorem trans (h : TakesOut env clock fuel l rs l') (h' : TakesOut env clock fuel l' rs' l'') :
    TakesOut env clock fuel l (rs ++ rs') l'' := by
  have hlive : ∀ r ∈ rs', r.slot ∉ rs.map Retirement.slot ∧ l.slots[r.slot]? = some r.acc := by
    intro r hr
    have hslot := (h'.live r hr).1
    rw [h.slots] at hslot
    split_ifs at hslot with hgone
    exact ⟨hgone, hslot⟩
  constructor
  · intro r hr
    rcases List.mem_append.mp hr with hr | hr
    · exact h.live r hr
    · exact ⟨(hlive r hr).2, (h'.live r hr).2⟩
  · rw [List.map_append, List.nodup_append]
    refine ⟨h.nodup, h'.nodup, fun s hs s' hs' => ?_⟩
    rintro rfl
    obtain ⟨r, hr, rfl⟩ := List.mem_map.mp hs'
    exact (hlive r hr).1 hs
  · intro s
    rw [h'.slots, h.slots, List.map_append]
    simp only [List.mem_append]
    split_ifs <;> tauto
  · rw [h'.history, h.history, List.map_append, List.append_assoc]
  · rw [h'.queue, h.queue, h.salvage]
    split_ifs
    · simp
    · rw [List.filterMap_append, List.append_assoc]
  · rw [h'.completed, h.completed, countWrapping_append]
  · rw [h'.evicted, h.evicted, countWrapping_append]
  · rw [h'.harvested, h.harvested, countWrapping_append]
  · exact h'.salvage.trans h.salvage

end TakesOut

/-- The rest of the state: `last_slot` and the options stay, and the buffers of the
    slots `rs` are free. -/
structure KeepsRest (l : ShredListener C) (rs : List Retirement) (l' : ShredListener C) :
    Prop where
  lastSlot : l'.lastSlot = l.lastSlot
  maxAge : l'.maxAge = l.maxAge
  enableFec : l'.enableFec = l.enableFec
  cfg : l'.accumulatorCfg = l.accumulatorCfg
  free : l'.pool.free.Perm (l.pool.free ++ rs.flatMap fun r => r.acc.buffers)

theorem KeepsRest.refl (l : ShredListener C) : KeepsRest l [] l :=
  ⟨rfl, rfl, rfl, rfl, by simp⟩

theorem KeepsRest.trans {rs rs' : List Retirement} (h : KeepsRest l rs l')
    (h' : KeepsRest l' rs' l'') : KeepsRest l (rs ++ rs') l'' where
  lastSlot := h'.lastSlot.trans h.lastSlot
  maxAge := h'.maxAge.trans h.maxAge
  enableFec := h'.enableFec.trans h.enableFec
  cfg := h'.cfg.trans h.cfg
  free := by
    rw [List.flatMap_append, ← List.append_assoc]
    exact h'.free.trans (h.free.append_right _)

/-! ## The functions that evict -/

/-- A harvest keeps the buffers of an accumulator that packets led to. -/
theorem harvest_buffers {s : ℕ} {acc : SlotAccumulator} (h : Live env fuel cfg s acc)
    {cache : ReedSolomonCache C} {r : CallState C}
    (hr : acc.tryHarvestTail env clock fuel cache = some r) :
    (r.acc.dropped ++ r.acc.buffers).Perm acc.buffers := by
  have hheld : r.acc.held = acc.held + Call.harvest.buffer :=
    call_held h.parsed Call.parsed_harvest (c := .harvest) hr
  rw [← Multiset.coe_eq_coe, ← held_eq, hheld, held_eq, h.dropped_nil]
  exact add_zero _

/-- Retiring a live slot. -/
theorem retireSlot_takesOut (hl : Sound env fuel cfg l) {s : ℕ} (hs : s ∈ l.slots)
    (h : l.retireSlot env clock fuel s = some l') :
    ∃ r : Retirement, r.slot = s ∧ TakesOut env clock fuel l [r] l' ∧ KeepsRest l [r] l' ∧
      l'.recentlySeenSlots = insert s l.recentlySeenSlots ∧ Sound env fuel cfg l' := by
  have hsound : Sound env fuel cfg l' := Sound.move (m := (l, [])) hl (.retire h)
  obtain ⟨acc, hacc⟩ := (BTreeMap.mem_iff_getElem? _).mp hs
  unfold retireSlot at h
  rw [hacc] at h
  obtain ⟨r, hr, h⟩ := Option.bind_eq_some_iff.mp h
  cases h
  obtain ⟨-, r', hr', hleft, htxs⟩ := call_withCache (c := .harvest) hl.cache
    (ReedSolomonCache.valid_empty env.reedSolomon) hr
  have hharvest : Retirement.Harvested env clock fuel ⟨s, acc, r.acc, r.out⟩ := by
    refine ⟨r'.cache, ?_⟩
    rw [← hleft, ← htxs]
    exact hr'
  have hbuffers := harvest_buffers (hl.live.slots s acc hacc) hr
  refine ⟨⟨s, acc, r.acc, r.out⟩, rfl, ?_, ⟨rfl, rfl, rfl, rfl, ?_⟩, rfl, hsound⟩
  · constructor
    · rintro r ⟨⟩
      · exact ⟨hacc, hharvest⟩
      · contradiction
    · exact List.nodup_singleton _
    · intro s'
      show (l.slots.erase s)[s']? = _
      rw [BTreeMap.getElem?_erase_eq]
      simp only [List.map_singleton, List.mem_singleton, eq_comm]
    · rfl
    · show (if _ then _ else _) = _
      cases l.disableSalvageDelivery <;> by_cases hout : r.out = [] <;>
        simp [Retirement.tail?, hout]
    · show (if _ then _ else _) = _
      rfl
    · show (if _ then _ else _) = _
      cases hcomplete : r.acc.slotComplete <;> simp [countWrapping, hcomplete]
    · show (if _ then _ else _) = _
      simp [countWrapping]
    · rfl
  · show ((r.acc.dropped ++ r.acc.buffers).reverse ++ l.pool.free).Perm _
    rw [List.flatMap_singleton]
    exact List.perm_append_comm.trans
      (((List.reverse_perm _).trans hbuffers).append_left l.pool.free)

/-- Retiring live slots in turn. -/
theorem retireSlots_takesOut (hl : Sound env fuel cfg l) {ss : List ℕ} (hss : ss.Nodup)
    (hlive : ∀ s ∈ ss, s ∈ l.slots) (h : retireSlots env clock fuel l ss = some l') :
    ∃ rs : List Retirement, rs.map Retirement.slot = ss ∧ TakesOut env clock fuel l rs l' ∧
      KeepsRest l rs l' ∧ l'.recentlySeenSlots = l.recentlySeenSlots ∪ ss.toFinset ∧
      Sound env fuel cfg l' := by
  induction ss generalizing l with
  | nil =>
    cases h
    exact ⟨[], rfl, .refl _, .refl _, by simp, hl⟩
  | cons s ss ih =>
    obtain ⟨l₁, h₁, h₂⟩ := Option.bind_eq_some_iff.mp h
    obtain ⟨hnot, hnodup⟩ := List.nodup_cons.mp hss
    rw [List.forall_mem_cons] at hlive
    obtain ⟨r, rfl, htakes, hrest, hseen, hl₁⟩ := retireSlot_takesOut hl hlive.1 h₁
    have hlive₁ : ∀ s' ∈ ss, s' ∈ l₁.slots := by
      intro s' hs'
      have hne : s' ≠ r.slot := fun heq => hnot (heq ▸ hs')
      rw [BTreeMap.mem_iff_getElem?, htakes.slots, if_neg (by simpa using hne),
        ← BTreeMap.mem_iff_getElem?]
      exact hlive.2 s' hs'
    obtain ⟨rs, rfl, htakes', hrest', hseen', hl'⟩ := ih hl₁ hnodup hlive₁ h₂
    refine ⟨r :: rs, rfl, htakes.trans htakes', hrest.trans hrest', ?_, hl'⟩
    rw [hseen', hseen, List.toFinset_cons, Finset.insert_union, Finset.union_insert]

theorem toEvict_nodup (l : ShredListener C) : l.toEvict.Nodup := by
  have hkeys : (l.slots.toList.map Prod.fst).Nodup := by
    rw [Std.ExtTreeMap.map_fst_toList_eq_keys]
    exact Std.ExtTreeMap.nodup_keys
  exact (List.filter_sublist.map Prod.fst).nodup hkeys

theorem mem_slots_of_toEvict {s : ℕ} (h : s ∈ l.toEvict) : s ∈ l.slots := by
  unfold toEvict at h
  obtain ⟨e, he, rfl⟩ := List.mem_map.mp h
  rw [BTreeMap.mem_iff_getElem?]
  exact ⟨e.2, l.slots.mem_toList.mp (List.mem_filter.mp he).1⟩

/-- `evict_old_slots` takes out the slots that are too old, and forgets the
    remembered slots behind the floor. -/
theorem evictOldSlots_takesOut (hl : Sound env fuel cfg l) {sur : Surroundings}
    (h : l.evictOldSlots env sur fuel = some l') :
    ∃ rs : List Retirement, rs.map Retirement.slot = sur.hashOrder l.toEvict ∧
      TakesOut env sur.clock fuel l rs l' ∧ KeepsRest l rs l' ∧
      l'.recentlySeenSlots =
        (l.recentlySeenSlots ∪ l.toEvict.toFinset).filter (· ≥ l.blacklistFloor) ∧
      Sound env fuel cfg l' := by
  obtain ⟨l₁, h₁, h₂⟩ := Option.bind_eq_some_iff.mp h
  cases h₂
  have hperm := sur.hashOrder_perm l.toEvict
  obtain ⟨rs, hrs, htakes, hrest, hseen, hl₁⟩ := retireSlots_takesOut hl
    (hperm.nodup_iff.mpr l.toEvict_nodup)
    (fun s hs => mem_slots_of_toEvict (hperm.mem_iff.mp hs)) h₁
  have hfloor : l₁.blacklistFloor = l.blacklistFloor := by
    rw [blacklistFloor, blacklistFloor, hrest.lastSlot, hrest.maxAge]
  refine ⟨rs, hrs, { htakes with }, { hrest with }, ?_, ?_⟩
  · show Finset.filter (· ≥ l₁.blacklistFloor) l₁.recentlySeenSlots = _
    rw [hfloor, hseen, List.toFinset_eq_of_perm _ _ hperm]
  · exact ⟨⟨hl₁.live.cfg_eq, hl₁.live.slots, hl₁.live.retired⟩, hl₁.cache⟩

/-- `force_evict_oldest_slot` takes out the oldest slot, if there is one. -/
theorem forceEvictOldestSlot_takesOut (hl : Sound env fuel cfg l) {sur : Surroundings}
    (h : l.forceEvictOldestSlot env sur fuel = some l') :
    ∃ rs : List Retirement, rs.map Retirement.slot = l.slots.keys.head?.toList ∧
      TakesOut env sur.clock fuel l rs l' ∧ KeepsRest l rs l' ∧
      l'.recentlySeenSlots = l.recentlySeenSlots ∪ l.slots.keys.head?.toList.toFinset ∧
      Sound env fuel cfg l' := by
  unfold forceEvictOldestSlot at h
  cases hhead : l.slots.keys.head? with
  | none =>
    rw [hhead] at h
    cases h
    exact ⟨[], rfl, .refl l, .refl l, by simp, hl⟩
  | some s =>
    rw [hhead] at h
    obtain ⟨r, hr, htakes, hrest, hseen, hl'⟩ :=
      retireSlot_takesOut hl ((BTreeMap.head?_keys_iff _).mp hhead).1 h
    refine ⟨[r], by simp [hr], htakes, hrest, ?_, hl'⟩
    rw [hseen]
    simp

/-! ## The acquisition of a buffer -/

/-- `self.pool.acquire()`: a buffer is taken if one is free. -/
def takeBuffer (l : ShredListener C) : ShredListener C × Option ℕ :=
  match l.pool.acquire with
  | some (idx, pool) => ({ l with pool }, some idx)
  | none => (l, none)

/-- A buffer that is taken and released again is back in its place. -/
theorem takeBuffer_release {idx : ℕ} (h : l.takeBuffer = (l', some idx)) :
    { l' with pool := l'.pool.release [idx] } = l := by
  unfold takeBuffer ShredPool.acquire at h
  cases hpool : l.pool.free with
  | nil =>
    rw [hpool] at h
    cases h
  | cons i free =>
    rw [hpool] at h
    cases h
    have hrestored : ({ l.pool with free } : ShredPool).release [idx] = l.pool := by
      unfold ShredPool.release
      rw [List.reverse_singleton, List.singleton_append, ← hpool]
    show { l with pool := ({ l.pool with free } : ShredPool).release [idx] } = l
    rw [hrestored]

theorem takeBuffer_none (h : l.takeBuffer = (l', none)) : l' = l := by
  unfold takeBuffer at h
  split at h
  · cases h
  · cases h
    rfl

/-- The buffer comes from the pool as it is, as the first stage leaves it, or as the
    second does. -/
inductive Falls (env : Env C) (sur : Surroundings) (fuel : ℕ) (l l₁ : ShredListener C) : Prop
  | free : l.pool.free ≠ [] → l₁ = l → Falls env sur fuel l l₁
  | old : l.pool.free = [] → l.evictOldSlots env sur fuel = some l₁ → l₁.pool.free ≠ [] →
      Falls env sur fuel l l₁
  | forced (l₀ : ShredListener C) : l.pool.free = [] → l.evictOldSlots env sur fuel = some l₀ →
      l₀.pool.free = [] → l₀.forceEvictOldestSlot env sur fuel = some l₁ → Falls env sur fuel l l₁

theorem acquire_falls {sur : Surroundings} {buffer : Option ℕ}
    (h : l.acquireBufferWithFallback env sur fuel = some (l', buffer)) :
    ∃ l₁ : ShredListener C, l₁.takeBuffer = (l', buffer) ∧ Falls env sur fuel l l₁ := by
  have hnone : ∀ {pool : ShredPool}, pool.acquire = none → pool.free = [] := by
    intro pool hpool
    unfold ShredPool.acquire at hpool
    split at hpool
    · assumption
    · cases hpool
  have hsome : ∀ {pool : ShredPool} {b : ℕ × ShredPool}, pool.acquire = some b →
      pool.free ≠ [] := by
    intro pool b hpool hfree
    rw [ShredPool.acquire, hfree] at hpool
    cases hpool
  unfold acquireBufferWithFallback at h
  cases hpool : l.pool.acquire with
  | some b =>
    rw [hpool] at h
    cases h
    exact ⟨l, by rw [takeBuffer, hpool], .free (hsome hpool) rfl⟩
  | none =>
    rw [hpool] at h
    obtain ⟨l₀, h₀, h⟩ := Option.bind_eq_some_iff.mp h
    cases hpool₀ : l₀.pool.acquire with
    | some b =>
      rw [hpool₀] at h
      cases h
      exact ⟨l₀, by rw [takeBuffer, hpool₀], .old (hnone hpool) h₀ (hsome hpool₀)⟩
    | none =>
      rw [hpool₀] at h
      obtain ⟨l₁, h₁, h⟩ := Option.bind_eq_some_iff.mp h
      refine ⟨l₁, ?_, .forced l₀ (hnone hpool) h₀ (hnone hpool₀) h₁⟩
      unfold takeBuffer
      cases hpool₁ : l₁.pool.acquire with
      | some b =>
        rw [hpool₁] at h
        exact Option.some.inj h
      | none =>
        rw [hpool₁] at h
        exact Option.some.inj h

theorem Falls.takesOut {sur : Surroundings} (hl : Sound env fuel cfg l)
    (h : Falls env sur fuel l l') :
    ∃ rs : List Retirement, TakesOut env sur.clock fuel l rs l' ∧ KeepsRest l rs l' ∧
      Sound env fuel cfg l' := by
  cases h with
  | free _ heq =>
    subst heq
    exact ⟨[], .refl _, .refl _, hl⟩
  | old _ h₁ _ =>
    obtain ⟨rs, -, htakes, hrest, -, hl'⟩ := evictOldSlots_takesOut hl h₁
    exact ⟨rs, htakes, hrest, hl'⟩
  | forced l₀ _ h₀ _ h₁ =>
    obtain ⟨rs, -, htakes, hrest, -, hl₀⟩ := evictOldSlots_takesOut hl h₀
    obtain ⟨rs', -, htakes', hrest', -, hl'⟩ := forceEvictOldestSlot_takesOut hl₀ h₁
    exact ⟨rs ++ rs', htakes.trans htakes', hrest.trans hrest', hl'⟩

/-! ## A whole call -/

/-- The history, the queue and the counters of slots are the same. -/
structure SameBooks (l l' : ShredListener C) : Prop where
  retired : l'.retired = l.retired
  pending : l'.pendingBatches = l.pendingBatches
  completed : l'.counters.slotsCompletedTotal = l.counters.slotsCompletedTotal
  evicted : l'.counters.slotsEvictedByAge = l.counters.slotsEvictedByAge
  harvested : l'.counters.harvestedBatchesTotal = l.counters.harvestedBatchesTotal
  salvage : l'.disableSalvageDelivery = l.disableSalvageDelivery

/-- `TakesOut` does not depend on the pool, the cache, `last_slot`, the remembered
    slots and the counters of packets. -/
theorem advanceSlot_takesOut (hl : Sound env fuel cfg l) {sur : Surroundings} {slot : ℕ}
    (h : l.advanceSlot env sur fuel slot = some l') :
    ∃ rs : List Retirement, TakesOut env sur.clock fuel l rs l' := by
  unfold advanceSlot at h
  split_ifs at h
  · have hl₁ : Sound env fuel cfg { l with lastSlot := slot } :=
      ⟨⟨hl.live.cfg_eq, hl.live.slots, hl.live.retired⟩, hl.cache⟩
    obtain ⟨rs, -, htakes, -⟩ := evictOldSlots_takesOut hl₁ h
    exact ⟨rs, { htakes with }⟩
  · cases h
    exact ⟨[], .refl l⟩

theorem handlePacketOwned_takesOut (hl : Sound env fuel cfg l) {sur : Surroundings}
    {handle : BufferHandle} {out : Option TxBatch}
    (h : l.handlePacketOwned env sur fuel handle = some (l', out)) :
    ∃ (rs : List Retirement) (l₁ : ShredListener C),
      TakesOut env sur.clock fuel l rs l₁ ∧ SameBooks l₁ l' := by
  have hadvance : ∀ {counters : PacketCounters} {slot : ℕ} {l₁ : ShredListener C},
      ({ l with counters } : ShredListener C).advanceSlot env sur fuel slot = some l₁ →
      ∃ rs : List Retirement, TakesOut env sur.clock fuel { l with counters } rs l₁ :=
    fun {counters} _ _ => advanceSlot_takesOut (l := { l with counters })
      ⟨⟨hl.live.cfg_eq, hl.live.slots, hl.live.retired⟩, hl.cache⟩
  unfold handlePacketOwned at h
  simp only at h
  split at h
  · rename_i e hparse
    cases h
    cases e <;> exact ⟨[], l, .refl l, rfl, rfl, rfl, rfl, rfl, rfl⟩
  · unfold handleData at h
    split_ifs at h
    · cases h
      exact ⟨[], l, .refl l, rfl, rfl, rfl, rfl, rfl, rfl⟩
    · cases h
      exact ⟨[], l, .refl l, rfl, rfl, rfl, rfl, rfl, rfl⟩
    · obtain ⟨l₁, h₁, h⟩ := Option.bind_eq_some_iff.mp h
      obtain ⟨r, -, h⟩ := Option.bind_eq_some_iff.mp h
      cases h
      obtain ⟨rs, htakes⟩ := hadvance h₁
      exact ⟨rs, l₁, { htakes with }, rfl, rfl, rfl, rfl, rfl, rfl⟩
  · unfold handleCode at h
    simp only at h
    split_ifs at h
    · cases h
      exact ⟨[], l, .refl l, rfl, rfl, rfl, rfl, rfl, rfl⟩
    · cases h
      exact ⟨[], l, .refl l, rfl, rfl, rfl, rfl, rfl, rfl⟩
    · cases h
      exact ⟨[], l, .refl l, rfl, rfl, rfl, rfl, rfl, rfl⟩
    · obtain ⟨l₁, h₁, h⟩ := Option.bind_eq_some_iff.mp h
      obtain ⟨r, -, h⟩ := Option.bind_eq_some_iff.mp h
      cases h
      obtain ⟨rs, htakes⟩ := hadvance h₁
      exact ⟨rs, l₁, { htakes with }, rfl, rfl, rfl, rfl, rfl, rfl⟩

/-- The slots that a call takes out were live when it was made; besides, it can only
    take the first batch from the queue. -/
theorem request_takesOut (hl : Sound env fuel cfg l) {sur : Surroundings} {q : Request}
    {reply : Reply} (h : l.request env sur fuel q = some (l', reply)) :
    ∃ (rs : List Retirement) (l₁ : ShredListener C), TakesOut env sur.clock fuel l rs l₁ ∧
      SameBooks l₁ { l' with pendingBatches := reply.fromQueue.toList ++ l'.pendingBatches } := by
  have hacquire : ∀ {l₂ : ShredListener C} {buffer : Option ℕ},
      l.acquireBufferWithFallback env sur fuel = some (l₂, buffer) →
      ∃ rs : List Retirement, TakesOut env sur.clock fuel l rs l₂ ∧ Sound env fuel cfg l₂ := by
    intro l₂ buffer h₂
    obtain ⟨l₁, htake, hfalls⟩ := acquire_falls h₂
    obtain ⟨rs, htakes, -, hl₁⟩ := hfalls.takesOut hl
    unfold takeBuffer at htake
    split at htake
    · cases htake
      exact ⟨rs, { htakes with }, ⟨hl₁.live.cfg_eq, hl₁.live.slots, hl₁.live.retired⟩, hl₁.cache⟩
    · cases htake
      exact ⟨rs, htakes, hl₁⟩
  cases request_serves h with
  | popped datagram batch rest hq hpend hl' hreply =>
    subst hl' hreply
    exact ⟨[], l, .refl l, rfl, hpend.symm, rfl, rfl, rfl, rfl⟩
  | exhausted l₂ h₂ hl' hreply =>
    obtain ⟨rs, htakes, -⟩ := hacquire h₂
    subst hl'
    refine ⟨rs, l₂, htakes, rfl, ?_, rfl, rfl, rfl, rfl⟩
    rw [Reply.fromQueue_of_batch hreply]
    rfl
  | failed l₂ idx h₂ hl' hreply =>
    obtain ⟨rs, htakes, -⟩ := hacquire h₂
    subst hl'
    refine ⟨rs, l₂, htakes, rfl, ?_, rfl, rfl, rfl, rfl⟩
    rw [Reply.fromQueue_of_batch hreply]
    rfl
  | handled l₂ idx raw out h₂ hraw hown hreply =>
    obtain ⟨rs, htakes, hl₂⟩ := hacquire h₂
    obtain ⟨rs', l₁, htakes', hsame⟩ := handlePacketOwned_takesOut hl₂ hown
    subst hreply
    exact ⟨rs ++ rs', l₁, htakes.trans htakes', hsame⟩

end ShredListener

end ShredStream
