import ShredStream.Listener.Requests

/-!
# What a call can do to the listener

`Evicts` says what `evict_old_slots`, `force_evict_oldest_slot` and whatever
calls them leave behind; `Stores` what handing a shred to the accumulator of a
slot does. `request_outcome` puts every call that returns into one of three
classes: a queued batch is popped, the packet is refused, or it is accepted for
a slot.
-/

namespace ShredStream

/-- The slot a packet is for, if `handle_packet_owned` hands such packets to an
    accumulator. -/
def packetSlot (enableFec : Bool) (raw : Bytes) : Option ℕ :=
  match parseKind raw with
  | .ok (.data d) => some d.slot
  | .ok (.code c) => if enableFec then some c.slot else none
  | .error _ => none

namespace ShredListener

variable {C : Type} {env : Env C}

/-- The packet that a call looks at: `recv_one` reads none while a batch is
    queued. -/
def incoming (l : ShredListener C) : Request → Option Bytes
  | .handlePacket raw => (Request.handlePacket raw).packet
  | .recvOne datagram =>
    if l.pendingBatches = [] then (Request.recvOne datagram).packet else none

/-! ## Evictions -/

/-- The slots `gone` were taken out of the listener and remembered, unless they
    were behind the floor already; the batches `queued` come from some of them. -/
structure Evicts (l l' : ShredListener C) (gone : List (ℕ × SlotAccumulator))
    (queued : List TxBatch) : Prop where
  lastSlot : l'.lastSlot = l.lastSlot
  maxAge : l'.maxAge = l.maxAge
  enableFec : l'.enableFec = l.enableFec
  retired : l'.retired = l.retired ++ gone
  nodup : (gone.map Prod.fst).Nodup
  live : ∀ s ∈ gone.map Prod.fst, s ∈ l.slots
  slots : ∀ s : ℕ, l'.slots[s]? = if s ∈ gone.map Prod.fst then none else l.slots[s]?
  pending : l'.pendingBatches = l.pendingBatches ++ queued
  queued : (queued.map Prod.fst).Sublist (gone.map Prod.fst)
  seen : ∀ s, s ∈ l.recentlySeenSlots ∨ s ∈ gone.map Prod.fst →
    s ∈ l'.recentlySeenSlots ∨ s < l.blacklistFloor

namespace Evicts

theorem refl (l : ShredListener C) : Evicts l l [] [] where
  lastSlot := rfl
  maxAge := rfl
  enableFec := rfl
  retired := (List.append_nil _).symm
  nodup := List.nodup_nil
  live s hs := by simp at hs
  slots s := by simp
  pending := (List.append_nil _).symm
  queued := List.Sublist.refl _
  seen s hs := by
    apply Or.inl
    simpa using hs

variable {l l' l'' : ShredListener C} {gone gone' : List (ℕ × SlotAccumulator)}
  {queued queued' : List TxBatch}

theorem floor (h : Evicts l l' gone queued) : l'.blacklistFloor = l.blacklistFloor := by
  rw [blacklistFloor, blacklistFloor, h.lastSlot, h.maxAge]

theorem mem_slots (h : Evicts l l' gone queued) (s : ℕ) :
    s ∈ l'.slots ↔ s ∉ gone.map Prod.fst ∧ s ∈ l.slots := by
  rw [BTreeMap.mem_iff_getElem?, h.slots, BTreeMap.mem_iff_getElem?]
  split_ifs with hs <;> simp [hs]

theorem trans (h : Evicts l l' gone queued) (h' : Evicts l' l'' gone' queued') :
    Evicts l l'' (gone ++ gone') (queued ++ queued') where
  lastSlot := h'.lastSlot.trans h.lastSlot
  maxAge := h'.maxAge.trans h.maxAge
  enableFec := h'.enableFec.trans h.enableFec
  retired := by rw [h'.retired, h.retired, List.append_assoc]
  nodup := by
    rw [List.map_append, List.nodup_append]
    refine ⟨h.nodup, h'.nodup, fun s hs s' hs' => ?_⟩
    rintro rfl
    exact ((h.mem_slots s).mp (h'.live s hs')).1 hs
  live s hs := by
    rw [List.map_append, List.mem_append] at hs
    rcases hs with hs | hs
    · exact h.live s hs
    · exact ((h.mem_slots s).mp (h'.live s hs)).2
  slots s := by
    rw [h'.slots, h.slots, List.map_append]
    by_cases h1 : s ∈ gone.map Prod.fst <;> by_cases h2 : s ∈ gone'.map Prod.fst <;> simp [h1, h2]
  pending := by rw [h'.pending, h.pending, List.append_assoc]
  queued := by
    rw [List.map_append, List.map_append]
    exact h.queued.append h'.queued
  seen s hs := by
    rw [List.map_append, List.mem_append] at hs
    have hnext := h'.seen s
    rw [h.floor] at hnext
    rcases hs with hs | hs | hs
    · rcases h.seen s (.inl hs) with hs | hs
      · exact hnext (.inl hs)
      · exact .inr hs
    · rcases h.seen s (.inr hs) with hs | hs
      · exact hnext (.inl hs)
      · exact .inr hs
    · exact hnext (.inr hs)

end Evicts

variable {l l' : ShredListener C}

theorem retireSlot_evicts {clock : Clock} {fuel s : ℕ}
    (h : l.retireSlot env clock fuel s = some l') :
    ∃ gone queued, Evicts l l' gone queued ∧ (∀ s' ∈ gone.map Prod.fst, s' = s) ∧
      s ∉ l'.slots := by
  unfold retireSlot at h
  cases hacc : l.slots[s]? with
  | none =>
    rw [hacc] at h
    cases h
    refine ⟨[], [], Evicts.refl l, by simp, ?_⟩
    rw [BTreeMap.mem_iff_getElem?, hacc]
    simp
  | some acc =>
    simp only [hacc, Option.bind_eq_bind, Option.bind_eq_some_iff] at h
    obtain ⟨r, -, h⟩ := h
    cases h
    refine ⟨[(s, r.acc)],
      if r.out ≠ [] ∧ !l.disableSalvageDelivery then [(s, r.out)] else [], ?_, by simp, ?_⟩
    · refine ⟨rfl, rfl, rfl, rfl, by simp, ?_, ?_, ?_, ?_, ?_⟩
      · intro s' hs'
        rw [List.mem_singleton.mp hs', BTreeMap.mem_iff_getElem?]
        exact ⟨acc, hacc⟩
      · intro s'
        show (l.slots.erase s)[s']? = _
        rw [Std.ExtTreeMap.getElem?_erase]
        by_cases hs : s' = s
        · simp [hs]
        · simp [hs, Ne.symm hs]
      · simp only
        split_ifs <;> simp
      · split_ifs <;> simp
      · intro s' hs'
        apply Or.inl
        show s' ∈ insert s l.recentlySeenSlots
        rw [Finset.mem_insert]
        rcases hs' with hs' | hs'
        · exact .inr hs'
        · exact .inl (List.mem_singleton.mp hs')
    · show s ∉ l.slots.erase s
      simp

theorem retireSlots_evicts {clock : Clock} {fuel : ℕ} {ss : List ℕ}
    (h : retireSlots env clock fuel l ss = some l') :
    ∃ gone queued, Evicts l l' gone queued ∧ (∀ s ∈ gone.map Prod.fst, s ∈ ss) ∧
      ∀ s ∈ ss, s ∉ l'.slots := by
  induction ss generalizing l with
  | nil =>
    cases h
    exact ⟨[], [], Evicts.refl _, by simp, by simp⟩
  | cons s ss ih =>
    simp only [retireSlots, Option.bind_eq_bind, Option.bind_eq_some_iff] at h
    obtain ⟨l₁, h₁, h₂⟩ := h
    obtain ⟨gone, queued, he, hsub, hs⟩ := retireSlot_evicts h₁
    obtain ⟨gone', queued', he', hsub', hss⟩ := ih h₂
    refine ⟨gone ++ gone', queued ++ queued', he.trans he', ?_, ?_⟩
    · intro s' hs'
      rw [List.map_append, List.mem_append] at hs'
      rcases hs' with hs' | hs'
      · exact List.mem_cons.mpr (.inl (hsub s' hs'))
      · exact List.mem_cons_of_mem _ (hsub' s' hs')
    · rw [List.forall_mem_cons]
      exact ⟨fun hmem => hs ((he'.mem_slots s).mp hmem).2, hss⟩

/-- What `evict_old_slots` leaves is within its retention, and what it takes is
    not. -/
theorem evictOldSlots_evicts {sur : Surroundings} {fuel : ℕ}
    (h : l.evictOldSlots env sur fuel = some l') :
    ∃ gone queued, Evicts l l' gone queued ∧
      (∀ s ∈ gone.map Prod.fst, ∃ threshold, satAdd64 s threshold < l.lastSlot) ∧
      ∀ (s : ℕ) (acc : SlotAccumulator), l'.slots[s]? = some acc →
        l.lastSlot ≤ satAdd64 s (l.retention acc) := by
  simp only [evictOldSlots, Option.bind_eq_bind, Option.bind_eq_some_iff] at h
  obtain ⟨l₁, h₁, h₂⟩ := h
  cases h₂
  obtain ⟨gone, queued, he, hsub, hss⟩ := retireSlots_evicts h₁
  have hevict : ∀ s, s ∈ sur.hashOrder l.toEvict ↔ ∃ acc : SlotAccumulator,
      l.slots[s]? = some acc ∧ satAdd64 s (l.retention acc) < l.lastSlot := by
    intro s
    rw [(sur.hashOrder_perm _).mem_iff, toEvict]
    simp
  refine ⟨gone, queued, { he with seen := fun s hs => ?_ }, ?_, ?_⟩
  · show s ∈ Finset.filter (· ≥ l₁.blacklistFloor) l₁.recentlySeenSlots ∨ _
    rw [Finset.mem_filter, he.floor]
    rcases he.seen s hs with hs | hs
    · by_cases hfloor : l.blacklistFloor ≤ s
      · exact .inl ⟨hs, hfloor⟩
      · exact .inr (by omega)
    · exact .inr hs
  · intro s hs
    obtain ⟨acc, -, hlt⟩ := (hevict s).mp (hsub s hs)
    exact ⟨_, hlt⟩
  · intro s acc hacc
    by_contra hlt
    replace hacc : l₁.slots[s]? = some acc := hacc
    have hmem : s ∈ l₁.slots := (BTreeMap.mem_iff_getElem? _).mpr ⟨acc, hacc⟩
    rw [he.slots] at hacc
    split_ifs at hacc
    exact hss s ((hevict s).mpr ⟨acc, hacc, by omega⟩) hmem

theorem forceEvictOldestSlot_evicts {sur : Surroundings} {fuel : ℕ}
    (h : l.forceEvictOldestSlot env sur fuel = some l') :
    ∃ gone queued, Evicts l l' gone queued := by
  unfold forceEvictOldestSlot at h
  cases hhead : l.slots.keys.head? with
  | none =>
    rw [hhead] at h
    cases h
    exact ⟨[], [], Evicts.refl l⟩
  | some s =>
    rw [hhead] at h
    obtain ⟨gone, queued, he, -, -⟩ := retireSlot_evicts h
    exact ⟨gone, queued, he⟩

/-- Acquiring a buffer evicts nothing as long as the pool has one. -/
theorem acquire_evicts {sur : Surroundings} {fuel : ℕ} {buffer : Option ℕ}
    (h : l.acquireBufferWithFallback env sur fuel = some (l', buffer)) :
    ∃ gone queued, Evicts l l' gone queued ∧
      (l.pool.free ≠ [] → gone = [] ∧ l'.recentlySeenSlots = l.recentlySeenSlots) := by
  unfold acquireBufferWithFallback at h
  cases hfree : l.pool.acquire with
  | some b =>
    rw [hfree] at h
    cases h
    exact ⟨[], [], { Evicts.refl l with }, fun _ => ⟨rfl, rfl⟩⟩
  | none =>
    have hempty : l.pool.free = [] := by
      unfold ShredPool.acquire at hfree
      cases hl : l.pool.free with
      | nil => rfl
      | cons i is => rw [hl] at hfree; cases hfree
    simp only [hfree, Option.bind_eq_bind, Option.bind_eq_some_iff] at h
    obtain ⟨l₁, h₁, h⟩ := h
    obtain ⟨gone, queued, he, -, -⟩ := evictOldSlots_evicts h₁
    cases hfree₁ : l₁.pool.acquire with
    | some b =>
      rw [hfree₁] at h
      cases h
      exact ⟨gone, queued, { he with }, fun hne => absurd hempty hne⟩
    | none =>
      simp only [hfree₁, Option.bind_eq_some_iff] at h
      obtain ⟨l₂, h₂, h⟩ := h
      obtain ⟨gone', queued', he'⟩ := forceEvictOldestSlot_evicts h₂
      refine ⟨gone ++ gone', queued ++ queued', ?_, fun hne => absurd hempty hne⟩
      have htrans := he.trans he'
      cases hfree₂ : l₂.pool.acquire with
      | some b =>
        rw [hfree₂] at h
        cases h
        exact { htrans with }
      | none =>
        rw [hfree₂] at h
        cases h
        exact htrans

/-! ## Accepted packets -/

/-- The accumulator of `slot` took a shred; nothing else changed. -/
structure Stores (l l' : ShredListener C) (slot : ℕ) : Prop where
  lastSlot : l'.lastSlot = l.lastSlot
  maxAge : l'.maxAge = l.maxAge
  enableFec : l'.enableFec = l.enableFec
  retired : l'.retired = l.retired
  pending : l'.pendingBatches = l.pendingBatches
  seen : l'.recentlySeenSlots = l.recentlySeenSlots
  live : slot ∈ l'.slots
  slots : ∀ s : ℕ, s ≠ slot → l'.slots[s]? = l.slots[s]?

theorem finishCall_stores (l : ShredListener C) (slot : ℕ) (r : SlotAccumulator.CallState C) :
    Stores l (l.finishCall slot r).1 slot where
  lastSlot := rfl
  maxAge := rfl
  enableFec := rfl
  retired := rfl
  pending := rfl
  seen := rfl
  live := by simp [finishCall]
  slots s hs := by
    show (l.slots.insert slot _)[s]? = _
    rw [BTreeMap.getElem?_insert_eq, if_neg (Ne.symm hs)]

theorem finishCall_batch (l : ShredListener C) (slot : ℕ) (r : SlotAccumulator.CallState C) :
    ∀ b ∈ (l.finishCall slot r).2, b.1 = slot := by
  intro b hb
  simp only [finishCall] at hb
  split_ifs at hb
  · cases hb
  · cases hb
    rfl

/-- The listener took a packet for `slot`: it advanced to `slot`, which took
    `gone` out of it, and handed the packet to the accumulator of `slot`. -/
structure Accepts (l l₁ l' : ShredListener C) (slot : ℕ) (gone : List (ℕ × SlotAccumulator))
    (queued : List TxBatch) (batch : Option TxBatch) : Prop where
  inRange : l.slotOutOfRange slot = false
  unseen : slot ∉ l.recentlySeenSlots
  evicts : Evicts { l with lastSlot := max l.lastSlot slot } l₁ gone queued
  others : slot ∉ gone.map Prod.fst
  window : l.lastSlot < slot → ∀ (s : ℕ) (acc : SlotAccumulator), l₁.slots[s]? = some acc →
    slot ≤ satAdd64 s (l.retention acc)
  stores : Stores l₁ l' slot
  own : ∀ b ∈ batch, b.1 = slot

theorem slot_le_of_inRange {slot : ℕ} (h : l.slotOutOfRange slot = false) : slot ≤ u64Max := by
  simp only [slotOutOfRange, Bool.or_eq_false_iff, decide_eq_false_iff_not] at h
  have := h.1.1
  unfold maxPlausibleSlot at this
  unfold u64Max
  omega

theorem advanceSlot_evicts {sur : Surroundings} {fuel slot : ℕ}
    (hrange : l.slotOutOfRange slot = false) (h : l.advanceSlot env sur fuel slot = some l') :
    ∃ gone queued, Evicts { l with lastSlot := max l.lastSlot slot } l' gone queued ∧
      slot ∉ gone.map Prod.fst ∧
      (l.lastSlot < slot → ∀ (s : ℕ) (acc : SlotAccumulator), l'.slots[s]? = some acc →
        slot ≤ satAdd64 s (l.retention acc)) := by
  unfold advanceSlot at h
  split_ifs at h with hlt
  · rw [max_eq_right (le_of_lt hlt)]
    obtain ⟨gone, queued, he, hold, hwin⟩ := evictOldSlots_evicts h
    refine ⟨gone, queued, he, fun hmem => ?_, fun _ s acc hacc => hwin s acc hacc⟩
    obtain ⟨threshold, hlt'⟩ := hold slot hmem
    have := slot_le_of_inRange hrange
    simp only [satAdd64] at hlt'
    omega
  · cases h
    rw [max_eq_left (by omega)]
    exact ⟨[], [], Evicts.refl l, by simp, fun hlt' => absurd hlt' hlt⟩

theorem handleData_cases {sur : Surroundings} {fuel : ℕ} {handle : BufferHandle} {d : DataShred}
    {out : Option TxBatch} (h : l.handleData env sur fuel handle d = some (l', out)) :
    (out = none ∧ Evicts l l' [] []) ∨
      ∃ l₁ gone queued, Accepts l l₁ l' d.slot gone queued out := by
  unfold handleData at h
  split_ifs at h with hrange hseen
  · cases h
    exact .inl ⟨rfl, { Evicts.refl l with }⟩
  · cases h
    exact .inl ⟨rfl, { Evicts.refl l with }⟩
  simp only [Option.bind_eq_bind, Option.bind_eq_some_iff] at h
  obtain ⟨l₁, h₁, r, -, h⟩ := h
  rw [Bool.not_eq_true] at hrange
  obtain ⟨gone, queued, he, hothers, hwin⟩ := advanceSlot_evicts (by exact hrange) h₁
  cases h
  exact .inr ⟨l₁, gone, queued, hrange, hseen, { he with }, hothers, hwin,
    finishCall_stores l₁ d.slot r, finishCall_batch l₁ d.slot r⟩

theorem handleCode_cases {sur : Surroundings} {fuel : ℕ} {handle : BufferHandle} {c : CodeShred}
    {out : Option TxBatch} (h : l.handleCode env sur fuel handle c = some (l', out)) :
    (out = none ∧ Evicts l l' [] []) ∨
      l.enableFec = true ∧ ∃ l₁ gone queued, Accepts l l₁ l' c.slot gone queued out := by
  unfold handleCode at h
  simp only at h
  split_ifs at h with hrange hseen hfec
  · cases h
    exact .inl ⟨rfl, { Evicts.refl l with }⟩
  · cases h
    exact .inl ⟨rfl, { Evicts.refl l with }⟩
  · cases h
    exact .inl ⟨rfl, { Evicts.refl l with }⟩
  simp only [Option.bind_eq_bind, Option.bind_eq_some_iff] at h
  obtain ⟨l₁, h₁, r, -, h⟩ := h
  rw [Bool.not_eq_true] at hrange
  obtain ⟨gone, queued, he, hothers, hwin⟩ := advanceSlot_evicts (by exact hrange) h₁
  cases h
  exact .inr ⟨by simpa using hfec, l₁, gone, queued, hrange, hseen, { he with }, hothers, hwin,
    { finishCall_stores l₁ c.slot r with }, finishCall_batch l₁ c.slot r⟩

theorem handlePacketOwned_cases {sur : Surroundings} {fuel : ℕ} {handle : BufferHandle}
    {out : Option TxBatch} (h : l.handlePacketOwned env sur fuel handle = some (l', out)) :
    (out = none ∧ Evicts l l' [] []) ∨
      ∃ slot, packetSlot l.enableFec handle.bytes = some slot ∧
        ∃ l₁ gone queued, Accepts l l₁ l' slot gone queued out := by
  unfold handlePacketOwned at h
  unfold packetSlot
  simp only at h
  cases hparse : parseKind handle.bytes with
  | error e =>
    rw [hparse] at h
    cases h
    exact .inl ⟨rfl, { Evicts.refl l with }⟩
  | ok kind =>
    rw [hparse] at h
    cases kind with
    | data d =>
      rcases handleData_cases h with ⟨hout, he⟩ | ⟨l₁, gone, queued, ha⟩
      · exact .inl ⟨hout, { he with }⟩
      · exact .inr ⟨d.slot, rfl, l₁, gone, queued, { ha with evicts := { ha.evicts with } }⟩
    | code c =>
      rcases handleCode_cases h with ⟨hout, he⟩ | ⟨hfec, l₁, gone, queued, ha⟩
      · exact .inl ⟨hout, { he with }⟩
      · exact .inr ⟨c.slot, if_pos hfec, l₁, gone, queued,
          { ha with evicts := { ha.evicts with } }⟩

/-! ## Calls -/

/-- How a call goes: it pops a queued batch, finds no buffer, reads no datagram, or
    handles its packet. -/
inductive Serves (env : Env C) (sur : Surroundings) (fuel : ℕ) (l : ShredListener C) (q : Request)
    (l' : ShredListener C) (reply : Reply) : Prop
  | popped (datagram : Except IoErrorKind Bytes) (batch : TxBatch) (rest : List TxBatch) :
    q = .recvOne datagram → l.pendingBatches = batch :: rest →
      l' = { l with pendingBatches := rest } → reply = .queued batch →
      Serves env sur fuel l q l' reply
  | exhausted (l₁ : ShredListener C) :
    l.acquireBufferWithFallback env sur fuel = some (l₁, none) → l' = l₁.countPoolExhausted →
      reply.batch = none → Serves env sur fuel l q l' reply
  | failed (l₁ : ShredListener C) (idx : ℕ) :
    l.acquireBufferWithFallback env sur fuel = some (l₁, some idx) → l' = l₁.freeBuffer idx →
      reply.batch = none → Serves env sur fuel l q l' reply
  | handled (l₁ : ShredListener C) (idx : ℕ) (raw : Bytes) (out : Option TxBatch) :
    l.acquireBufferWithFallback env sur fuel = some (l₁, some idx) → raw ∈ l.incoming q →
      l₁.handlePacketOwned env sur fuel ⟨idx, raw⟩ = some (l', out) → reply = .own out →
      Serves env sur fuel l q l' reply

theorem request_serves {sur : Surroundings} {fuel : ℕ} {q : Request} {reply : Reply}
    (h : l.request env sur fuel q = some (l', reply)) : Serves env sur fuel l q l' reply := by
  cases q with
  | handlePacket raw =>
    obtain ⟨⟨l₂, out⟩, h₂, h⟩ := Option.bind_eq_some_iff.mp h
    cases h
    obtain ⟨⟨l₁, buffer⟩, h₁, h₂⟩ := Option.bind_eq_some_iff.mp h₂
    cases buffer with
    | none =>
      cases h₂
      exact .exhausted l₁ h₁ rfl rfl
    | some idx => exact .handled l₁ idx _ out h₁ rfl h₂ rfl
  | recvOne datagram =>
    unfold request recvOne at h
    cases hpend : l.pendingBatches with
    | cons batch rest =>
      rw [hpend] at h
      cases h
      exact .popped datagram batch rest rfl hpend rfl rfl
    | nil =>
      rw [hpend] at h
      obtain ⟨⟨l₂, result, readSocket⟩, h₂, h⟩ := Option.bind_eq_some_iff.mp h
      obtain ⟨⟨l₁, buffer⟩, h₁, h₂⟩ := Option.bind_eq_some_iff.mp h₂
      cases buffer with
      | none =>
        cases datagram with
        | error kind =>
          cases h₂
          cases h
          exact .exhausted l₁ h₁ rfl rfl
        | ok bytes =>
          cases h₂
          cases h
          exact .exhausted l₁ h₁ rfl rfl
      | some idx =>
        cases datagram with
        | error kind =>
          cases h₂
          cases h
          exact .failed l₁ idx h₁ rfl rfl
        | ok bytes =>
          obtain ⟨⟨l₃, out⟩, h₃, h₂⟩ := Option.bind_eq_some_iff.mp h₂
          cases h₂
          have hraw : bytes.take bufSize ∈ l.incoming (.recvOne (.ok bytes)) := by
            simp [incoming, hpend, Request.packet]
          cases out with
          | none =>
            cases h
            exact .handled l₁ idx _ none h₁ hraw h₃ rfl
          | some batch =>
            cases h
            exact .handled l₁ idx _ (some batch) h₁ hraw h₃ rfl

/-- What a call does. -/
inductive Outcome (l : ShredListener C) (q : Request) (l' : ShredListener C) (reply : Reply) : Prop
  | popped (datagram : Except IoErrorKind Bytes) (batch : TxBatch) (rest : List TxBatch) :
    q = .recvOne datagram → l.pendingBatches = batch :: rest →
      l' = { l with pendingBatches := rest } → reply = .queued batch → Outcome l q l' reply
  | refused (gone : List (ℕ × SlotAccumulator)) (queued : List TxBatch) :
    Evicts l l' gone queued → reply.batch = none → Outcome l q l' reply
  | accepted (raw : Bytes) (slot : ℕ) (l₁ l₂ : ShredListener C)
      (gone gone' : List (ℕ × SlotAccumulator)) (queued queued' : List TxBatch)
      (batch : Option TxBatch) :
    raw ∈ l.incoming q → packetSlot l.enableFec raw = some slot → Evicts l l₁ gone queued →
      (l.pool.free ≠ [] → gone = [] ∧ l₁.recentlySeenSlots = l.recentlySeenSlots) →
      Accepts l₁ l₂ l' slot gone' queued' batch → reply = .own batch → Outcome l q l' reply

theorem request_outcome {sur : Surroundings} {fuel : ℕ} {q : Request} {reply : Reply}
    (h : l.request env sur fuel q = some (l', reply)) : Outcome l q l' reply := by
  cases request_serves h with
  | popped datagram batch rest hq hpend hl' hreply =>
    exact .popped datagram batch rest hq hpend hl' hreply
  | exhausted l₁ h₁ hl' hreply =>
    obtain ⟨gone, queued, he, -⟩ := acquire_evicts h₁
    subst hl'
    exact .refused gone queued { he with } hreply
  | failed l₁ idx h₁ hl' hreply =>
    obtain ⟨gone, queued, he, -⟩ := acquire_evicts h₁
    subst hl'
    exact .refused gone queued { he with } hreply
  | handled l₁ idx raw out h₁ hraw h₂ hreply =>
    obtain ⟨gone, queued, he, hpool⟩ := acquire_evicts h₁
    rcases handlePacketOwned_cases h₂ with ⟨rfl, he'⟩ | ⟨slot, hslot, l₂, gone', queued', ha⟩
    · exact .refused _ _ (he.trans he') (by rw [hreply]; rfl)
    · rw [he.enableFec] at hslot
      exact .accepted _ slot l₁ l₂ gone gone' queued queued' out hraw hslot he hpool ha hreply

end ShredListener

end ShredStream
