import ShredStream.Listener.Outcome
import ShredStream.Slot.Build

/-!
# The queue of harvested batches

Evictions park the tail of a slot in `pending_batches`. `recv_one` pops that
queue before it reads a packet (`recvOne_drains`); `handle_packet` never looks
at it (`handlePacket_keeps_queue`), so a user of `handle_packet` alone gets
nothing that is queued: calls whose packets complete nothing (`YieldsNothing`) return
nothing (`handlePacket_drains_iff`).
-/

namespace ShredStream.ShredListener

variable {C : Type} {env : Env C} {fuel : ℕ} {l l' : ShredListener C}

/-- A call of `handle_packet`. -/
def IsPacket (q : Request) : Prop := ∃ raw, q = .handlePacket raw

/-- A call of `recv_one`. -/
def IsRecv (q : Request) : Prop := ∃ datagram, q = .recvOne datagram

/-- A call of `handle_packet` takes nothing from the queue. -/
theorem handlePacket_keeps_queue {sur : Surroundings} {q : Request} {reply : Reply}
    (hq : IsPacket q) (h : l.request env sur fuel q = some (l', reply)) :
    l.pendingBatches <+: l'.pendingBatches := by
  obtain ⟨raw, rfl⟩ := hq
  cases request_outcome h with
  | popped _ _ _ hrecv => cases hrecv
  | refused gone queued he =>
    rw [he.pending]
    exact List.prefix_append _ _
  | accepted raw' slot l₁ l₂ gone gone' queued queued' batch hraw hslot he hpool ha =>
    have hpend : l'.pendingBatches = l₁.pendingBatches ++ queued' := by
      rw [ha.stores.pending, ha.evicts.pending]
    rw [hpend, he.pending, List.append_assoc]
    exact List.prefix_append _ _

/-- Nor does a sequence of such calls. -/
theorem runRequests_keeps_queue {qs : List (Surroundings × Request)} {replies : List Reply}
    (hqs : ∀ q ∈ qs, IsPacket q.2) (h : runRequests env fuel l qs = some (l', replies)) :
    l.pendingBatches <+: l'.pendingBatches :=
  runRequests_invariant (fun _ l' => l.pendingBatches <+: l'.pendingBatches)
    (fun _ q => IsPacket q)
    (fun _ _ _ _ _ _ hpre hq hrun => hpre.trans (handlePacket_keeps_queue hq hrun))
    qs [] l l' replies (List.prefix_refl _) (throughout_of_forall hqs l) h

/-- `recv_one` returns the queued batches one by one, first in first out, and
    reads no packet meanwhile. -/
theorem recvOne_drains {qs : List (Surroundings × Request)} (hqs : ∀ q ∈ qs, IsRecv q.2)
    (hlen : qs.length = l.pendingBatches.length) :
    runRequests env fuel l qs =
      some ({ l with pendingBatches := [] }, l.pendingBatches.map Reply.queued) := by
  induction qs generalizing l with
  | nil =>
    have hempty : l.pendingBatches = [] := List.length_eq_zero_iff.mp hlen.symm
    rw [hempty]
    show some (l, []) = some ({ l with pendingBatches := [] }, [])
    rw [← hempty]
  | cons q qs ih =>
    obtain ⟨sur, q⟩ := q
    rw [List.forall_mem_cons] at hqs
    obtain ⟨datagram, rfl⟩ := hqs.1
    cases hpend : l.pendingBatches with
    | nil =>
      rw [hpend] at hlen
      cases hlen
    | cons batch rest =>
      have hpop : l.request env sur fuel (.recvOne datagram) =
          some ({ l with pendingBatches := rest }, .queued batch) := by
        unfold request recvOne
        rw [hpend]
        rfl
      have hrest := @ih { l with pendingBatches := rest } hqs.2 (by
        rw [hpend, List.length_cons, List.length_cons] at hlen
        exact Nat.succ.inj hlen)
      simp only [runRequests, hpop, hrest, Option.bind_eq_bind, Option.bind_some]
      rfl

/-- The packet of the call, if it is looked at, completes no transactions. -/
def YieldsNothing (env : Env C) (fuel : ℕ) (l : ShredListener C) (q : Surroundings × Request) :
    Prop :=
  ∀ l₁ idx raw l₂ out, l.acquireBufferWithFallback env q.1 fuel = some (l₁, some idx) →
    q.2.packet = some raw →
    l₁.handlePacketOwned env q.1 fuel ⟨idx, raw⟩ = some (l₂, out) → out = none

/-- Then `handle_packet` returns nothing. -/
theorem batch_of_yieldsNothing {q : Surroundings × Request} {reply : Reply} (hq : IsPacket q.2)
    (hown : YieldsNothing env fuel l q) (h : l.request env q.1 fuel q.2 = some (l', reply)) :
    reply.batch = none := by
  obtain ⟨sur, q⟩ := q
  obtain ⟨raw, rfl⟩ := hq
  obtain ⟨⟨l₂, out⟩, hcall, heq⟩ := Option.bind_eq_some_iff.mp h
  cases heq
  obtain ⟨⟨l₁, buffer⟩, hacquire, hcall⟩ := Option.bind_eq_some_iff.mp hcall
  cases buffer with
  | none =>
    cases hcall
    rfl
  | some idx => exact hown l₁ idx (raw.take bufSize) l' out hacquire rfl hcall

/-- A sequence of such calls returns nothing. -/
theorem runRequests_yields_nothing {qs : List (Surroundings × Request)} {replies : List Reply}
    (hqs : ∀ q ∈ qs, IsPacket q.2) (hrun : runRequests env fuel l qs = some (l', replies))
    (hown : ∀ pre q post l₁ rs, qs = pre ++ q :: post →
      runRequests env fuel l pre = some (l₁, rs) → YieldsNothing env fuel l₁ q) :
    replies.filterMap Reply.batch = [] := by
  induction qs generalizing l replies with
  | nil =>
    cases hrun
    rfl
  | cons q qs ih =>
    rw [List.forall_mem_cons] at hqs
    simp only [runRequests, Option.bind_eq_bind, Option.bind_eq_some_iff] at hrun
    obtain ⟨⟨l₁, reply⟩, hq, ⟨l₂, rest⟩, hrest, heq⟩ := hrun
    cases heq
    have hreply : reply.batch = none := batch_of_yieldsNothing hqs.1 (hown [] q qs l [] rfl rfl) hq
    rw [List.filterMap_cons_none hreply]
    refine ih hqs.2 hrest fun pre q' post l₃ rs hsplit hpre => ?_
    apply hown (q :: pre) q' post l₃ (reply :: rs) (by rw [hsplit, List.cons_append])
    simp only [runRequests, hq, hpre, Option.bind_eq_bind, Option.bind_some]
    rfl

/-- `q` further calls of `handle_packet` whose packets complete nothing hand back what
    was queued, `q` batches, and leave the queue empty, only when `q = 0`: they return
    nothing, and all that was queued is still there. As many calls of `recv_one` return
    all of it. -/
theorem handlePacket_drains_iff {qs : List (Surroundings × Request)} {replies : List Reply}
    (hqs : ∀ q ∈ qs, IsPacket q.2) (hrun : runRequests env fuel l qs = some (l', replies))
    (hlen : qs.length = l.pendingBatches.length)
    (hown : ∀ pre q post l₁ rs, qs = pre ++ q :: post →
      runRequests env fuel l pre = some (l₁, rs) → YieldsNothing env fuel l₁ q) :
    ((l'.pendingBatches = [] ∧ replies.filterMap Reply.batch = l.pendingBatches) ↔
      l.pendingBatches = []) ∧
    (l.pendingBatches <+: l'.pendingBatches ∧ replies.filterMap Reply.batch = []) ∧
    ∀ qs' : List (Surroundings × Request), (∀ q ∈ qs', IsRecv q.2) →
      qs'.length = l.pendingBatches.length → runRequests env fuel l qs' =
        some ({ l with pendingBatches := [] }, l.pendingBatches.map Reply.queued) := by
  have hkeeps := runRequests_keeps_queue hqs hrun
  have hnothing := runRequests_yields_nothing hqs hrun hown
  refine ⟨⟨fun h => ?_, fun h => ?_⟩, ⟨hkeeps, hnothing⟩,
    fun qs' hqs' hlen' => recvOne_drains hqs' hlen'⟩
  · rw [h.1] at hkeeps
    exact List.prefix_nil.mp hkeeps
  · rw [h] at hlen
    obtain rfl : qs = [] := List.length_eq_zero_iff.mp hlen
    cases hrun
    exact ⟨h, h.symm⟩

/-- Packets of slot 1 (a whole batch behind a gap) and slot 100, whose eviction
    of slot 1 queues that batch. -/
def queueingPackets : List (Surroundings × Request) :=
  [(quiet, .handlePacket (legacyPacket 1 5 0 (LegacyWire.encodeBatch [[LegacyWire.signedTx 1 []]]))),
    (quiet, .handlePacket (legacyPacket 100 0 0 []))]

theorem handlePacket_drains_iff_oneQueued :
    ∃ (l l' : ShredListener Unit) (replies replies' : List Reply),
      runRequests legacyEnv (2 ^ 32 + 1) (fromSocket {}) queueingPackets = some (l, replies) ∧
      runRequests legacyEnv (2 ^ 32 + 1) l [(quiet, .handlePacket [])] = some (l', replies') ∧
      l.pendingBatches.length = 1 ∧
      ((l'.pendingBatches = [] ∧ replies'.filterMap Reply.batch = l.pendingBatches) ↔
        l.pendingBatches = []) ∧
      (l.pendingBatches <+: l'.pendingBatches ∧ replies'.filterMap Reply.batch = []) ∧
      ∀ qs' : List (Surroundings × Request), (∀ q ∈ qs', IsRecv q.2) →
        qs'.length = l.pendingBatches.length → runRequests legacyEnv (2 ^ 32 + 1) l qs' =
          some ({ l with pendingBatches := [] }, l.pendingBatches.map Reply.queued) := by
  have hnext : (runRequests legacyEnv (2 ^ 32 + 1) (fromSocket {} : ShredListener Unit)
      queueingPackets).bind (fun r => (runRequests legacyEnv (2 ^ 32 + 1) r.1
        [(quiet, .handlePacket [])]).map fun _ => r.1.pendingBatches.length) = some 1 := by
    decide +kernel
  obtain ⟨⟨l, replies⟩, hrun, hnext⟩ := Option.bind_eq_some_iff.mp hnext
  obtain ⟨⟨l', replies'⟩, hrun', hlen⟩ := Option.map_eq_some_iff.mp hnext
  refine ⟨l, l', replies, replies', hrun, hrun', hlen,
    handlePacket_drains_iff ?_ hrun' hlen.symm fun pre q post l₁ rs hsplit _ => ?_⟩
  · intro q hq
    rw [List.mem_singleton.mp hq]
    exact ⟨[], rfl⟩
  · -- the empty packet does not parse
    obtain rfl : q = (quiet, .handlePacket []) := by
      have hmem : q ∈ pre ++ q :: post := by simp
      rw [← hsplit] at hmem
      exact List.mem_singleton.mp hmem
    rintro l₂ idx raw l₃ out - hraw howned
    obtain rfl : raw = [] := (Option.some.inj hraw).symm
    cases howned
    rfl

/-- The batch queued for slot 1 stays where it is. -/
theorem queued_batch_kept :
    ¬∀ (opts : ListenerOptions) (qs qs' : List (Surroundings × Request))
      (l l' : ShredListener Unit) (replies replies' : List Reply),
      opts.disableSalvageDelivery = false → (∀ q ∈ qs, IsPacket q.2) → (∀ q ∈ qs', IsPacket q.2) →
      runRequests legacyEnv (2 ^ 32 + 1) (fromSocket opts) qs = some (l, replies) →
      runRequests legacyEnv (2 ^ 32 + 1) l qs' = some (l', replies') →
      qs'.length = l.pendingBatches.length → (∀ r ∈ replies', r.batch = none) →
        l'.pendingBatches = [] := by
  intro h
  have hstate : (runRequests legacyEnv (2 ^ 32 + 1) (fromSocket {} : ShredListener Unit)
      queueingPackets).bind (fun r => (runRequests legacyEnv (2 ^ 32 + 1) r.1
        [(quiet, .handlePacket [])]).map fun r' =>
          (r.1.pendingBatches.length, r'.1.pendingBatches, r'.2.filterMap Reply.batch)) =
      some (1, [(1, [LegacyWire.signedTx 1 []])], []) := by
    decide +kernel
  obtain ⟨⟨l, replies⟩, hrun, hstate⟩ := Option.bind_eq_some_iff.mp hstate
  obtain ⟨⟨l', replies'⟩, hrun', hstate⟩ := Option.map_eq_some_iff.mp hstate
  simp only [Prod.mk.injEq] at hstate
  obtain ⟨hpend, hpend', hreplies⟩ := hstate
  have := h {} queueingPackets [(quiet, .handlePacket [])] l l' replies replies' rfl
    (by
      intro q hq
      rcases List.mem_cons.mp hq with rfl | hq
      · exact ⟨_, rfl⟩
      · rw [List.mem_singleton.mp hq]
        exact ⟨_, rfl⟩)
    (by
      intro q hq
      rw [List.mem_singleton.mp hq]
      exact ⟨_, rfl⟩)
    hrun hrun' (by rw [hpend]; rfl) (List.filterMap_eq_nil_iff.mp hreplies)
  rw [hpend'] at this
  cases this

end ShredStream.ShredListener
