import ShredStream.Listener.Basic

/-!
# Sequences of calls on a listener

A user drives a listener through `handle_packet` or through `recv_one` (which
`TransactionIter::next` calls in a loop). `runRequests` makes such calls one
after the other and collects what they give back.
-/

namespace ShredStream

/-- A call of the listener's user. -/
inductive Request
  | handlePacket (raw : Bytes)
  /-- `recv_one`, with what `socket.recv` gives if the call reads the socket. -/
  | recvOne (datagram : Except IoErrorKind Bytes)

/-- The bytes a call brings in. -/
def Request.packet : Request → Option Bytes
  | handlePacket raw => some (raw.take bufSize)
  | recvOne (.ok bytes) => some (bytes.take bufSize)
  | recvOne (.error _) => none

/-- What a call gives back. -/
inductive Reply
  /-- What the packet of the call itself completed. -/
  | own (batch : Option TxBatch)
  /-- A batch taken from `pending_batches`. -/
  | queued (batch : TxBatch)
  | ioError (kind : IoErrorKind)

/-- The batch a reply takes from the queue. -/
def Reply.fromQueue : Reply → Option TxBatch
  | queued batch => some batch
  | _ => none

/-- The batch in a reply. -/
def Reply.batch : Reply → Option TxBatch
  | own batch => batch
  | queued batch => some batch
  | ioError _ => none

theorem Reply.fromQueue_of_batch {reply : Reply} (h : reply.batch = none) :
    reply.fromQueue = none := by
  cases reply with
  | own => rfl
  | queued batch => cases h
  | ioError => rfl

/-- A legacy data packet: signature, variant, slot, index, version, FEC set,
    parent offset, flags, size and payload. -/
def legacyPacket (slot index : ℕ) (flags : UInt8) (payload : Bytes) : Bytes :=
  List.replicate sizeOfSignature 0 ++ [0xA5] ++ leBytes 8 slot ++ leBytes 4 index ++
    leBytes 2 0 ++ leBytes 4 0 ++ leBytes 2 0 ++ [flags] ++
    leBytes 2 (dataHeaderSize + payload.length) ++ payload

/-- Surroundings in which no time passes. -/
def quiet : Surroundings where
  clock := { now := fun _ => 0, elapsed := fun _ _ => 0 }
  hashOrder := id
  hashOrder_perm := List.Perm.refl

namespace ShredListener

variable {C : Type}

/-- Make a call. -/
def request (env : Env C) (sur : Surroundings) (fuel : ℕ) (l : ShredListener C) :
    Request → Option (ShredListener C × Reply)
  | .handlePacket raw => do
    let (l, batch) ← l.handlePacket env sur fuel raw
    return (l, .own batch)
  | .recvOne datagram => do
    let (l, result, readSocket) ← l.recvOne env sur fuel datagram
    match result with
    | .error kind => return (l, .ioError kind)
    | .ok (some batch) => return (l, if readSocket then .own (some batch) else .queued batch)
    | .ok none => return (l, .own none)

/-- Make calls one after the other, each in its own surroundings. -/
def runRequests (env : Env C) (fuel : ℕ) :
    ShredListener C → List (Surroundings × Request) → Option (ShredListener C × List Reply)
  | l, [] => some (l, [])
  | l, (sur, q) :: qs => do
    let (l, reply) ← l.request env sur fuel q
    let (l, replies) ← runRequests env fuel l qs
    return (l, reply :: replies)

theorem runRequests_append {env : Env C} {fuel : ℕ} {l l₁ l₂ : ShredListener C}
    {qs qs' : List (Surroundings × Request)} {replies replies' : List Reply}
    (h : runRequests env fuel l qs = some (l₁, replies))
    (h' : runRequests env fuel l₁ qs' = some (l₂, replies')) :
    runRequests env fuel l (qs ++ qs') = some (l₂, replies ++ replies') := by
  induction qs generalizing l replies with
  | nil =>
    cases h
    exact h'
  | cons q qs ih =>
    simp only [runRequests, Option.bind_eq_bind, Option.bind_eq_some_iff] at h
    obtain ⟨⟨l', reply⟩, hq, ⟨l'', rest⟩, hrest, heq⟩ := h
    cases heq
    simp only [List.cons_append, runRequests, hq, Option.bind_eq_bind, Option.bind_some, ih hrest]
    rfl

/-- A run apart from its last call. -/
theorem runRequests_snoc {env : Env C} {fuel : ℕ} {l l' : ShredListener C}
    {qs : List (Surroundings × Request)} {sur : Surroundings} {q : Request} {replies : List Reply}
    (h : runRequests env fuel l (qs ++ [(sur, q)]) = some (l', replies)) :
    ∃ l₁ replies₁ reply, runRequests env fuel l qs = some (l₁, replies₁) ∧
      l₁.request env sur fuel q = some (l', reply) ∧ replies = replies₁ ++ [reply] := by
  induction qs generalizing l replies with
  | nil =>
    obtain ⟨⟨l₁, reply⟩, hq, h⟩ := Option.bind_eq_some_iff.mp h
    cases h
    exact ⟨l, [], reply, rfl, hq, rfl⟩
  | cons q' qs ih =>
    obtain ⟨⟨l₁, reply'⟩, hq', h⟩ := Option.bind_eq_some_iff.mp h
    obtain ⟨⟨l₂, rest⟩, hrest, heq⟩ := Option.bind_eq_some_iff.mp h
    cases heq
    obtain ⟨l₃, replies₁, reply, hrun, hq, rfl⟩ := ih hrest
    refine ⟨l₃, reply' :: replies₁, reply, ?_, hq, rfl⟩
    obtain ⟨sur', q'⟩ := q'
    simp only [runRequests, hq', hrun, Option.bind_eq_bind, Option.bind_some]
    rfl

/-- Every call of a sequence satisfies `P` in the state in which it is made. -/
def Throughout (env : Env C) (fuel : ℕ) (P : ShredListener C → Request → Prop) :
    ShredListener C → List (Surroundings × Request) → Prop
  | _, [] => True
  | l, (sur, q) :: qs => P l q ∧ ∀ r ∈ l.request env sur fuel q, Throughout env fuel P r.1 qs

instance decidableThroughout (env : Env C) (fuel : ℕ) {P : ShredListener C → Request → Prop}
    [∀ l q, Decidable (P l q)] (l : ShredListener C) (qs : List (Surroundings × Request)) :
    Decidable (Throughout env fuel P l qs) :=
  match qs with
  | [] => isTrue trivial
  | (sur, q) :: qs =>
    have : DecidablePred fun r : ShredListener C × Reply => Throughout env fuel P r.1 qs :=
      fun r => decidableThroughout env fuel r.1 qs
    inferInstanceAs (Decidable (P l q ∧
      ∀ r ∈ l.request env sur fuel q, Throughout env fuel P r.1 qs))

theorem throughout_of_forall {env : Env C} {fuel : ℕ} {P : Request → Prop}
    {qs : List (Surroundings × Request)} (h : ∀ q ∈ qs, P q.2) (l : ShredListener C) :
    Throughout env fuel (fun _ q => P q) l qs := by
  induction qs generalizing l with
  | nil => trivial
  | cons q qs ih =>
    rw [List.forall_mem_cons] at h
    exact ⟨h.1, fun r _ => ih h.2 r.1⟩

/-- Partial correctness of a sequence of calls whose members satisfy `P`. The
    invariant may speak about the replies given so far. -/
theorem runRequests_invariant {env : Env C} {fuel : ℕ} (I : List Reply → ShredListener C → Prop)
    (P : ShredListener C → Request → Prop)
    (hstep : ∀ pre sur l q l' reply, I pre l → P l q →
      l.request env sur fuel q = some (l', reply) → I (pre ++ [reply]) l') :
    ∀ qs pre l l' replies, I pre l → Throughout env fuel P l qs →
      runRequests env fuel l qs = some (l', replies) → I (pre ++ replies) l' := by
  intro qs
  induction qs with
  | nil =>
    intro pre l l' replies hl _ h
    cases h
    rwa [List.append_nil]
  | cons q qs ih =>
    obtain ⟨sur, q⟩ := q
    intro pre l l' replies hl hP h
    simp only [runRequests, Option.bind_eq_bind, Option.bind_eq_some_iff] at h
    obtain ⟨⟨l₁, reply⟩, h₁, ⟨l₂, replies'⟩, h₂, h₃⟩ := h
    cases h₃
    have := ih (pre ++ [reply]) l₁ _ _ (hstep pre sur l q l₁ reply hl hP.1 h₁)
      (hP.2 (l₁, reply) h₁) h₂
    rwa [List.append_assoc] at this

/-- Total correctness of a sequence of calls whose members satisfy `P`. -/
theorem runRequests_total {env : Env C} {fuel : ℕ} (I : ShredListener C → Prop)
    (P : ShredListener C → Request → Prop)
    (hstep : ∀ sur l q, I l → P l q →
      ∃ l' reply, l.request env sur fuel q = some (l', reply) ∧ I l') :
    ∀ qs l, I l → Throughout env fuel P l qs →
      ∃ l' replies, runRequests env fuel l qs = some (l', replies) ∧ I l' := by
  intro qs
  induction qs with
  | nil => exact fun l hl _ => ⟨l, [], rfl, hl⟩
  | cons q qs ih =>
    obtain ⟨sur, q⟩ := q
    intro l hl hP
    obtain ⟨l₁, reply, h₁, hl₁⟩ := hstep sur l q hl hP.1
    obtain ⟨l₂, replies, h₂, hl₂⟩ := ih l₁ hl₁ (hP.2 _ h₁)
    refine ⟨l₂, reply :: replies, ?_, hl₂⟩
    simp only [runRequests, h₁, h₂, Option.bind_eq_bind, Option.bind_some]
    rfl

end ShredListener

end ShredStream
