import ShredStream.Library.Pull
import ShredStream.Listener.AnyQueue
import ShredStream.Listener.Requests
import ShredStream.Slot.Build

/-!
# The iterators (`src/listener.rs`, lines 612–688)

`TransactionIter::next` calls `recv_one` until it gives a batch or an error that
is not retried. `ShredIter::next` reads the socket itself and parses headers
only. What `socket.recv` gives, call after call, is a list of readings; `next`
consumes as many of them as it makes calls. When the list is used up, `next`
blocks: it has no answer.

Specification: `absorb` hands out at once what a reading leads to, so there is no
queue, and `Pull.readAll` does that for all readings.

Main results:

* `transactions_of_readings`: the iterator hands out the batches of its readings
  one by one.
* `shreds_of_readings`: the same for `ShredIter`, which yields the data shreds
  among the datagrams.
-/

namespace ShredStream

/-- The kinds of error after which the iterators read again (lines 637–642). -/
def IoErrorKind.retried : IoErrorKind → Bool
  | wouldBlock | interrupted | timedOut => true
  | other => false

/-- What a call of `socket.recv` gives, with the surroundings of that call. -/
abbrev Reading := Surroundings × Except IoErrorKind Bytes

/-- `TransactionIter` (lines 618–620). The listener's field `last_io_error_kind`,
    which only the iterators write, is kept here. -/
structure TransactionIter (C : Type) where
  listener : ShredListener C
  lastIoErrorKind : Option IoErrorKind := none

namespace TransactionIter

variable {C : Type}

/-- `TransactionIter::next` (lines 631–650): what it returns, if it does. -/
def next (env : Env C) (fuel : ℕ) : TransactionIter C → List Reading →
    Option (TransactionIter C × Option (Option TxBatch) × List Reading)
  | it, [] =>
    match it.listener.pendingBatches with
    | batch :: rest =>
      some ({ it with listener := { it.listener with pendingBatches := rest } },
        some (some batch), [])
    | [] => some (it, none, [])
  | it, (sur, datagram) :: script => do
    let (l, result, readSocket) ← it.listener.recvOne env sur fuel datagram
    match result with
    | .ok (some batch) =>
      return ({ it with listener := l }, some (some batch),
        if readSocket then script else (sur, datagram) :: script)
    | .ok none => next env fuel { it with listener := l } script
    | .error kind =>
      if kind.retried then next env fuel { it with listener := l } script
      else return ({ listener := l, lastIoErrorKind := some kind }, some none, script)

/-- Call `next` `n` times, or until it blocks. -/
def run (env : Env C) (fuel : ℕ) : ℕ → TransactionIter C → List Reading →
    Option (TransactionIter C × List (Option TxBatch) × List Reading)
  | 0, it, script => some (it, [], script)
  | n + 1, it, script => do
    let (it, answer, script) ← it.next env fuel script
    match answer with
    | none => return (it, [], script)
    | some a => do
      let (it, answers, script) ← run env fuel n it script
      return (it, a :: answers, script)

/-! ## Specification -/

/-- The listener with nothing queued. -/
def drained (it : TransactionIter C) : TransactionIter C :=
  { it with listener := { it.listener with pendingBatches := [] } }

/-- What the queue still has to give. -/
def queue (it : TransactionIter C) : List (Option TxBatch) := it.listener.pendingBatches.map some

/-- A call of `recv_one` whose `socket.recv` fails: the buffer goes back. -/
def pollFailed (env : Env C) (sur : Surroundings) (fuel : ℕ) (l : ShredListener C) :
    Option (ShredListener C) := do
  let (l, buffer) ← l.acquireBufferWithFallback env sur fuel
  match buffer with
  | none => return l.countPoolExhausted
  | some idx => return l.freeBuffer idx

/-- Absorb a reading: the batch that the packet completes comes first, then the
    tails that were harvested to make room. An error that is not retried shows
    as a `none`, and its kind is kept. -/
def absorb (env : Env C) (fuel : ℕ) (it : TransactionIter C) :
    Reading → Option (TransactionIter C × List (Option TxBatch))
  | (sur, .ok bytes) => do
    let (l, own) ← it.listener.handlePacket env sur fuel bytes
    let it := { it with listener := l }
    return (it.drained, own.toList.map some ++ it.queue)
  | (sur, .error kind) => do
    let l ← pollFailed env sur fuel it.listener
    let it : TransactionIter C :=
      { listener := l, lastIoErrorKind := if kind.retried then it.lastIoErrorKind else some kind }
    return (it.drained, (if kind.retried then [] else [none]) ++ it.queue)

/-! ## Refinement -/

variable {env : Env C} {fuel : ℕ} {sur : Surroundings} {l : ShredListener C}
  {it it' : TransactionIter C}

theorem recvOne_pop {batch : TxBatch} {rest : List TxBatch}
    (h : l.pendingBatches = batch :: rest) (datagram : Except IoErrorKind Bytes) :
    l.recvOne env sur fuel datagram =
      some ({ l with pendingBatches := rest }, .ok (some batch), false) := by
  unfold ShredListener.recvOne
  rw [h]

/-- With nothing queued, `recv_one` does to a datagram what `handle_packet` does. -/
theorem recvOne_datagram (h : l.pendingBatches = []) (bytes : Bytes) :
    l.recvOne env sur fuel (.ok bytes) =
      (l.handlePacket env sur fuel bytes).map fun r => (r.1, .ok r.2, true) := by
  unfold ShredListener.recvOne ShredListener.handlePacket
  rw [h]
  rcases l.acquireBufferWithFallback env sur fuel with _ | ⟨l₁, _ | idx⟩
  · rfl
  · rfl
  · show (l₁.handlePacketOwned env sur fuel _).bind _ = (l₁.handlePacketOwned env sur fuel _).map _
    rw [Option.map_eq_bind]
    rfl

theorem recvOne_failed (h : l.pendingBatches = []) (kind : IoErrorKind) :
    l.recvOne env sur fuel (.error kind) =
      (pollFailed env sur fuel l).map fun l => (l, .error kind, true) := by
  unfold ShredListener.recvOne pollFailed
  rw [h]
  rcases l.acquireBufferWithFallback env sur fuel with _ | ⟨l₁, _ | idx⟩ <;> rfl

theorem drained_of_empty (h : it.listener.pendingBatches = []) : it.drained = it := by
  unfold drained
  rw [← h]

/-- What `Pull.next` and `Pull.run` see of an iterator. -/
def view {α : Type} (r : TransactionIter C × α) : (TransactionIter C × List (Option TxBatch)) × α :=
  ((r.1.drained, r.1.queue), r.2)

/-- `next` is `Pull.next` over `absorb`. -/
theorem next_refines (script : List Reading) :
    Pull.next (absorb env fuel) it.drained it.queue script =
      (it.next env fuel script).map view := by
  induction script generalizing it with
  | nil =>
    unfold queue next
    cases h : it.listener.pendingBatches with
    | nil =>
      rw [List.map_nil, Pull.next, Option.map_some, view, queue, h]
      rfl
    | cons batch rest =>
      rw [List.map_cons, Pull.next]
      rfl
  | cons reading script ih =>
    obtain ⟨sur, datagram⟩ := reading
    unfold next
    cases h : it.listener.pendingBatches with
    | cons batch rest =>
      rw [recvOne_pop h, queue, h, List.map_cons, Pull.next]
      rfl
    | nil =>
      rw [queue, h, List.map_nil, drained_of_empty h, Pull.next]
      cases datagram with
      | ok bytes =>
        rw [recvOne_datagram h, absorb]
        rcases it.listener.handlePacket env sur fuel bytes with _ | ⟨l, _ | batch⟩
        · rfl
        · exact @ih { it with listener := l }
        · show Pull.next _ _ (some batch :: _) script = _
          rw [Pull.next]
          rfl
      | error kind =>
        rw [recvOne_failed h, absorb]
        rcases pollFailed env sur fuel it.listener with _ | l
        · rfl
        · cases hkind : kind.retried with
          | true =>
            simp only [Option.map_some, Option.bind_eq_bind, Option.bind_some, hkind, if_true]
            exact @ih { it with listener := l }
          | false =>
            simp only [Option.map_some, Option.bind_eq_bind, Option.bind_some, hkind]
            show Pull.next _ _ (none :: _) script = _
            rw [Pull.next]
            rfl

theorem run_refines (n : ℕ) (script : List Reading) :
    Pull.run (absorb env fuel) n it.drained it.queue script =
      (run env fuel n it script).map view := by
  induction n generalizing it script with
  | zero => rfl
  | succ n ih =>
    rw [Pull.run, run, next_refines]
    rcases it.next env fuel script with _ | ⟨it₁, _ | a, script₁⟩
    · rfl
    · rfl
    · show (Pull.run _ n it₁.drained it₁.queue script₁).map _ =
        ((run env fuel n it₁ script₁).bind _).map _
      rw [ih, Option.map_map, Option.map_bind, Option.map_eq_bind]
      rfl

/-- Whatever was queued, whatever the socket gives and however often `next` is
    called: the answers and then the queue are what was queued and then, reading
    after reading, the batch which the datagram completes and the tails harvested
    meanwhile. So each batch is handed out once, in that order, no datagram is
    skipped or read twice, a retried error shows nowhere, and any other error
    shows as one `none`, in its place. `next` blocks only when it has handed out
    everything. -/
theorem transactions_of_readings {n : ℕ} {script rest : List Reading}
    {answers : List (Option TxBatch)} (h : run env fuel n it script = some (it', answers, rest)) :
    ∃ used stream, script = used ++ rest ∧
      Pull.readAll (absorb env fuel) it.drained used = some (it'.drained, stream) ∧
      it.queue ++ stream = answers ++ it'.queue ∧
      (answers.length < n → rest = [] ∧ it'.listener.pendingBatches = []) := by
  have hrun : Pull.run (absorb env fuel) n it.drained it.queue script =
      some ((it'.drained, it'.queue), answers, rest) := by
    rw [run_refines, h]
    rfl
  obtain ⟨used, stream, hused, hread, hout, hend⟩ := Pull.run_spec hrun
  exact ⟨used, stream, hused, hread, hout, fun hlen =>
    ⟨(hend hlen).1, List.map_eq_nil_iff.mp (hend hlen).2⟩⟩

/-- A timeout, a packet of slot 1 (a whole batch behind a gap), an error and a packet
    of slot 100, whose eviction of slot 1 queues that batch: the third call blocks. -/
theorem transactions_of_readings_script :
    let batch := LegacyWire.encodeBatch [[LegacyWire.signedTx 1 []]]
    let script : List Reading := [(quiet, .error .timedOut), (quiet, .ok (legacyPacket 1 5 0 batch)),
      (quiet, .error .other), (quiet, .ok (legacyPacket 100 0 0 []))]
    ∃ it' answers rest, run legacyEnv (2 ^ 32 + 1) 3 ⟨.fromSocket {}, none⟩ script =
        some (it', answers, rest) ∧
      answers = [none, some (1, [LegacyWire.signedTx 1 []])] ∧
      ∃ used stream, script = used ++ rest ∧
        Pull.readAll (absorb legacyEnv (2 ^ 32 + 1)) (drained ⟨.fromSocket {}, none⟩) used =
          some (it'.drained, stream) ∧
        queue ⟨(.fromSocket {} : ShredListener Unit), none⟩ ++ stream = answers ++ it'.queue ∧
        (answers.length < 3 → rest = [] ∧ it'.listener.pendingBatches = []) := by
  intro batch script
  have hanswers : (run legacyEnv (2 ^ 32 + 1) 3
      ⟨(.fromSocket {} : ShredListener Unit), none⟩ script).map (·.2.1) =
        some [none, some (1, [LegacyWire.signedTx 1 []])] := by
    decide +kernel
  obtain ⟨⟨it', answers, rest⟩, hrun, hanswers⟩ := Option.map_eq_some_iff.mp hanswers
  exact ⟨it', answers, rest, hrun, hanswers, transactions_of_readings hrun⟩

/-! ## The other way to drive a listener -/

/-- The datagrams that `handle_packet` is called with, as readings. -/
def readings (packets : List (Surroundings × Bytes)) : List Reading :=
  packets.map fun p => (p.1, .ok p.2)

/-- The calls of `handle_packet` with these packets. -/
def requests (packets : List (Surroundings × Bytes)) : List (Surroundings × Request) :=
  packets.map fun p => (p.1, .handlePacket p.2)

/-- `own` and `tails` merged, each in its order. -/
structure Merges (batches own tails : List TxBatch) : Prop where
  perm : batches.Perm (own ++ tails)
  own : own.Sublist batches
  tails : tails.Sublist batches

theorem Merges.append {b₁ b₂ o₁ o₂ t₁ t₂ : List TxBatch} (h₁ : Merges b₁ o₁ t₁)
    (h₂ : Merges b₂ o₂ t₂) : Merges (b₁ ++ b₂) (o₁ ++ o₂) (t₁ ++ t₂) where
  perm := by
    refine (h₁.perm.append h₂.perm).trans ?_
    rw [List.append_assoc, List.append_assoc]
    refine List.Perm.append_left o₁ ?_
    rw [← List.append_assoc, ← List.append_assoc]
    exact List.perm_append_comm.append_right t₂
  own := h₁.own.append h₂.own
  tails := h₁.tails.append h₂.tails

/-- A listener whose queue is drained after every packet and one whose queue
    nobody drains do the same with the packets. -/
theorem readAll_readings {l₁ : ShredListener C} {replies : List Reply}
    {packets : List (Surroundings × Bytes)} (kind : Option IoErrorKind)
    (h : ShredListener.runRequests env fuel l (requests packets) = some (l₁, replies)) :
    ∃ batches tails, Pull.readAll (absorb env fuel) (drained ⟨l, kind⟩) (readings packets) =
        some (drained ⟨l₁, kind⟩, batches.map some) ∧
      l₁.pendingBatches = l.pendingBatches ++ tails ∧
      Merges batches (replies.filterMap Reply.batch) tails := by
  induction packets generalizing l replies with
  | nil =>
    cases h
    exact ⟨[], [], rfl, (List.append_nil _).symm, .refl _, .slnil, .slnil⟩
  | cons p packets ih =>
    obtain ⟨sur, raw⟩ := p
    obtain ⟨⟨l', reply⟩, hq, h⟩ := Option.bind_eq_some_iff.mp h
    obtain ⟨⟨_, replies'⟩, hrest, heq⟩ := Option.bind_eq_some_iff.mp h
    cases heq
    obtain ⟨⟨_, own⟩, hpacket, heq⟩ := Option.bind_eq_some_iff.mp hq
    cases heq
    obtain ⟨batches, tails, hread, hpend, hmerge⟩ := ih hrest
    -- the packet does the same to the drained listener
    let l₀ : ShredListener C := { l with pendingBatches := [] }
    have henq : l = l₀.enqueue l.pendingBatches := by
      simp [l₀, ShredListener.enqueue]
    rw [henq, ShredListener.handlePacket_enqueue] at hpacket
    obtain ⟨⟨l₂, own'⟩, hpacket₀, heq⟩ := Option.map_eq_some_iff.mp hpacket
    cases heq
    have habsorb : absorb env fuel (drained ⟨l, kind⟩) (sur, .ok raw) =
        some (drained ⟨l₂, kind⟩, own'.toList.map some ++ queue ⟨l₂, kind⟩) := by
      show (l₀.handlePacket env sur fuel raw).bind _ = _
      rw [hpacket₀]
      rfl
    refine ⟨(own'.toList ++ l₂.pendingBatches) ++ batches, l₂.pendingBatches ++ tails, ?_, ?_, ?_⟩
    · show Pull.readAll (absorb env fuel) (drained ⟨l, kind⟩) ((sur, .ok raw) :: readings packets) = _
      rw [Pull.readAll_cons habsorb hread]
      simp [queue]
    · rw [hpend, ShredListener.enqueue_pendingBatches, List.append_assoc]
    · have hown : List.filterMap Reply.batch (Reply.own own' :: replies') =
          own'.toList ++ replies'.filterMap Reply.batch := by
        cases own' <;> rfl
      show Merges _ (List.filterMap Reply.batch (Reply.own own' :: replies')) _
      rw [hown]
      exact Merges.append ⟨.refl _, List.sublist_append_left _ _, List.sublist_append_right _ _⟩
        hmerge

/-- The same packets through `handle_packet`, whose user never sees the queue, and
    through the iterator: the listener ends in the same state but for the queue,
    and the iterator's batches are those which `handle_packet` returns and those
    it leaves in the queue, merged, and nothing else. -/
theorem transactions_agree_with_handlePacket {l₁ : ShredListener C} {replies : List Reply}
    {packets : List (Surroundings × Bytes)}
    (h : ShredListener.runRequests env fuel it.listener (requests packets) = some (l₁, replies)) :
    ∃ batches, Merges batches (replies.filterMap Reply.batch) l₁.pendingBatches ∧
      ∀ n > batches.length, run env fuel n it (readings packets) =
        some (drained { it with listener := l₁ }, batches.map some, []) := by
  obtain ⟨batches, tails, hread, hpend, hmerge⟩ := readAll_readings it.lastIoErrorKind h
  refine ⟨it.listener.pendingBatches ++ batches, ?_, fun n hn => ?_⟩
  · rw [hpend]
    have hqueue : Merges it.listener.pendingBatches [] it.listener.pendingBatches :=
      ⟨.refl _, List.nil_sublist _, .refl _⟩
    exact hqueue.append hmerge
  · have hrun : (run env fuel n it (readings packets)).map view = some
        ((drained { it with listener := l₁ }, []), (it.queue ++ batches.map some), []) := by
      rw [← run_refines]
      refine Pull.run_of_readAll hread ?_
      rw [queue, ← List.map_append, List.length_map]
      exact hn
    obtain ⟨⟨it', answers, rest⟩, hrun', hview⟩ := Option.map_eq_some_iff.mp hrun
    simp only [view, Prod.mk.injEq] at hview
    obtain ⟨⟨hit, hqueue⟩, rfl, rfl⟩ := hview
    rw [hrun', ← hit, drained_of_empty (List.map_eq_nil_iff.mp hqueue), List.map_append]
    rfl

/-- A batch of slot 1 that completes, then one behind a gap, which the eviction by
    slot 100 harvests. -/
theorem transactions_agree_with_handlePacket_oneQueued :
    let batch (n : ℕ) := LegacyWire.encodeBatch [[LegacyWire.signedTx n []]]
    let packets := [(quiet, legacyPacket 1 0 0x40 (batch 1)), (quiet, legacyPacket 1 5 0 (batch 2)),
      (quiet, legacyPacket 100 0 0 [])]
    ∃ (l₁ : ShredListener Unit) (replies : List Reply),
      ShredListener.runRequests legacyEnv (2 ^ 32 + 1) (.fromSocket {}) (requests packets) =
        some (l₁, replies) ∧
      l₁.pendingBatches = [(1, [LegacyWire.signedTx 2 []])] ∧
      ∃ batches, Merges batches (replies.filterMap Reply.batch) l₁.pendingBatches ∧
        ∀ n > batches.length,
          run legacyEnv (2 ^ 32 + 1) n ⟨.fromSocket {}, none⟩ (readings packets) =
            some (drained ⟨l₁, none⟩, batches.map some, []) := by
  intro batch packets
  have hqueue : (ShredListener.runRequests legacyEnv (2 ^ 32 + 1)
      (.fromSocket {} : ShredListener Unit) (requests packets)).map (·.1.pendingBatches) =
        some [(1, [LegacyWire.signedTx 2 []])] := by
    decide +kernel
  obtain ⟨⟨l₁, replies⟩, hrun, hqueue⟩ := Option.map_eq_some_iff.mp hqueue
  have hdrive : ShredListener.runRequests legacyEnv (2 ^ 32 + 1)
      (TransactionIter.listener ⟨.fromSocket {}, none⟩) (requests packets) = some (l₁, replies) :=
    hrun
  exact ⟨l₁, replies, hrun, hqueue, transactions_agree_with_handlePacket hdrive⟩

end TransactionIter

/-! ## Shreds -/

/-- `ParsedShred` (lines 57–63 of `src/parser.rs`). -/
structure ParsedShred where
  slot : ℕ
  index : ℕ
  payload : Bytes
  batchComplete : Bool
  lastInSlot : Bool
  deriving DecidableEq, Repr

/-- `parse_shred` (lines 221–232 of `src/parser.rs`). -/
def parseShred (raw : Bytes) : Option ParsedShred :=
  match parseKind raw with
  | .ok (.data d) => some {
      slot := d.slot
      index := d.index
      payload := d.payload
      batchComplete := d.batchComplete
      lastInSlot := d.lastInSlot }
  | _ => none

/-- `RawShred` (lines 612–616). -/
structure RawShred where
  slot : ℕ
  index : ℕ
  payloadLen : ℕ
  deriving DecidableEq, Repr

namespace ShredIter

/-- `ShredIter::next` (lines 661–687). Of the listener it uses the socket and the
    field `last_io_error_kind`, which is its state here. -/
def next : Option IoErrorKind → List (Except IoErrorKind Bytes) →
    Option IoErrorKind × Option (Option RawShred) × List (Except IoErrorKind Bytes)
  | last, [] => (last, none, [])
  | last, .error kind :: script =>
    if kind.retried then next last script else (some kind, some none, script)
  | last, .ok bytes :: script =>
    match parseShred (bytes.take bufSize) with
    | some shred =>
      (last, some (some ⟨shred.slot, shred.index, shred.payload.length⟩), script)
    | none => next last script

/-- Call `next` `n` times, or until it blocks. -/
def run : ℕ → Option IoErrorKind → List (Except IoErrorKind Bytes) →
    Option IoErrorKind × List (Option RawShred) × List (Except IoErrorKind Bytes)
  | 0, last, script => (last, [], script)
  | n + 1, last, script =>
    let (last, answer, script) := next last script
    match answer with
    | none => (last, [], script)
    | some a =>
      let (last, answers, script) := run n last script
      (last, a :: answers, script)

/-- Specification: what the iterator makes of a reading. -/
def absorb (last : Option IoErrorKind) :
    Except IoErrorKind Bytes → Option IoErrorKind × List (Option RawShred)
  | .error kind => if kind.retried then (last, []) else (some kind, [none])
  | .ok bytes => (last, (parseShred (bytes.take bufSize)).toList.map fun shred =>
      some ⟨shred.slot, shred.index, shred.payload.length⟩)

theorem next_refines (last : Option IoErrorKind) (script : List (Except IoErrorKind Bytes)) :
    Pull.next (fun last reading => some (absorb last reading)) last [] script =
      some (((next last script).1, []), (next last script).2) := by
  induction script generalizing last with
  | nil => rfl
  | cons reading script ih =>
    rw [Pull.next, Option.bind_some]
    cases reading with
    | error kind =>
      rw [absorb, next]
      split_ifs
      · exact ih last
      · rw [Pull.next]
    | ok bytes =>
      rw [absorb, next]
      cases parseShred (bytes.take bufSize) with
      | none => exact ih last
      | some shred =>
        show Pull.next _ last [some _] script = _
        rw [Pull.next]

theorem run_refines (n : ℕ) (last : Option IoErrorKind)
    (script : List (Except IoErrorKind Bytes)) :
    Pull.run (fun last reading => some (absorb last reading)) n last [] script =
      some (((run n last script).1, []), (run n last script).2) := by
  induction n generalizing last script with
  | zero => rfl
  | succ n ih =>
    rw [Pull.run, run, next_refines, Option.bind_some]
    rcases next last script with ⟨last₁, _ | a, script₁⟩
    · rfl
    · show (Pull.run _ n last₁ [] script₁).map _ = _
      rw [ih]
      rfl

/-- `ShredIter` yields the data shreds among the datagrams, and a `none` for each
    error that is not retried, in their order. -/
theorem shreds_of_readings (n : ℕ) (last : Option IoErrorKind)
    (script : List (Except IoErrorKind Bytes)) :
    ∃ used, script = used ++ (run n last script).2.2 ∧
      Pull.readAll (fun last reading => some (absorb last reading)) last used =
        some ((run n last script).1, (run n last script).2.1) ∧
      ((run n last script).2.1.length < n → (run n last script).2.2 = []) := by
  obtain ⟨used, out, hused, hread, hout, hend⟩ := Pull.run_spec (run_refines n last script)
  rw [List.nil_append, List.append_nil] at hout
  exact ⟨used, hused, by rw [← hout]; exact hread, fun hlen => (hend hlen).1⟩

end ShredIter

end ShredStream
