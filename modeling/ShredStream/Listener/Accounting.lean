import ShredStream.Listener.Iterator
import ShredStream.Listener.Retirements

/-!
# The books of the listener

Proofs about the counters of `listener.rs` (lines 340–377, 388–400, 435–446,
498–519, 530–583) over whole runs. A call pops the queue, finds no buffer, reads no
datagram, or looks at its packet, and then files it under exactly one of seven heads.
`dealings` logs this for each call of a run, `Retirement` each slot that goes.

Results:
* `packets_accounted`: each counter is the number of packets logged under its head,
  and `bytes_received` is the sum of their lengths, modulo `2^64`.
* `slots_accounted`: every slot that goes was live when the call that took it out was
  made and is counted once, as completed or as evicted; its tail is queued, then
  handed out once.
-/

namespace ShredStream

variable {C : Type} {env : Env C} {sur : Surroundings} {fuel : ℕ}

/-! ## Heads -/

/-- The heads under which `handle_packet_owned` files a packet. -/
inductive Filing
  | tooShort
  | unknownVariant
  | payloadInvalid
  | slotRange
  | knownSlot
  | data
  | code
  deriving DecidableEq, Repr

/-- The heads that `unparseable_packets` sums up. -/
def Filing.unparseable : Filing → Bool
  | tooShort | unknownVariant | payloadInvalid | slotRange => true
  | _ => false

/-- The counter of a head. -/
def PacketCounters.filed (c : PacketCounters) : Filing → ℕ
  | .tooShort => c.unparseableTooShort
  | .unknownVariant => c.unparseableVariant
  | .payloadInvalid => c.unparseablePayload
  | .slotRange => c.unparseableSlotRange
  | .knownSlot => c.droppedKnownSlots
  | .data => c.dataShredCount
  | .code => c.codeShredCount

/-- How a call goes. -/
inductive Dealing
  | popped
  | exhausted
  | failed
  | handled (bytes : Bytes) (head : Filing)
  deriving DecidableEq, Repr

namespace Dealing

/-- The head of the packet, if the call looked at one. -/
def head? : Dealing → Option Filing
  | handled _ head => some head
  | _ => none

/-- The number of bytes received. -/
def received : Dealing → ℕ
  | handled bytes _ => bytes.length
  | _ => 0

/-- The replies that fit. -/
def Answers : Dealing → Reply → Prop
  | popped, .queued _ => True
  | exhausted, .own batch => batch = none
  | exhausted, .ioError _ => True
  | failed, .ioError _ => True
  | handled _ _, .own _ => True
  | _, _ => False

end Dealing

namespace ShredListener

variable {l l' : ShredListener C}

/-- The head of a shred: the first of the two checks on its slot that fails (lines
    388–400, 435–446), else its kind. -/
def slotHead (l : ShredListener C) (slot : ℕ) (kind : Filing) : Filing :=
  if l.slotOutOfRange slot then .slotRange
  else if slot ∈ l.recentlySeenSlots then .knownSlot
  else kind

/-- The head of a packet: its parse error, or that of the shred. -/
def headOf (l : ShredListener C) (bytes : Bytes) : Filing :=
  match parseKind bytes with
  | .error .tooShort => .tooShort
  | .error .unknownVariant => .unknownVariant
  | .error .payloadInvalid => .payloadInvalid
  | .ok (.data d) => l.slotHead d.slot .data
  | .ok (.code c) => l.slotHead c.slot .code

/-- How a call that reads the socket goes: the packet is looked at in the state that
    the acquisition of its buffer left. -/
def reading (env : Env C) (sur : Surroundings) (fuel : ℕ) (l : ShredListener C)
    (packet : Option Bytes) : Option Dealing :=
  (l.acquireBufferWithFallback env sur fuel).map fun r =>
    match r.2, packet with
    | none, _ => .exhausted
    | some _, none => .failed
    | some _, some bytes => .handled bytes (r.1.headOf bytes)

/-- How a call goes: `recv_one` pops a batch if one is queued. -/
def dealing (env : Env C) (sur : Surroundings) (fuel : ℕ) (l : ShredListener C) :
    Request → Option Dealing
  | .handlePacket raw => l.reading env sur fuel (Request.handlePacket raw).packet
  | .recvOne datagram =>
    if l.pendingBatches = [] then l.reading env sur fuel (Request.recvOne datagram).packet
    else some .popped

/-- How the calls of a run go. -/
def dealings (env : Env C) (fuel : ℕ) :
    ShredListener C → List (Surroundings × Request) → Option (List Dealing)
  | _, [] => some []
  | l, (sur, q) :: qs => do
    let d ← l.dealing env sur fuel q
    let (l, _) ← l.request env sur fuel q
    let ds ← dealings env fuel l qs
    return d :: ds

/-- `ShredListener::unparseable_packets` (lines 211–216). -/
def unparseablePackets (l : ShredListener C) : ℕ :=
  wrapAdd64 (wrapAdd64 (wrapAdd64 l.counters.unparseableTooShort l.counters.unparseableVariant)
    l.counters.unparseablePayload) l.counters.unparseableSlotRange

end ShredListener

/-! ## Evictions -/

namespace PacketCounters

/-- The packet counters are the same; those of slots may differ. -/
structure SamePackets (c c' : PacketCounters) : Prop where
  filed : ∀ f, c'.filed f = c.filed f
  bytesReceived : c'.bytesReceived = c.bytesReceived
  poolExhausted : c'.poolExhausted = c.poolExhausted

/-- A packet of `n` bytes was filed under `head`. -/
structure Files (c : PacketCounters) (head : Filing) (n : ℕ) (c' : PacketCounters) : Prop where
  filed : ∀ f, c'.filed f = if f = head then wrapAdd64 (c.filed f) 1 else c.filed f
  bytesReceived : c'.bytesReceived = wrapAdd64 c.bytesReceived n
  poolExhausted : c'.poolExhausted = c.poolExhausted

variable {c c' c'' : PacketCounters}

theorem SamePackets.refl (c : PacketCounters) : SamePackets c c := ⟨fun _ => rfl, rfl, rfl⟩

theorem SamePackets.trans (h : SamePackets c c') (h' : SamePackets c' c'') : SamePackets c c'' where
  filed f := (h'.filed f).trans (h.filed f)
  bytesReceived := h'.bytesReceived.trans h.bytesReceived
  poolExhausted := h'.poolExhausted.trans h.poolExhausted

theorem SamePackets.files (h : SamePackets c c') {head : Filing} {n : ℕ}
    (h' : Files c' head n c'') : Files c head n c'' where
  filed f := by rw [h'.filed, h.filed]
  bytesReceived := by rw [h'.bytesReceived, h.bytesReceived]
  poolExhausted := h'.poolExhausted.trans h.poolExhausted

theorem SamePackets.after (h : SamePackets c' c'') {head : Filing} {n : ℕ}
    (h' : Files c head n c') : Files c head n c'' where
  filed f := by rw [h.filed, h'.filed]
  bytesReceived := by rw [h.bytesReceived, h'.bytesReceived]
  poolExhausted := h.poolExhausted.trans h'.poolExhausted

end PacketCounters

namespace ShredListener

open PacketCounters

variable {l l' : ShredListener C}

/-- Retiring a slot counts no packet. -/
theorem samePackets_retireSlot {clock : Clock} {s : ℕ}
    (h : l.retireSlot env clock fuel s = some l') : SamePackets l.counters l'.counters := by
  unfold retireSlot at h
  split at h
  · cases h
    exact .refl _
  · obtain ⟨r, -, h⟩ := Option.bind_eq_some_iff.mp h
    cases h
    exact ⟨fun f => by cases f <;> rfl, rfl, rfl⟩

theorem samePackets_evictOldSlots (h : l.evictOldSlots env sur fuel = some l') :
    SamePackets l.counters l'.counters := by
  have hslots : ∀ (ss : List ℕ) (l l' : ShredListener C),
      retireSlots env sur.clock fuel l ss = some l' → SamePackets l.counters l'.counters := by
    intro ss
    induction ss with
    | nil =>
      intro l l' h
      cases h
      exact .refl _
    | cons s ss ih =>
      intro l l' h
      obtain ⟨l₁, h₁, h₂⟩ := Option.bind_eq_some_iff.mp h
      exact (samePackets_retireSlot h₁).trans (ih l₁ l' h₂)
  obtain ⟨l₁, h₁, h₂⟩ := Option.bind_eq_some_iff.mp h
  cases h₂
  exact hslots _ l l₁ h₁

theorem samePackets_acquire {buffer : Option ℕ}
    (h : l.acquireBufferWithFallback env sur fuel = some (l', buffer)) :
    SamePackets l.counters l'.counters := by
  obtain ⟨l₁, htake, hfalls⟩ := acquire_falls h
  have hcounters : l'.counters = l₁.counters := by
    unfold takeBuffer at htake
    split at htake <;> (cases htake; rfl)
  rw [hcounters]
  cases hfalls with
  | free _ heq =>
    rw [heq]
    exact .refl _
  | old _ h₁ _ => exact samePackets_evictOldSlots h₁
  | forced l₀ _ h₀ _ h₁ =>
    refine (samePackets_evictOldSlots h₀).trans ?_
    unfold forceEvictOldestSlot at h₁
    split at h₁
    · cases h₁
      exact .refl _
    · exact samePackets_retireSlot h₁

theorem samePackets_advanceSlot {slot : ℕ} (h : l.advanceSlot env sur fuel slot = some l') :
    SamePackets l.counters l'.counters := by
  unfold advanceSlot at h
  split_ifs at h
  · exact samePackets_evictOldSlots (l := { l with lastSlot := slot }) h
  · cases h
    exact .refl _

/-! ## Calls -/

/-- A data shred is filed, once the bytes of its packet are counted. -/
theorem handleData_files {c : PacketCounters} {n : ℕ} {handle : BufferHandle} {d : DataShred}
    {out : Option TxBatch}
    (hc : l.counters = { c with bytesReceived := wrapAdd64 c.bytesReceived n })
    (h : l.handleData env sur fuel handle d = some (l', out)) :
    Files c (l.slotHead d.slot .data) n l'.counters := by
  unfold handleData at h
  unfold slotHead
  split_ifs at h ⊢
  · cases h
    rw [rejectRange, freeBuffer, hc]
    exact ⟨fun f => by cases f <;> rfl, rfl, rfl⟩
  · cases h
    rw [rejectKnown, freeBuffer, hc]
    exact ⟨fun f => by cases f <;> rfl, rfl, rfl⟩
  · obtain ⟨l₁, h₁, h⟩ := Option.bind_eq_some_iff.mp h
    obtain ⟨r, -, h⟩ := Option.bind_eq_some_iff.mp h
    cases h
    refine (samePackets_advanceSlot h₁).after ?_
    rw [hc]
    exact ⟨fun f => by cases f <;> rfl, rfl, rfl⟩

/-- So is a code shred, also where FEC is disabled. -/
theorem handleCode_files {c : PacketCounters} {n : ℕ} {handle : BufferHandle} {code : CodeShred}
    {out : Option TxBatch}
    (hc : l.counters = { c with bytesReceived := wrapAdd64 c.bytesReceived n })
    (h : l.handleCode env sur fuel handle code = some (l', out)) :
    Files c (l.slotHead code.slot .code) n l'.counters := by
  unfold handleCode at h
  unfold slotHead
  simp only at h
  split_ifs at h ⊢
  · cases h
    rw [rejectRange, freeBuffer, hc]
    exact ⟨fun f => by cases f <;> rfl, rfl, rfl⟩
  · cases h
    rw [rejectKnown, freeBuffer, hc]
    exact ⟨fun f => by cases f <;> rfl, rfl, rfl⟩
  · cases h
    rw [freeBuffer, hc]
    exact ⟨fun f => by cases f <;> rfl, rfl, rfl⟩
  · obtain ⟨l₁, h₁, h⟩ := Option.bind_eq_some_iff.mp h
    obtain ⟨r, -, h⟩ := Option.bind_eq_some_iff.mp h
    cases h
    refine (samePackets_advanceSlot h₁).after ?_
    rw [hc]
    exact ⟨fun f => by cases f <;> rfl, rfl, rfl⟩

/-- A packet that is looked at is filed under its head. -/
theorem handlePacketOwned_files {handle : BufferHandle} {out : Option TxBatch}
    (h : l.handlePacketOwned env sur fuel handle = some (l', out)) :
    Files l.counters (l.headOf handle.bytes) handle.bytes.length l'.counters := by
  unfold handlePacketOwned at h
  unfold headOf
  simp only at h
  cases hparse : parseKind handle.bytes with
  | error e =>
    rw [hparse] at h
    cases h
    cases e <;> exact ⟨fun f => by cases f <;> rfl, rfl, rfl⟩
  | ok kind =>
    rw [hparse] at h
    cases kind with
    | data d =>
      simp only at h
      have hfiles := handleData_files (c := l.counters) (n := handle.bytes.length) (by rfl) h
      exact hfiles
    | code c =>
      simp only at h
      have hfiles := handleCode_files (c := l.counters) (n := handle.bytes.length) (by rfl) h
      exact hfiles

/-- What a call that goes as `d` does to the packet counters. -/
inductive Tallies (c : PacketCounters) (c' : PacketCounters) : Dealing → Prop
  | popped : SamePackets c c' → Tallies c c' .popped
  | failed : SamePackets c c' → Tallies c c' .failed
  | exhausted : (∀ f, c'.filed f = c.filed f) → c'.bytesReceived = c.bytesReceived →
      c'.poolExhausted = wrapAdd64 c.poolExhausted 1 → Tallies c c' .exhausted
  | handled (bytes : Bytes) (head : Filing) : Files c head bytes.length c' →
      Tallies c c' (.handled bytes head)

theorem tallies_countPoolExhausted
    (h : l.acquireBufferWithFallback env sur fuel = some (l', none)) :
    Tallies l.counters l'.countPoolExhausted.counters .exhausted := by
  have hsame := samePackets_acquire h
  refine .exhausted (fun f => ?_) hsame.bytesReceived ?_
  · rw [← hsame.filed f]
    cases f <;> rfl
  · show wrapAdd64 l'.counters.poolExhausted 1 = _
    rw [hsame.poolExhausted]

theorem reading_tallies {raw : Bytes} {out : Option TxBatch}
    (h : l.handlePacket env sur fuel raw = some (l', out)) :
    ∃ d, l.reading env sur fuel (some (raw.take bufSize)) = some d ∧ d.Answers (.own out) ∧
      Tallies l.counters l'.counters d := by
  obtain ⟨⟨l₁, buffer⟩, h₁, h₂⟩ := Option.bind_eq_some_iff.mp h
  unfold reading
  rw [h₁]
  cases buffer with
  | none =>
    cases h₂
    exact ⟨_, rfl, rfl, tallies_countPoolExhausted h₁⟩
  | some idx =>
    exact ⟨_, rfl, trivial, .handled _ _ ((samePackets_acquire h₁).files
      (handlePacketOwned_files h₂))⟩

theorem reading_tallies_failed (h : TransactionIter.pollFailed env sur fuel l = some l')
    (kind : IoErrorKind) :
    ∃ d, l.reading env sur fuel none = some d ∧ d.Answers (.ioError kind) ∧
      Tallies l.counters l'.counters d := by
  obtain ⟨⟨l₁, buffer⟩, h₁, h₂⟩ := Option.bind_eq_some_iff.mp h
  unfold reading
  rw [h₁]
  cases buffer with
  | none =>
    cases h₂
    exact ⟨_, rfl, trivial, tallies_countPoolExhausted h₁⟩
  | some idx =>
    cases h₂
    have hsame := samePackets_acquire h₁
    exact ⟨_, rfl, trivial, .failed hsame⟩

/-- Each call is logged, and counted as logged. -/
theorem dealing_tallies {q : Request} {reply : Reply}
    (h : l.request env sur fuel q = some (l', reply)) :
    ∃ d, l.dealing env sur fuel q = some d ∧ d.Answers reply ∧
      Tallies l.counters l'.counters d := by
  cases q with
  | handlePacket raw =>
    obtain ⟨⟨l₁, out⟩, h₁, heq⟩ := Option.bind_eq_some_iff.mp h
    cases heq
    exact reading_tallies h₁
  | recvOne datagram =>
    unfold request at h
    simp only [dealing]
    cases hpend : l.pendingBatches with
    | cons batch rest =>
      rw [if_neg (List.cons_ne_nil _ _)]
      simp only [TransactionIter.recvOne_pop hpend] at h
      cases h
      exact ⟨_, rfl, trivial, .popped (.refl _)⟩
    | nil =>
      rw [if_pos rfl]
      cases datagram with
      | ok bytes =>
        simp only [TransactionIter.recvOne_datagram hpend] at h
        obtain ⟨r, hr, h⟩ := Option.bind_eq_some_iff.mp h
        obtain ⟨⟨l₁, out⟩, h₁, rfl⟩ := Option.map_eq_some_iff.mp hr
        cases out with
        | none =>
          cases h
          exact reading_tallies h₁
        | some batch =>
          cases h
          exact reading_tallies h₁
      | error kind =>
        simp only [TransactionIter.recvOne_failed hpend] at h
        obtain ⟨r, hr, h⟩ := Option.bind_eq_some_iff.mp h
        obtain ⟨l₁, h₁, rfl⟩ := Option.map_eq_some_iff.mp hr
        cases h
        exact reading_tallies_failed h₁ kind

/-! ## Packets -/

/-- The packet counters are those of the log. -/
structure Booked (log : List Dealing) (c : PacketCounters) : Prop where
  filed : ∀ f, c.filed f = log.countP (fun d => d.head? = some f) % 2 ^ 64
  bytesReceived : c.bytesReceived = (log.map Dealing.received).sum % 2 ^ 64
  poolExhausted : c.poolExhausted = log.count .exhausted % 2 ^ 64

theorem Booked.snoc {log : List Dealing} {c c' : PacketCounters} {d : Dealing}
    (h : Booked log c) (hd : Tallies c c' d) : Booked (log ++ [d]) c' := by
  have hidle : SamePackets c c' → d.head? = none → d.received = 0 → d ≠ .exhausted →
      Booked (log ++ [d]) c' := by
    intro hsame hhead hreceived hne
    refine ⟨fun f => ?_, ?_, ?_⟩
    · rw [hsame.filed, h.filed, List.countP_append, List.countP_singleton, hhead]
      simp
    · rw [hsame.bytesReceived, h.bytesReceived]
      simp [hreceived]
    · rw [hsame.poolExhausted, h.poolExhausted]
      simp [hne]
  cases hd with
  | popped hsame => exact hidle hsame rfl rfl (by simp)
  | failed hsame => exact hidle hsame rfl rfl (by simp)
  | exhausted hfiled hbytes hcount =>
    refine ⟨fun f => ?_, ?_, ?_⟩
    · rw [hfiled, h.filed]
      simp [Dealing.head?]
    · rw [hbytes, h.bytesReceived]
      simp [Dealing.received]
    · rw [hcount, h.poolExhausted]
      simp [wrapAdd64]
  | handled bytes head hfiles =>
    refine ⟨fun f => ?_, ?_, ?_⟩
    · rw [hfiles.filed, h.filed, List.countP_append, List.countP_singleton]
      by_cases hf : f = head
      · simp [hf, Dealing.head?, wrapAdd64]
      · simp [hf, Ne.symm hf, Dealing.head?]
    · rw [hfiles.bytesReceived, h.bytesReceived]
      simp [Dealing.received, wrapAdd64]
    · rw [hfiles.poolExhausted, h.poolExhausted]
      simp

/-- A run adds its log to the books. -/
theorem runRequests_booked {log : List Dealing} (hl : Booked log l.counters)
    {qs : List (Surroundings × Request)} {replies : List Reply}
    (h : runRequests env fuel l qs = some (l', replies)) :
    ∃ log', dealings env fuel l qs = some log' ∧ List.Forall₂ Dealing.Answers log' replies ∧
      Booked (log ++ log') l'.counters := by
  induction qs generalizing l log replies with
  | nil =>
    cases h
    exact ⟨[], rfl, .nil, by rwa [List.append_nil]⟩
  | cons q qs ih =>
    obtain ⟨sur, q⟩ := q
    obtain ⟨⟨l₁, reply⟩, h₁, h⟩ := Option.bind_eq_some_iff.mp h
    obtain ⟨⟨l₂, replies'⟩, h₂, heq⟩ := Option.bind_eq_some_iff.mp h
    cases heq
    obtain ⟨d, hd, hanswers, htallies⟩ := dealing_tallies h₁
    obtain ⟨log', hlog', hall, hbooked⟩ := ih (hl.snoc htallies) h₂
    refine ⟨d :: log', ?_, .cons hanswers hall, ?_⟩
    · simp only [dealings, hd, h₁, hlog', Option.bind_eq_bind, Option.bind_some]
      rfl
    · rwa [List.append_assoc] at hbooked

theorem countP_unparseable (log : List Dealing) :
    log.countP (fun d => d.head?.any Filing.unparseable) =
      log.countP (fun d => d.head? = some .tooShort) +
        log.countP (fun d => d.head? = some .unknownVariant) +
          log.countP (fun d => d.head? = some .payloadInvalid) +
            log.countP (fun d => d.head? = some .slotRange) := by
  induction log with
  | nil => rfl
  | cons d log ih =>
    simp only [List.countP_cons, ih]
    cases d with
    | handled bytes head => cases head <;> simp [Dealing.head?, Filing.unparseable] <;> omega
    | popped => simp [Dealing.head?]
    | exhausted => simp [Dealing.head?]
    | failed => simp [Dealing.head?]

/-- Over every run: each call is logged once and answered as logged, each counter is
    the number of packets logged under its head, `bytes_received` is the sum of their
    lengths, and `pool_exhausted` the number of calls that found no buffer. -/
theorem packets_accounted {opts : ListenerOptions} {qs : List (Surroundings × Request)}
    {replies : List Reply}
    (h : runRequests env fuel (fromSocket opts) qs = some (l, replies)) :
    ∃ log, dealings env fuel (fromSocket opts) qs = some log ∧
      List.Forall₂ Dealing.Answers log replies ∧ Booked log l.counters ∧
      l.unparseablePackets =
        log.countP (fun d => d.head?.any Filing.unparseable) % 2 ^ 64 := by
  have hfresh : Booked [] (fromSocket opts : ShredListener C).counters :=
    ⟨fun f => by cases f <;> rfl, rfl, rfl⟩
  obtain ⟨log, hlog, hall, hbooked⟩ := runRequests_booked hfresh h
  rw [List.nil_append] at hbooked
  refine ⟨log, hlog, hall, hbooked, ?_⟩
  have hshort : l.counters.unparseableTooShort = _ := hbooked.filed .tooShort
  have hvariant : l.counters.unparseableVariant = _ := hbooked.filed .unknownVariant
  have hpayload : l.counters.unparseablePayload = _ := hbooked.filed .payloadInvalid
  have hrange : l.counters.unparseableSlotRange = _ := hbooked.filed .slotRange
  rw [unparseablePackets, hshort, hvariant, hpayload, hrange, countP_unparseable]
  simp only [wrapAdd64]
  omega

/-- A packet that is too short, a failed read, a shred of slot 1 and one of a slot out
    of range. -/
theorem packets_accounted_fourCalls :
    let qs := [(quiet, .handlePacket [1, 2]), (quiet, .recvOne (.error .other)),
      (quiet, .handlePacket (legacyPacket 1 0 0 [7])),
      (quiet, .handlePacket (legacyPacket (2 ^ 40 + 1) 0 0 [7]))]
    ∃ (l : ShredListener Unit) (replies : List Reply),
      runRequests legacyEnv (2 ^ 32 + 1) (fromSocket {}) qs = some (l, replies) ∧
      ∃ log, dealings legacyEnv (2 ^ 32 + 1) (fromSocket {} : ShredListener Unit) qs = some log ∧
        log.map Dealing.head? = [some .tooShort, none, some .data, some .slotRange] ∧
        List.Forall₂ Dealing.Answers log replies ∧ Booked log l.counters ∧
        l.unparseablePackets =
          log.countP (fun d => d.head?.any Filing.unparseable) % 2 ^ 64 := by
  intro qs
  obtain ⟨⟨l, replies⟩, hrun⟩ := Option.isSome_iff_exists.mp (show
    (runRequests legacyEnv (2 ^ 32 + 1) (fromSocket {} : ShredListener Unit) qs).isSome = true by
      decide +kernel)
  have hheads : (dealings legacyEnv (2 ^ 32 + 1) (fromSocket {} : ShredListener Unit) qs).map
      (fun log => log.map Dealing.head?) =
        some [some .tooShort, none, some .data, some .slotRange] := by decide +kernel
  obtain ⟨log, hlog, hall, hbooked, hunparseable⟩ := packets_accounted hrun
  rw [hlog] at hheads
  exact ⟨l, replies, hrun, log, hlog, Option.some.inj hheads, hall, hbooked, hunparseable⟩

/-! ## Slots -/

/-- One of the calls took the slot out, so that it is in the history from then on: it
    was live when the call was made, and its tail was harvested at the clock of the
    call. -/
def RetiredBy (env : Env C) (fuel : ℕ) (opts : ListenerOptions)
    (qs : List (Surroundings × Request)) (r : Retirement) : Prop :=
  ∃ (pre post : List (Surroundings × Request)) (sur : Surroundings) (q : Request)
    (l l' : ShredListener C) (replies : List Reply) (reply : Reply),
      qs = pre ++ (sur, q) :: post ∧
      runRequests env fuel (fromSocket opts) pre = some (l, replies) ∧
      l.request env sur fuel q = some (l', reply) ∧
      (∃ entries, l'.retired = l.retired ++ entries ∧ r.gone ∈ entries) ∧
      l.slots[r.slot]? = some r.acc ∧ r.Harvested env sur.clock fuel

/-- The books on the slots `rs` that went, `out` being the batches handed out from the
    queue: each slot is counted as completed or as evicted, each tail that is not empty
    is counted as harvested, and what was or is in the queue are these tails, in the
    order in which the slots went. -/
structure SlotsBooked (rs : List Retirement) (out : List TxBatch) (l : ShredListener C) :
    Prop where
  history : l.retired = rs.map Retirement.gone
  completed : l.counters.slotsCompletedTotal = rs.countP (fun r => r.left.slotComplete) % 2 ^ 64
  evicted : l.counters.slotsEvictedByAge = rs.countP (fun r => !r.left.slotComplete) % 2 ^ 64
  harvested : l.counters.harvestedBatchesTotal = rs.countP (fun r => r.txs ≠ []) % 2 ^ 64
  queue : out ++ l.pendingBatches =
    if l.disableSalvageDelivery then [] else rs.filterMap Retirement.tail?

namespace SlotsBooked

variable {rs rs' : List Retirement} {out : List TxBatch}

theorem fresh (opts : ListenerOptions) :
    SlotsBooked [] [] (fromSocket opts : ShredListener C) where
  history := rfl
  completed := rfl
  evicted := rfl
  harvested := rfl
  queue := by
    show [] = if opts.disableSalvageDelivery then [] else _
    split_ifs <;> rfl

theorem takesOut (h : SlotsBooked rs out l) {clock : Clock}
    (h' : TakesOut env clock fuel l rs' l') : SlotsBooked (rs ++ rs') out l' where
  history := by rw [h'.history, h.history, List.map_append]
  completed := by rw [h'.completed, h.completed, countWrapping_mod, List.countP_append]
  evicted := by rw [h'.evicted, h.evicted, countWrapping_mod, List.countP_append]
  harvested := by rw [h'.harvested, h.harvested, countWrapping_mod, List.countP_append]
  queue := by
    rw [h'.queue, ← List.append_assoc, h.queue, h'.salvage, List.filterMap_append]
    split_ifs <;> simp

/-- Nothing but the head of the queue is taken out. -/
theorem same (h : SlotsBooked rs out l) {taken : List TxBatch}
    (hsame : SameBooks l { l' with pendingBatches := taken ++ l'.pendingBatches }) :
    SlotsBooked rs (out ++ taken) l' where
  history := hsame.retired.trans h.history
  completed := hsame.completed.trans h.completed
  evicted := hsame.evicted.trans h.evicted
  harvested := hsame.harvested.trans h.harvested
  queue := by
    have hpending : taken ++ l'.pendingBatches = l.pendingBatches := hsame.pending
    have hsalvage : l'.disableSalvageDelivery = l.disableSalvageDelivery := hsame.salvage
    rw [List.append_assoc, hpending, hsalvage, h.queue]

end SlotsBooked

theorem RetiredBy.append {opts : ListenerOptions} {qs : List (Surroundings × Request)}
    {r : Retirement} (h : RetiredBy env fuel opts qs r) (qs' : List (Surroundings × Request)) :
    RetiredBy env fuel opts (qs ++ qs') r := by
  obtain ⟨pre, post, sur, q, l, l', replies, reply, rfl, hcall⟩ := h
  exact ⟨pre, post ++ qs', sur, q, l, l', replies, reply, by simp, hcall⟩

/-- Over every run: the slots that went were each taken out of the listener by one of
    the calls, and the books on them hold. -/
theorem slots_accounted {opts : ListenerOptions} {qs : List (Surroundings × Request)}
    {replies : List Reply}
    (h : runRequests env fuel (fromSocket opts) qs = some (l, replies)) :
    ∃ rs : List Retirement, (∀ r ∈ rs, RetiredBy env fuel opts qs r) ∧
      SlotsBooked rs (replies.filterMap Reply.fromQueue) l := by
  induction qs using List.reverseRecOn generalizing l replies with
  | nil =>
    cases h
    exact ⟨[], by simp, .fresh opts⟩
  | append_singleton qs q ih =>
    obtain ⟨sur, q⟩ := q
    obtain ⟨l₁, replies₁, reply, hrun, hq, rfl⟩ := runRequests_snoc h
    obtain ⟨rs, hrs, hbooked⟩ := ih hrun
    obtain ⟨rs', l₂, htakes, hsame⟩ := request_takesOut (runRequests_sound opts hrun) hq
    refine ⟨rs ++ rs', fun r hr => ?_, ?_⟩
    · rcases List.mem_append.mp hr with hr | hr
      · exact (hrs r hr).append _
      · obtain ⟨hlive, hharvest⟩ := htakes.live r hr
        have hhistory : l.retired = l₁.retired ++ rs'.map Retirement.gone :=
          hsame.retired.trans htakes.history
        exact ⟨qs, [], sur, q, l₁, l, replies₁, reply, rfl, hrun, hq,
          ⟨_, hhistory, List.mem_map_of_mem hr⟩, hlive, hharvest⟩
    · rw [List.filterMap_append]
      have htaken : [reply].filterMap Reply.fromQueue = reply.fromQueue.toList := by
        cases reply <;> rfl
      rw [htaken]
      exact (hbooked.takesOut htakes).same hsame

/-- Slot 3 goes with a whole batch behind a gap, which a read then takes from the
    queue. -/
theorem slots_accounted_oneTaken :
    let qs := [(quiet, .handlePacket (legacyPacket 3 4 0 (LegacyWire.encodeBatch
        [[LegacyWire.signedTx 2 []]]))),
      (quiet, .handlePacket (legacyPacket 90 0 0 [])), (quiet, .recvOne (.error .other))]
    ∃ (l : ShredListener Unit) (replies : List Reply) (rs : List Retirement),
      runRequests legacyEnv (2 ^ 32 + 1) (fromSocket {}) qs = some (l, replies) ∧
      (replies.filterMap Reply.fromQueue).length = 1 ∧
      (∀ r ∈ rs, RetiredBy legacyEnv (2 ^ 32 + 1) {} qs r) ∧
      SlotsBooked rs (replies.filterMap Reply.fromQueue) l := by
  intro qs
  obtain ⟨⟨l, replies⟩, hrun, hlen⟩ := Option.map_eq_some_iff.mp (show
    (runRequests legacyEnv (2 ^ 32 + 1) (fromSocket {} : ShredListener Unit) qs).map
      (fun r => (r.2.filterMap Reply.fromQueue).length) = some 1 by decide +kernel)
  obtain ⟨rs, hrs, hbooked⟩ := slots_accounted hrun
  exact ⟨l, replies, rs, hrun, hlen, hrs, hbooked⟩

end ShredListener

end ShredStream
