import ShredStream.Accumulator.Additions
import ShredStream.Accumulator.LostShreds
import ShredStream.Listener.Live

/-!
# Sums that stay in their types

* `additions_fit`: if no packet of a slot records a set that reaches past the last
  `u32` index or opens the slot with a batch that ends there, no plain addition of
  the slot overflows, whatever the packets of other slots do; nor does `max_age` plus
  `BLACKLIST_EXTRA_SLOTS`, if it leaves room for these.
* `first_batch_overflows`: one data packet makes `bc_idx - start + 1` overflow.
-/

namespace ShredStream.ShredListener

open SlotAccumulator

variable {C : Type} {env : Env C} {fuel : ℕ} {l l' : ShredListener C}

/-- The calls that the call `q` may make on the accumulator of a slot: the packet is
    handed to it, or it is harvested when the slot is evicted. -/
inductive MayMake (l : ShredListener C) (q : Request) (s : ℕ) : Call → SlotAccumulator → Prop
  | packet {c : Call} {acc : SlotAccumulator} : l.MayHand q s c acc → MayMake l q s c acc
  | harvest {acc : SlotAccumulator} : l.slots[s]? = some acc → MayMake l q s .harvest acc

/-- The packet of the call keeps the indices of slot `s` in range. -/
def StaysInside (s : ℕ) (l : ShredListener C) (q : Request) : Prop :=
  ∀ c acc, l.MayHand q s c acc → acc.EndsInside c

/-- What slot `s` has recorded keeps the sums in range. -/
def FitsAt (s : ℕ) (l : ShredListener C) : Prop :=
  ∀ acc : SlotAccumulator, l.slots[s]? = some acc → acc.Fits

variable {s : ℕ}

theorem FitsAt.slotEntry (h : l.FitsAt s) : (l.slotEntry s).Fits := by
  unfold ShredListener.slotEntry
  cases hacc : l.slots[s]? with
  | none => exact fits_withConfig _
  | some acc => exact h acc hacc

theorem FitsAt.move {clock : Clock} {m m' : ShredListener C × List ℕ} (h : m.1.FitsAt s)
    (hmove : Move env clock fuel m m') : m'.1.FitsAt s := by
  cases hmove with
  | keep hsame =>
    intro acc hacc
    rw [hsame.slots] at hacc
    exact h acc hacc
  | @retire l l' hand s' hretire =>
    rcases retireSlot_cases hretire with rfl | ⟨acc, r, hacc, hr, hl'⟩
    · exact h
    · intro acc' hacc'
      rw [hl'.slots, BTreeMap.getElem?_erase_eq] at hacc'
      split_ifs at hacc'
      exact h acc' hacc'
  | acquire => exact h
  | free => exact h

theorem runRequests_fit (opts : ListenerOptions) {qs : List (Surroundings × Request)}
    {replies : List Reply} (hinside : Throughout env fuel (StaysInside s) (fromSocket opts) qs)
    (h : runRequests env fuel (fromSocket opts) qs = some (l, replies)) : l.FitsAt s := by
  have hnew : (fromSocket opts : ShredListener C).FitsAt s := by
    intro acc hacc
    simp [fromSocket] at hacc
  refine runRequests_moves_live_throughout (I := fun m => m.1.FitsAt s)
    (fun _ _ _ _ hm hmove => hm.move hmove) ?_ (allLive_fromSocket opts) hnew hinside h
  intro l₀ q clock l idx raw slot c r hP hmay hlive hl hlen hpacket hr acc hacc
  replace hacc : (l.slots.insert slot { r.acc with dropped := [] })[s]? = some acc := hacc
  rw [BTreeMap.getElem?_insert_eq] at hacc
  split_ifs at hacc with hs
  · subst hs
    cases hacc
    have hc := made_of_packetCall hpacket hlen
    have hfits := hl.slotEntry.call (hlive.slotEntry slot).parsed hc.parsed hc.index_le
      (hP c _ hmay) hr
    exact ⟨hfits.fecSets, hfits.boundary, hfits.last⟩
  · exact hl acc hacc

theorem request_maxAge {sur : Surroundings} {q : Request} {reply : Reply}
    (h : l.request env sur fuel q = some (l', reply)) : l'.maxAge = l.maxAge := by
  cases request_outcome h with
  | popped datagram batch rest hq hpend hl' hreply => rw [hl']
  | refused gone queued he => exact he.maxAge
  | accepted raw slot l₁ l₂ gone gone' queued queued' batch hraw hslot he hpool ha hreply =>
    rw [ha.stores.maxAge, ha.evicts.maxAge]
    exact he.maxAge

theorem runRequests_maxAge (opts : ListenerOptions) {qs : List (Surroundings × Request)}
    {replies : List Reply} (h : runRequests env fuel (fromSocket opts) qs = some (l, replies)) :
    l.maxAge = opts.maxAge :=
  runRequests_invariant (fun _ l => l.maxAge = opts.maxAge) (fun _ _ => True)
    (fun _ _ _ _ _ _ hl _ hreq => (request_maxAge hreq).trans hl) qs [] _ _ _ rfl
    (throughout_of_forall (P := fun _ => True) (fun _ _ => trivial) _) h

/-- Where a run has led, `max_age + BLACKLIST_EXTRA_SLOTS` is a `u64`; and for every
    slot whose own packets stay inside, whatever call comes next, all sums that it
    makes the accumulator of the slot evaluate are `u32`. -/
theorem additions_fit (opts : ListenerOptions) (hage : opts.maxAge + blacklistExtraSlots ≤ u64Max)
    {qs : List (Surroundings × Request)} {replies : List Reply}
    (h : runRequests env fuel (fromSocket opts) qs = some (l, replies)) :
    l.maxAge + blacklistExtraSlots ≤ u64Max ∧
    ∀ s, Throughout env fuel (StaysInside s) (fromSocket opts) qs →
      ∀ q, l.StaysInside s q → ∀ c acc, l.MayMake q s c acc →
        ∀ clock cache p, Adds env clock fuel acc cache c p → FitsU32 p := by
  refine ⟨by rwa [runRequests_maxAge opts h],
    fun s hinside q hq c acc hmake clock cache p hadds => ?_⟩
  have hlive := runRequests_live opts h
  have hfit := runRequests_fit opts hinside h
  cases hmake with
  | packet hmay =>
    obtain ⟨raw, hraw, -, idx, hpacket⟩ := hmay.packet
    have hc := made_of_packetCall hpacket (length_of_incoming hraw)
    have hstate : acc.Fits ∧ acc.Parsed := by
      rcases hmay.entry with rfl | ⟨-, rfl⟩
      · exact ⟨hfit.slotEntry, (hlive.slotEntry s).parsed⟩
      · exact ⟨fits_withConfig _, parsed_withConfig _⟩
    exact hstate.1.adds hstate.2 hc.parsed hc.index_le (hq c acc hmay) hadds
  | harvest hacc =>
    exact (hfit acc hacc).adds (hlive.slots s acc hacc).parsed Call.parsed_harvest
      Call.index_le_harvest trivial hadds

/-! ## A run in range -/

/-- A data packet that is of another slot or does not have the last index stays
    inside. -/
theorem staysInside_of_parse {s : ℕ} {raw : Bytes} {d : DataShred}
    (hparse : parseKind (raw.take bufSize) = .ok (.data d)) (hd : d.slot = s → d.index < u32Max) :
    l.StaysInside s (.handlePacket raw) := by
  rintro c acc ⟨⟨raw', hraw, -, idx, hpacket⟩, -, -, -⟩
  cases hraw
  unfold packetCall at hpacket
  simp only [hparse] at hpacket
  cases hpacket
  intro _ _ hlast
  replace hlast : d.index = u32Max := hlast
  have := hd rfl
  omega

/-- Index 5 of slot 1 arrives, then the last index of all in slot 2, then the batch of
    slot 1 ends with index 6. -/
theorem additions_fit_twoSlots :
    let qs := [(quiet, .handlePacket (legacyPacket 1 5 0 [7])),
      (quiet, .handlePacket (legacyPacket 2 (2 ^ 32 - 1) 0 [7]))]
    ∃ l replies, runRequests legacyEnv (2 ^ 32 + 1) (fromSocket {}) qs = some (l, replies) ∧
      l.maxAge + blacklistExtraSlots ≤ u64Max ∧
      ∀ c acc, l.MayMake (.handlePacket (legacyPacket 1 6 0x40 [7])) 1 c acc →
        ∀ clock cache p, Adds legacyEnv clock (2 ^ 32 + 1) acc cache c p → FitsU32 p := by
  intro qs
  have hfirst : parseKind ((legacyPacket 1 5 0 [7]).take bufSize) = .ok (.data {
      slot := 1, index := 5, version := 0, fecSetIndex := 0, parentOffset := 0, payload := [7]
      batchComplete := false, lastInSlot := false, variant := .dataLegacy, rawLen := 89 }) := by
    decide +kernel
  have hother : parseKind ((legacyPacket 2 (2 ^ 32 - 1) 0 [7]).take bufSize) = .ok (.data {
      slot := 2, index := u32Max, version := 0, fecSetIndex := 0, parentOffset := 0, payload := [7]
      batchComplete := false, lastInSlot := false, variant := .dataLegacy, rawLen := 89 }) := by
    decide +kernel
  have hsecond : parseKind ((legacyPacket 1 6 0x40 [7]).take bufSize) = .ok (.data {
      slot := 1, index := 6, version := 0, fecSetIndex := 0, parentOffset := 0, payload := [7]
      batchComplete := true, lastInSlot := false, variant := .dataLegacy, rawLen := 89 }) := by
    decide +kernel
  obtain ⟨⟨l, replies⟩, hrun⟩ := Option.isSome_iff_exists.mp
    (show (runRequests legacyEnv (2 ^ 32 + 1) (fromSocket {}) qs).isSome = true by decide +kernel)
  obtain ⟨hage, hsums⟩ := additions_fit {} (by decide) hrun
  have hinside : Throughout legacyEnv (2 ^ 32 + 1) (StaysInside 1) (fromSocket {}) qs :=
    ⟨staysInside_of_parse hfirst fun _ => by decide, fun _ _ =>
      ⟨staysInside_of_parse hother (by decide), fun _ _ => trivial⟩⟩
  exact ⟨l, replies, hrun, hage,
    hsums 1 hinside _ (staysInside_of_parse hsecond fun _ => by decide)⟩

/-! ## A packet that overflows -/

/-- A slot that opens with a batch whose only shred is the last index of all: the
    number of its shreds is `u32::MAX - 0 + 1`. -/
theorem first_batch_overflows :
    ¬∀ (qs : List (Surroundings × Request)) (l : ShredListener Unit) (replies : List Reply),
      runRequests legacyEnv (2 ^ 32 + 1) (fromSocket {}) qs = some (l, replies) →
        ∀ q s c acc, l.MayMake q s c acc →
          ∀ clock cache p, Adds legacyEnv clock (2 ^ 32 + 1) acc cache c p → FitsU32 p := by
  intro hclaim
  obtain ⟨d, hparse, hslot, hindex, hflag, hlast⟩ : ∃ d,
      parseKind ((legacyPacket 1 (2 ^ 32 - 1) 0x40 []).take bufSize) = .ok (.data d) ∧ d.slot = 1 ∧
        d.index = u32Max ∧ d.batchComplete = true ∧ d.lastInSlot = false := by
    refine ⟨{ slot := 1, index := u32Max, version := 0, fecSetIndex := 0, parentOffset := 0
              payload := [], batchComplete := true, lastInSlot := false, variant := .dataLegacy
              rawLen := 88 }, ?_, rfl, rfl, rfl, rfl⟩
    decide +kernel
  generalize hraw : (legacyPacket 1 (2 ^ 32 - 1) 0x40 []).take bufSize = raw at hparse
  have hcall : packetCall ⟨0, raw⟩ = some (d.slot, .data (d.args ⟨0, raw⟩)) := by
    simp only [packetCall, hparse]
  have haccepted : packetSlot true raw = some d.slot := by
    simp only [packetSlot, hparse]
  have hmay : (fromSocket {} : ShredListener Unit).MayHand
      (.handlePacket (legacyPacket 1 (2 ^ 32 - 1) 0x40 [])) d.slot (.data (d.args ⟨0, raw⟩))
      (withConfig {}) := by
    refine ⟨⟨raw, congrArg some hraw, haccepted, 0, hcall⟩, ?_, nofun, .inl ?_⟩
    · rw [hslot]
      decide
    · simp [slotEntry, fromSocket]
  have hadds := adds_of_last legacyEnv quiet.clock (2 ^ 32) {} {} (a := d.args ⟨0, raw⟩) hindex
    hflag hlast
  have hfits : u32Max + 1 ≤ u32Max := hclaim [] _ [] rfl _ _ _ _ (.packet hmay) _ _ _ hadds
  exact absurd hfits (by omega)

end ShredStream.ShredListener
