import ShredStream.Accumulator.Filed
import ShredStream.Accumulator.LostShreds
import ShredStream.Listener.Live

/-!
# Shreds of the live slots under their own index

* `shreds_filed`: as long as no set is recovered but honest ones, every pending
  shred of a live slot holds a packet of that slot with its own index.
* `misfiled_shred`: one code packet whose parity belongs to other data puts a shred
  of index 7 under index 0.
-/

namespace ShredStream.ShredListener

open SlotAccumulator

variable {C : Type} {env : Env C} {fuel : ℕ} {l l' : ShredListener C}
  {parity : ℕ → ℕ → List Bytes → List Bytes}

/-- When the call hands a packet to an accumulator, and the packet is stored or
    recorded, the sets that can be recovered are honest sets of the slot. -/
def HonestSets (parity : ℕ → ℕ → List Bytes → List Bytes) (l : ShredListener C) (q : Request) :
    Prop :=
  ∀ slot c acc, l.MayHand q slot c acc → ∀ clock acc₀, Opens clock acc c acc₀ →
    acc₀.Honest parity slot

/-- Every pending shred of a live slot is filed under its own index. -/
structure AllFiled (env : Env C) (l : ShredListener C) : Prop where
  filed : ∀ (s : ℕ) (acc : SlotAccumulator), l.slots[s]? = some acc → acc.Filed s
  cache : l.rsCache.Valid env.reedSolomon

theorem AllFiled.slotEntry (h : AllFiled env l) (s : ℕ) : (l.slotEntry s).Filed s := by
  unfold ShredListener.slotEntry
  cases hacc : l.slots[s]? with
  | none =>
    intro k ps hps
    simp [withConfig] at hps
  | some acc => exact h.filed s acc hacc

theorem AllFiled.move {cfg : AccumulatorConfig} {clock : Clock} {m m' : ShredListener C × List ℕ}
    (hlive : AllLive env fuel cfg m.1) (h : AllFiled env m.1) (hmove : Move env clock fuel m m') :
    AllFiled env m'.1 := by
  cases hmove with
  | keep hsame =>
    exact ⟨by rw [hsame.slots]; exact h.filed, by rw [hsame.rsCache]; exact h.cache⟩
  | @retire l l' hand s hretire =>
    rcases retireSlot_cases hretire with rfl | ⟨acc, r, hacc, hr, hl'⟩
    · exact h
    · refine ⟨fun s' acc' hacc' => ?_, ?_⟩
      · rw [hl'.slots, BTreeMap.getElem?_erase_eq] at hacc'
        split_ifs at hacc'
        exact h.filed s' acc' hacc'
      · rw [hl'.rsCache]
        exact call_cache_valid (hlive.slots s acc hacc).parsed Call.parsed_harvest h.cache
          (c := .harvest) hr
  | acquire => exact ⟨h.filed, h.cache⟩
  | free => exact ⟨h.filed, h.cache⟩

/-- As long as the sets that are recovered are honest, every entry of the pending
    map of a live slot holds a packet of that slot with that index. -/
theorem shreds_filed (hrs : env.reedSolomon.Rebuilds parity) (opts : ListenerOptions)
    {qs : List (Surroundings × Request)} {replies : List Reply}
    (hhonest : Throughout env fuel (HonestSets parity) (fromSocket opts) qs)
    (h : runRequests env fuel (fromSocket opts) qs = some (l, replies)) :
    ∀ (s : ℕ) (acc : SlotAccumulator), l.slots[s]? = some acc → acc.Filed s := by
  have hnew : AllFiled env (fromSocket opts : ShredListener C) := by
    refine ⟨fun s acc hacc => ?_, fun e he => by cases he⟩
    simp [fromSocket] at hacc
  have hall : AllFiled env l := by
    refine runRequests_moves_live_throughout (I := fun m => AllFiled env m.1)
      (fun _ _ _ hlive hm hmove => hm.move hlive hmove) ?_ (allLive_fromSocket opts) hnew hhonest h
    intro l₀ q clock l idx raw slot c r hP hmay hlive hl hlen hpacket hr
    have hc := made_of_packetCall hpacket hlen
    have hp := (hlive.slotEntry slot).parsed
    refine ⟨fun s acc hacc => ?_, call_cache_valid hp hc.parsed hl.cache hr⟩
    replace hacc : (l.slots.insert slot { r.acc with dropped := [] })[s]? = some acc := hacc
    rw [BTreeMap.getElem?_insert_eq] at hacc
    split_ifs at hacc with hs
    · subst hs
      cases hacc
      have hfiled := (hl.slotEntry slot).call hp hrs hc (hP slot c _ hmay clock) hl.cache hr
      exact hfiled
    · exact hl.filed s acc hacc
  exact hall.filed

/-! ## An honest run -/

theorem packetCall_code (F : FecSet parity) {q : ℕ} (hq : q < F.numCoding) (idx : ℕ) :
    packetCall ⟨idx, F.code q⟩ = some (F.slot, .code (F.codeArgs q)) := by
  obtain ⟨c, hparse, hslot, hset, hnd, hnc, hpos, hvariant⟩ := F.code_parse q hq
  unfold packetCall
  rw [hparse]
  simp only [CodeShred.args, hslot, hset, hnd, hnc, hpos, hvariant, F.coded_eq hq hparse]
  rfl

theorem honest_of_empty {slot : ℕ} {acc : SlotAccumulator} (h : acc.fecSets = ∅) :
    acc.Honest parity slot := by
  intro i fec hfec
  simp [h] at hfec

/-- The first code packet of an honest set leaves nothing but that set. -/
theorem honest_recordCode_fresh (F : FecSet parity) (cfg : AccumulatorConfig) {q : ℕ}
    (hq : q < F.numCoding) : ((withConfig cfg).recordCode (F.codeArgs q)).Honest parity F.slot := by
  intro i fec hfec _
  have hheld := FecSet.held_fresh (F := F) cfg hq
  have hi : F.fecSetIndex = i := by
    rw [FecSet.recordCode_fresh] at hfec
    replace hfec : ((∅ : BTreeMap FecSetBuffer).insert F.fecSetIndex _)[i]? = some fec := hfec
    rw [BTreeMap.getElem?_insert_eq] at hfec
    by_contra hne
    rw [if_neg hne] at hfec
    simp at hfec
  subst hi
  rw [hheld.recorded] at hfec
  cases hfec
  exact ⟨F, rfl, rfl, hheld.code, fun p hp ps hps _ => (hheld.data p hp ps hps).2⟩

/-- A shred that ends a batch is recovered, and a data packet of index 5 stays. -/
theorem shreds_filed_recovered :
    ∃ l replies, runRequests FecSet.copyEnv (2 ^ 32 + 1) (fromSocket {})
        [(quiet, .handlePacket (FecSet.batchEnd.code 0)),
          (quiet, .handlePacket (legacyPacket 0 5 0 [7]))] = some (l, replies) ∧
      (l.slotEntry 0).batchStart = 1 ∧ (l.slotEntry 0).pending.keys = [5] ∧
      ∀ acc, l.slots[0]? = some acc → acc.Filed 0 := by
  have hrun : ((runRequests FecSet.copyEnv (2 ^ 32 + 1) (fromSocket {})
      [(quiet, .handlePacket (FecSet.batchEnd.code 0)),
        (quiet, .handlePacket (legacyPacket 0 5 0 [7]))]).map fun r =>
          ((r.1.slotEntry 0).batchStart, (r.1.slotEntry 0).pending.keys)) = some (1, [5]) := by
    decide +kernel
  have hfirst : ((request FecSet.copyEnv quiet (2 ^ 32 + 1) (fromSocket {})
      (.handlePacket (FecSet.batchEnd.code 0))).map fun r => (r.1.slotEntry 0).fecSets.keys) =
        some [] := by decide +kernel
  obtain ⟨⟨l, replies⟩, h, heq⟩ := Option.map_eq_some_iff.mp hrun
  obtain ⟨hstart, hkeys⟩ := Prod.mk.inj heq
  refine ⟨l, replies, h, hstart, hkeys, shreds_filed FecSet.copyCrate_rebuilds {} ?_ h 0⟩
  refine ⟨?_, fun r₁ hr₁ => ⟨?_, fun _ _ => trivial⟩⟩
  · rintro slot c acc ⟨⟨raw, hraw, -, idx, hpacket⟩, -, -, hentry⟩ clock acc₀ ho
    have hacc : acc = withConfig {} := by
      rcases hentry with rfl | ⟨-, rfl⟩
      · rfl
      · rfl
    cases hraw
    rw [List.take_of_length_le (by rw [FecSet.batchEnd.code_length 0 Nat.one_pos]; decide),
      packetCall_code FecSet.batchEnd Nat.one_pos] at hpacket
    cases hpacket
    cases ho
    rw [hacc]
    exact honest_recordCode_fresh FecSet.batchEnd {} Nat.one_pos
  · have hempty : (r₁.1.slotEntry 0).fecSets = ∅ := by
      rw [Option.mem_def.mp hr₁] at hfirst
      exact Std.ExtTreeMap.isEmpty_iff.mp (by
        rw [← Std.ExtTreeMap.isEmpty_keys]
        exact List.isEmpty_iff.mpr (Option.some.inj hfirst))
    rintro slot c acc ⟨⟨raw, hraw, -, idx, hpacket⟩, -, -, hentry⟩ clock acc₀ ho
    have hparse : parseKind ((legacyPacket 0 5 0 [7]).take bufSize) = .ok (.data {
        slot := 0, index := 5, version := 0, fecSetIndex := 0, parentOffset := 0, payload := [7]
        batchComplete := false, lastInSlot := false, variant := .dataLegacy, rawLen := 89 }) := by
      decide +kernel
    cases hraw
    simp only [packetCall, hparse] at hpacket
    cases hpacket
    apply honest_of_empty
    have hacc : acc.fecSets = ∅ := by
      rcases hentry with rfl | ⟨-, rfl⟩
      · exact hempty
      · rfl
    cases ho with
    | last => exact hacc
    | data => exact hacc

/-! ## A forged code packet -/

/-- A code packet of the set of one data shred at index 0, whose parity is the shard
    of a data packet of index 7. -/
def forgedCode : Bytes := FecSet.merkleCode 0 1 1 0
  (dataShard 0 false (FecSet.merkleData 7 0 0 [7]))

/-- The index in the header of a data packet. -/
def headerIndex (raw : Bytes) : Option ℕ :=
  match parseKind raw with
  | .ok (.data d) => some d.index
  | _ => none

/-- The rebuilt shred of index 7 is stored under index 0. -/
theorem misfiled_shred :
    ¬∀ (qs : List (Surroundings × Request)) (l : ShredListener Unit) (replies : List Reply),
      runRequests FecSet.copyEnv (2 ^ 32 + 1) (fromSocket {}) qs = some (l, replies) →
        ∀ (s : ℕ) (acc : SlotAccumulator), l.slots[s]? = some acc → acc.Filed s := by
  intro hclaim
  have hrun : (runRequests FecSet.copyEnv (2 ^ 32 + 1) (fromSocket {})
      [(quiet, .handlePacket forgedCode)]).bind (fun r => r.1.slots[0]?.bind fun acc =>
        acc.pending[0]?.bind fun ps => headerIndex ps.source.slice) = some 7 := by decide +kernel
  obtain ⟨⟨l, replies⟩, h, hrest⟩ := Option.bind_eq_some_iff.mp hrun
  obtain ⟨acc, hacc, hrest⟩ := Option.bind_eq_some_iff.mp hrest
  obtain ⟨ps, hps, hindex⟩ := Option.bind_eq_some_iff.mp hrest
  obtain ⟨d, hparse, -, hd⟩ := hclaim _ l replies h 0 acc hacc 0 ps hps
  unfold headerIndex at hindex
  rw [hparse] at hindex
  simp only [Option.some.injEq] at hindex
  omega

end ShredStream.ShredListener
