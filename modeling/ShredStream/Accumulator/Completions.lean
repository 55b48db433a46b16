import ShredStream.Accumulator.Steps

/-!
# What a slot had when it was marked complete

Proofs about `accumulator.rs`, lines 167–172 and 361–364. `slot_complete` is set by
the last shred of the slot alone, whatever lies in front of it; `completions` records
what was there at each such moment.

Results:
* `Accounted.call`: an index that was pending or finalised when the slot was marked
  stays so, over every call.
* `Live.accounted`: this holds of the accumulators that packets lead to, and a slot
  that is marked complete had a last shred.
-/

namespace ShredStream

/-- Index `i` was pending, or in a finalised batch, when the last shred came. -/
def Completion.Accounts (f : Completion) (i : ℕ) : Prop := i < f.batchStart ∨ i ∈ f.pending

/-- Nothing in front of the last shred was missing when it came. -/
def Completion.Whole (f : Completion) : Prop := ∀ i < f.index, f.Accounts i

instance (f : Completion) : Decidable f.Whole :=
  inferInstanceAs (Decidable (∀ i < f.index, i < f.batchStart ∨ i ∈ f.pending))

namespace SlotAccumulator

variable {C : Type} {env : Env C} {clock : Clock} {acc acc' : SlotAccumulator}

/-- Index `i` is pending (received or recovered), or in a finalised batch. -/
def Accounts (acc : SlotAccumulator) (i : ℕ) : Prop := i < acc.batchStart ∨ i ∈ acc.pending

/-- What was accounted for when the slot was marked still is; a marked slot had a
    last shred. -/
structure Accounted (acc : SlotAccumulator) : Prop where
  start_le : acc.batchStart ≤ u32Max
  kept : ∀ f ∈ acc.completions, ∀ i, f.Accounts i → acc.Accounts i
  marked : acc.slotComplete = true → acc.completions ≠ []

namespace Accounted

/-- Only more indices are accounted for, and the slot is not marked. -/
theorem mono (h : acc.Accounted) (hcompletions : acc'.completions = acc.completions)
    (hmark : acc'.slotComplete = acc.slotComplete) (hstart : acc'.batchStart ≤ u32Max)
    (hmore : ∀ i, acc.Accounts i → acc'.Accounts i) : acc'.Accounted where
  start_le := hstart
  kept f hf i hi := hmore i (h.kept f (hcompletions ▸ hf) i hi)
  marked hm := by
    rw [hcompletions]
    exact h.marked (hmark ▸ hm)

theorem completeSlot (h : acc.Accounted) (index : ℕ) : (acc.completeSlot index).Accounted where
  start_le := h.start_le
  kept f hf i hi := by
    rcases List.mem_append.mp hf with hf | hf
    · exact h.kept f hf i hi
    · rw [List.mem_singleton.mp hf] at hi
      exact hi
  marked _ := List.append_ne_nil_of_right_ne_nil _ (List.cons_ne_nil _ _)

/-- A shred that is stored is one more. -/
theorem insert (h : acc.Accounted) (k : ℕ) (ps : PendingShred) (boundaries : BTreeMap ℕ) :
    Accounted { acc with pending := acc.pending.insert k ps, batchCompleteIndices := boundaries } := by
  refine h.mono rfl rfl h.start_le fun i hi => hi.imp id fun hi => ?_
  exact Std.ExtTreeMap.mem_insert.mpr (.inr hi)

theorem insertData (h : acc.Accounted) (clock : Clock) (a : DataArgs) :
    (acc.insertData clock a).Accounted := h.insert _ _ _

theorem recordCode (h : acc.Accounted) (a : CodeArgs) : (acc.recordCode a).Accounted := by
  obtain ⟨fecSets, counters, heq, -⟩ := acc.recordCode_eq a
  rw [heq]
  exact { h with }

theorem tryFecFill (h : acc.Accounted) (cache : ReedSolomonCache C) (hint : ℕ) :
    (acc.tryFecFill env clock cache hint).1.Accounted := by
  refine tryFecFill_invariant env acc clock cache hint h ?_ ?_ ?_
  · intro setIdx fec cache' recovered r acc₁ acc₂ _ _ _ h₁ hinsert
    cases hinsert with
    | skip => exact h₁
    | last => exact h₁.completeSlot _
    | store => exact h₁.insert _ _ _
  · exact fun acc₁ counters h₁ => { h₁ with }
  · exact fun acc₁ k h₁ => { h₁ with }

/-- A finalised batch is behind the new batch start, whether it was complete or
    not. -/
theorem finalise (h : acc.Accounted) (txs : List VersionedTransaction) (counters : Counters)
    {bcIdx : ℕ} (hge : acc.batchStart ≤ bcIdx) : (acc.finalise txs counters bcIdx).Accounted := by
  have hstart : (acc.finalise txs counters bcIdx).batchStart = satAdd32 bcIdx 1 := rfl
  have hle : acc.batchStart ≤ satAdd32 bcIdx 1 := le_min (by omega) h.start_le
  refine h.mono rfl rfl (min_le_right _ _) fun i hi => ?_
  by_cases hlt : i < satAdd32 bcIdx 1
  · exact .inl (hstart ▸ hlt)
  · rcases hi with hi | hi
    · exact absurd (hi.trans_le hle) hlt
    · exact .inr ((mem_completeBatch_pending _).mpr ⟨hi, not_lt.mp hlt⟩)

end Accounted

theorem Step.accounted {s s' : CallState C} (h : Step env clock s s') (hs : s.acc.Accounted) :
    s'.acc.Accounted := by
  cases h with
  | fill hint => exact hs.tryFecFill s.cache hint
  | stream => exact { hs with }
  | streamError => exact { hs with }
  | finalise txs hge _ => exact hs.finalise txs _ hge
  | record => exact { hs with }
  | tally => exact { hs with }

theorem Accounted.call (h : acc.Accounted) (hp : acc.Parsed) {c : Call} (hc : c.Parsed)
    {cache : ReedSolomonCache C} {fuel : ℕ} {r : CallState C}
    (hr : acc.call env clock fuel cache c = some r) : r.acc.Accounted := by
  refine call_invariant (fun _ _ _ hs hstep => hstep.accounted hs) (fun _ _ hs => { hs with }) ?_
    hp h hc hr
  intro acc₀ ho
  cases ho with
  | last => exact h.completeSlot _
  | data => exact h.insertData clock _
  | code => exact h.recordCode _
  | harvest => exact h

theorem Live.accounted {fuel : ℕ} {cfg : AccumulatorConfig} {slot : ℕ}
    (h : Live env fuel cfg slot acc) : acc.Accounted := by
  induction h with
  | fresh => exact ⟨Nat.zero_le _, fun f hf => (List.not_mem_nil hf).elim, nofun⟩
  | call hlive hc hr ih =>
    have hr := ih.call hlive.parsed hc.parsed hr
    exact { hr with }

end SlotAccumulator

end ShredStream
