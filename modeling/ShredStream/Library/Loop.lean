import Mathlib

/-!
# Loops bounded by fuel

A loop whose body either asks for another iteration or leaves with a result,
run for at most `fuel` iterations. The body is itself partial (it may contain
further loops), so `none` means "has not returned": the fuel ran out, here or
in a nested loop.

* `run_total`: a loop whose measure decreases returns, with the postcondition
  that its invariant gives.
* `run_spec`: partial correctness from an invariant.
* `run_eq_none`: a loop that never leaves a set of states never returns.
* `run_rel`: two loops in step.
* `Visits`: the states at the head of the iterations a loop makes.
* `heads_invariant`, `run_heads`: invariants that speak about the iterations made so
  far, at the head of every iteration and at the exit.
-/

namespace FuelLoop

variable {σ ρ : Type*}

/-- At most `fuel` iterations of `body` from `s`. -/
def run (body : σ → Option (σ ⊕ ρ)) : ℕ → σ → Option ρ
  | 0, _ => none
  | fuel + 1, s =>
    match body s with
    | none => none
    | some (.inl s') => run body fuel s'
    | some (.inr r) => some r

variable {body : σ → Option (σ ⊕ ρ)}

theorem run_next {s s' : σ} (h : body s = some (.inl s')) (fuel : ℕ) :
    run body (fuel + 1) s = run body fuel s' := by
  simp [run, h]

theorem run_done {s : σ} {r : ρ} (h : body s = some (.inr r)) (fuel : ℕ) :
    run body (fuel + 1) s = some r := by
  simp [run, h]

/-- Total correctness. The measure bounds the number of iterations left. -/
theorem run_total (I : σ → Prop) (Q : ρ → Prop) (μ : σ → ℕ)
    (hbody : ∀ s, I s → (∃ s', body s = some (.inl s') ∧ I s' ∧ μ s' < μ s) ∨
      (∃ r, body s = some (.inr r) ∧ Q r)) :
    ∀ fuel s, I s → μ s < fuel → ∃ r, run body fuel s = some r ∧ Q r := by
  intro fuel
  induction fuel with
  | zero => intro s _ h; omega
  | succ fuel ih =>
    intro s hs hμ
    rcases hbody s hs with ⟨s', hb, hs', hlt⟩ | ⟨r, hb, hr⟩
    · rw [run_next hb]
      exact ih s' hs' (by omega)
    · exact ⟨r, run_done hb fuel, hr⟩

/-- Partial correctness: what the invariant gives at the exit holds of the result. -/
theorem run_spec (I : σ → Prop) (Q : ρ → Prop)
    (hnext : ∀ s s', I s → body s = some (.inl s') → I s')
    (hdone : ∀ s r, I s → body s = some (.inr r) → Q r) :
    ∀ fuel s r, I s → run body fuel s = some r → Q r := by
  intro fuel
  induction fuel with
  | zero => intro s r _ h; simp [run] at h
  | succ fuel ih =>
    intro s r hs h
    rw [run] at h
    split at h
    · cases h
    · exact ih _ _ (hnext _ _ hs ‹_›) h
    · cases h
      exact hdone _ _ hs ‹_›

/-- A loop that can only move inside a set of states never returns from it. -/
theorem run_eq_none (I : σ → Prop)
    (hnext : ∀ s, I s → body s = none ∨ ∃ s', body s = some (.inl s') ∧ I s') :
    ∀ fuel s, I s → run body fuel s = none := by
  intro fuel
  induction fuel with
  | zero => intro s _; rfl
  | succ fuel ih =>
    intro s hs
    rcases hnext s hs with h | ⟨s', h, hs'⟩
    · simp [run, h]
    · rw [run_next h, ih s' hs']

/-- Two loops whose bodies keep their states related return related results, or
    neither of them returns. -/
theorem run_rel {σ' ρ' : Type*} {body' : σ' → Option (σ' ⊕ ρ')} (R : σ → σ' → Prop)
    (Q : ρ → ρ' → Prop)
    (hbody : ∀ s s', R s s' → Option.Rel (Sum.LiftRel R Q) (body s) (body' s')) :
    ∀ fuel s s', R s s' → Option.Rel Q (run body fuel s) (run body' fuel s') := by
  intro fuel
  induction fuel with
  | zero => intro s s' _; exact .none
  | succ fuel ih =>
    intro s s' hs
    have hb := hbody s s' hs
    rw [run, run]
    generalize body s = b at hb
    generalize body' s' = b' at hb
    cases hb with
    | none => exact .none
    | some hb =>
      cases hb with
      | inl h => exact ih _ _ h
      | inr h => exact .some h

/-! ## The states a loop visits -/

/-- `Visits body s t`: a loop started in `s` comes back to its head in state `t`. -/
inductive Visits (body : σ → Option (σ ⊕ ρ)) (s : σ) : σ → Prop
  | start : Visits body s s
  | next {t u : σ} : Visits body s t → body t = some (.inl u) → Visits body s u

theorem Visits.invariant {I : σ → Prop} {s t : σ} (h : Visits body s t) (hs : I s)
    (hnext : ∀ s s', I s → body s = some (.inl s') → I s') : I t := by
  induction h with
  | start => exact hs
  | next _ hb ih => exact hnext _ _ ih hb

theorem Visits.cases_head {s t : σ} (h : Visits body s t) :
    t = s ∨ ∃ s', body s = some (.inl s') ∧ Visits body s' t := by
  induction h with
  | start => exact .inl rfl
  | @next t u _ hb ih =>
    rcases ih with rfl | ⟨s', hs', ht⟩
    · exact .inr ⟨u, hb, .start⟩
    · exact .inr ⟨s', hs', .next ht hb⟩

/-! ## The iterations of a loop in order -/

/-- The states at the head of the iterations of a loop, in order. -/
def heads (body : σ → Option (σ ⊕ ρ)) : ℕ → σ → List σ
  | 0, _ => []
  | fuel + 1, s =>
    s :: match body s with
      | some (.inl s') => heads body fuel s'
      | _ => []

theorem heads_next {s s' : σ} (h : body s = some (.inl s')) (fuel : ℕ) :
    heads body (fuel + 1) s = s :: heads body fuel s' := by
  simp [heads, h]

theorem heads_done {s : σ} (h : ∀ s', body s ≠ some (.inl s')) (fuel : ℕ) :
    heads body (fuel + 1) s = [s] := by
  rw [heads]
  split
  · exact absurd ‹_› (h _)
  · rfl

/-- An invariant may speak about the iterations made before, which follow `T`. -/
theorem heads_invariant {I : List σ → σ → Prop}
    (hnext : ∀ T s s', I T s → body s = some (.inl s') → I (T ++ [s]) s') :
    ∀ fuel T s, I T s → ∀ n t, (heads body fuel s)[n]? = some t →
      I (T ++ (heads body fuel s).take n) t := by
  intro fuel
  induction fuel with
  | zero => intro T s _ n t h; simp [heads] at h
  | succ fuel ih =>
    intro T s hs n t h
    cases n with
    | zero =>
      obtain rfl : s = t := by simpa [heads] using h
      simpa using hs
    | succ n =>
      by_cases hb : ∃ s', body s = some (.inl s')
      · obtain ⟨s', hb⟩ := hb
        rw [heads_next hb, List.getElem?_cons_succ] at h
        have := ih (T ++ [s]) s' (hnext T s s' hs hb) n t h
        rwa [List.append_assoc, List.singleton_append, ← List.take_succ_cons,
          ← heads_next hb] at this
      · push Not at hb
        rw [heads_done hb] at h
        simp at h

/-- What holds when the loop is left. -/
theorem run_heads {I : List σ → σ → Prop} {Q : List σ → ρ → Prop}
    (hnext : ∀ T s s', I T s → body s = some (.inl s') → I (T ++ [s]) s')
    (hdone : ∀ T s r, I T s → body s = some (.inr r) → Q (T ++ [s]) r) :
    ∀ fuel T s r, I T s → run body fuel s = some r → Q (T ++ heads body fuel s) r := by
  intro fuel
  induction fuel with
  | zero => intro T s r _ h; simp [run] at h
  | succ fuel ih =>
    intro T s r hs h
    rw [run] at h
    split at h
    · cases h
    · rename_i s' hb
      have := ih (T ++ [s]) s' r (hnext T s s' hs hb) h
      rwa [List.append_assoc, List.singleton_append, ← heads_next hb] at this
    · rename_i r' hb
      cases h
      rw [heads_done (by rw [hb]; exact nofun)]
      exact hdone T s _ hs hb

end FuelLoop
