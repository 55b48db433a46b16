import Mathlib

/-!
# Machines side by side

A machine takes an event to its next state and its outputs, or does not return.
One machine for every key, each event going to the machine of its key, is a
machine again (`runAll`).

* `run_project`: what a key sees of a run of all machines is the run of its own
  machine on its own events, and that machine's outputs are those that carry the
  key.
-/

namespace Keyed

variable {K σ ε ω : Type*}

/-- One event after the other; the outputs in order. -/
def run (step : σ → ε → Option (σ × List ω)) : σ → List ε → Option (σ × List ω)
  | s, [] => some (s, [])
  | s, e :: es =>
    match step s e with
    | none => none
    | some (s', out) => (run step s' es).map fun r => (r.1, out ++ r.2)

section run

variable {step : σ → ε → Option (σ × List ω)} {s s' : σ} {out : List ω}

theorem run_cons {e : ε} {es : List ε} (h : step s e = some (s', out)) :
    run step s (e :: es) = (run step s' es).map fun r => (r.1, out ++ r.2) := by
  simp [run, h]

theorem run_singleton (s : σ) (e : ε) : run step s [e] = step s e := by
  unfold run
  split
  · exact Eq.symm ‹_›
  · rename_i h
    simp [run, h]

theorem run_append {es es' : List ε} {s₁ s₂ : σ} {out₁ out₂ : List ω}
    (h : run step s es = some (s₁, out₁)) (h' : run step s₁ es' = some (s₂, out₂)) :
    run step s (es ++ es') = some (s₂, out₁ ++ out₂) := by
  induction es generalizing s out₁ with
  | nil =>
    cases h
    exact h'
  | cons e es ih =>
    rw [run] at h
    split at h
    · cases h
    · rename_i s₀ out hstep
      obtain ⟨⟨t, rest⟩, hrest, heq⟩ := Option.map_eq_some_iff.mp h
      cases heq
      rw [List.cons_append, run_cons hstep, ih hrest, Option.map_some, List.append_assoc]

end run

/-! ## All keys -/

/-- The items for which `f` gives something, with their keys. -/
def collect {α β : Type*} (f : α → Option β) (l : List (K × α)) : List (K × β) :=
  l.filterMap fun e => (f e.2).map (e.1, ·)

theorem collect_append {α β : Type*} (f : α → Option β) (l l' : List (K × α)) :
    collect f (l ++ l') = collect f l ++ collect f l' := List.filterMap_append

variable [DecidableEq K]

/-- The items that carry a key, without it. -/
def project {α : Type*} (k : K) (l : List (K × α)) : List α :=
  l.filterMap fun e => if e.1 = k then some e.2 else none

theorem project_append {α : Type*} (k : K) (l l' : List (K × α)) :
    project k (l ++ l') = project k l ++ project k l' := List.filterMap_append

theorem project_cons_self {α : Type*} (k : K) (a : α) (l : List (K × α)) :
    project k ((k, a) :: l) = a :: project k l := by
  simp [project]

theorem project_cons_ne {α : Type*} {k k' : K} (h : k' ≠ k) (a : α) (l : List (K × α)) :
    project k ((k', a) :: l) = project k l := by
  simp [project, h]

theorem project_map_self {α : Type*} (k : K) (l : List α) : project k (l.map (k, ·)) = l := by
  simp [project, List.filterMap_map]

theorem project_map_ne {α : Type*} {k k' : K} (h : k' ≠ k) (l : List α) :
    project k (l.map (k', ·)) = [] := by
  simp [project, List.filterMap_map, h]

theorem mem_project {α : Type*} {k : K} {a : α} {l : List (K × α)} :
    a ∈ project k l ↔ (k, a) ∈ l := by
  simp only [project, List.mem_filterMap]
  constructor
  · rintro ⟨⟨k', b⟩, hmem, h⟩
    split_ifs at h with hk
    cases h
    subst hk
    exact hmem
  · exact fun h => ⟨(k, a), h, if_pos rfl⟩

theorem project_collect {α β : Type*} (f : α → Option β) (k : K) (l : List (K × α)) :
    project k (collect f l) = (project k l).filterMap f := by
  unfold project collect
  rw [List.filterMap_filterMap, List.filterMap_filterMap]
  refine List.filterMap_congr fun e _ => ?_
  by_cases hk : e.1 = k
  · cases h : f e.2 <;> simp [h, hk]
  · cases f e.2 <;> simp [hk]

/-- A step of the machine of a key. -/
def stepAll (step : σ → ε → Option (σ × List ω)) (s : K → σ) (e : K × ε) :
    Option ((K → σ) × List (K × ω)) :=
  (step (s e.1) e.2).map fun r => (Function.update s e.1 r.1, r.2.map (e.1, ·))

/-- The machines of all keys. -/
abbrev runAll (step : σ → ε → Option (σ × List ω)) :
    (K → σ) → List (K × ε) → Option ((K → σ) × List (K × ω)) :=
  run (stepAll step)

variable {step : σ → ε → Option (σ × List ω)} {s s' : K → σ} {out : List (K × ω)}

/-- What a step does to the machine of a key: its own step, or nothing. -/
theorem stepAll_project {e : K × ε} (h : stepAll step s e = some (s', out)) (k : K) :
    run step (s k) (project k [e]) = some (s' k, project k out) := by
  obtain ⟨k', e⟩ := e
  obtain ⟨⟨t, o⟩, hstep, heq⟩ := Option.map_eq_some_iff.mp h
  cases heq
  by_cases hk : k' = k
  · subst hk
    rw [project_cons_self, project_map_self, Function.update_self]
    show run step (s k') [e] = _
    rw [run_singleton]
    exact hstep
  · rw [project_cons_ne hk, project_map_ne hk, Function.update_of_ne (Ne.symm hk)]
    rfl

/-- A key sees its own machine, its own events and its own outputs. -/
theorem run_project {es : List (K × ε)} (h : runAll step s es = some (s', out)) (k : K) :
    run step (s k) (project k es) = some (s' k, project k out) := by
  induction es generalizing s out with
  | nil =>
    cases h
    rfl
  | cons e es ih =>
    unfold runAll run at h
    split at h
    · cases h
    · rename_i s₀ out₀ hstep
      obtain ⟨⟨s₁, rest⟩, hrest, heq⟩ := Option.map_eq_some_iff.mp h
      cases heq
      have hrun := run_append (stepAll_project hstep k) (ih hrest)
      rwa [← project_append, ← project_append, List.singleton_append] at hrun

end Keyed
