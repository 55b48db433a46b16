import Mathlib

/-!
# Pulling answers from a machine that reads inputs

A machine reads inputs one at a time; a reading changes its state and gives a
list of answers, possibly none. `next` hands the answers out one at a time: it
takes the first one waiting, and reads only when none waits, as often as it has
to. `none` as a result means that a reading did not return.

* `next_spec`, `run_spec`: what was handed out, followed by what still waits, is
  what waited at the start followed by what the inputs read give.
* `run_of_readAll`: asking often enough reads all inputs and hands out
  everything.
-/

namespace Pull

variable {σ ι α : Type*} (step : σ → ι → Option (σ × List α))

/-- Read inputs until an answer waits, and hand it out. No answer: the inputs
    are used up. -/
def next : σ → List α → List ι → Option ((σ × List α) × Option α × List ι)
  | s, a :: queue, inputs => some ((s, queue), some a, inputs)
  | s, [], [] => some ((s, []), none, [])
  | s, [], i :: inputs => (step s i).bind fun r => next r.1 r.2 inputs

/-- Read all inputs, collecting the answers. -/
def readAll : σ → List ι → Option (σ × List α)
  | s, [] => some (s, [])
  | s, i :: inputs => (step s i).bind fun r =>
    (readAll r.1 inputs).map fun r' => (r'.1, r.2 ++ r'.2)

/-- Ask `n` times, or until no answer comes. -/
def run : ℕ → σ → List α → List ι → Option ((σ × List α) × List α × List ι)
  | 0, s, queue, inputs => some ((s, queue), [], inputs)
  | n + 1, s, queue, inputs => (next step s queue inputs).bind fun r =>
    match r.2.1 with
    | none => some (r.1, [], r.2.2)
    | some a => (run n r.1.1 r.1.2 r.2.2).map fun r' => (r'.1, a :: r'.2.1, r'.2.2)

variable {step} {s s' : σ} {queue queue' out answers : List α} {inputs rest : List ι}

theorem readAll_cons {i : ι} {r r' : σ × List α} (h : step s i = some r)
    (h' : readAll step r.1 inputs = some r') :
    readAll step s (i :: inputs) = some (r'.1, r.2 ++ r'.2) := by
  simp [readAll, h, h']

theorem readAll_append {inputs' : List ι} {r r' : σ × List α}
    (h : readAll step s inputs = some r) (h' : readAll step r.1 inputs' = some r') :
    readAll step s (inputs ++ inputs') = some (r'.1, r.2 ++ r'.2) := by
  induction inputs generalizing s r with
  | nil =>
    cases h
    simpa using h'
  | cons i inputs ih =>
    simp only [readAll, Option.bind_eq_some_iff, Option.map_eq_some_iff] at h
    obtain ⟨r₁, h₁, r₂, h₂, rfl⟩ := h
    rw [List.cons_append, readAll_cons h₁ (ih h₂ h'), List.append_assoc]

/-! ## What is handed out -/

/-- The inputs that one call of `next` reads. -/
theorem next_spec {answer : Option α}
    (h : next step s queue inputs = some ((s', queue'), answer, rest)) :
    ∃ used out, inputs = used ++ rest ∧ readAll step s used = some (s', out) ∧
      queue ++ out = answer.toList ++ queue' ∧ (answer = none → rest = [] ∧ queue' = []) := by
  induction inputs generalizing s queue with
  | nil =>
    cases queue with
    | nil =>
      simp only [next] at h
      cases h
      exact ⟨[], [], rfl, rfl, rfl, fun _ => ⟨rfl, rfl⟩⟩
    | cons a queue =>
      simp only [next] at h
      cases h
      exact ⟨[], [], rfl, rfl, by simp, nofun⟩
  | cons i inputs ih =>
    cases queue with
    | nil =>
      simp only [next, Option.bind_eq_some_iff] at h
      obtain ⟨r, hr, h⟩ := h
      obtain ⟨used, out, rfl, hread, hout, hend⟩ := ih h
      exact ⟨i :: used, r.2 ++ out, rfl, readAll_cons hr hread, hout, hend⟩
    | cons a queue =>
      simp only [next] at h
      cases h
      exact ⟨[], [], rfl, rfl, by simp, nofun⟩

/-- Every answer is handed out once, in order, and no input is read twice or
    skipped. Fewer answers than asked for: everything is read and handed out. -/
theorem run_spec {n : ℕ} (h : run step n s queue inputs = some ((s', queue'), answers, rest)) :
    ∃ used out, inputs = used ++ rest ∧ readAll step s used = some (s', out) ∧
      queue ++ out = answers ++ queue' ∧ (answers.length < n → rest = [] ∧ queue' = []) := by
  induction n generalizing s queue inputs answers with
  | zero =>
    cases h
    exact ⟨[], [], rfl, rfl, by simp, nofun⟩
  | succ n ih =>
    simp only [run, Option.bind_eq_some_iff] at h
    obtain ⟨⟨⟨s₁, queue₁⟩, answer, inputs₁⟩, hnext, h⟩ := h
    obtain ⟨used, out, rfl, hread, hout, hend⟩ := next_spec hnext
    cases answer with
    | none =>
      cases h
      exact ⟨used, out, rfl, hread, hout, fun _ => hend rfl⟩
    | some a =>
      obtain ⟨⟨_, answers₁, _⟩, hrun, heq⟩ := Option.map_eq_some_iff.mp h
      cases heq
      obtain ⟨used', out', rfl, hread', hout', hend'⟩ := ih hrun
      refine ⟨used ++ used', out ++ out', by simp, readAll_append hread hread', ?_, ?_⟩
      · calc queue ++ (out ++ out') = a :: (queue₁ ++ out') := by
              rw [← List.append_assoc, hout]; rfl
          _ = a :: answers₁ ++ queue' := by rw [hout']; rfl
      · intro hlen
        exact hend' (Nat.lt_of_succ_lt_succ hlen)

/-- Whoever asks more often than there are answers gets all of them. -/
theorem run_of_readAll (h : readAll step s inputs = some (s', out)) {n : ℕ}
    (hn : (queue ++ out).length < n) :
    run step n s queue inputs = some ((s', []), queue ++ out, []) := by
  induction n generalizing s queue inputs out with
  | zero => simp at hn
  | succ n ih =>
    cases queue with
    | cons a queue =>
      have hrun := @ih s queue out inputs h (by simpa using hn)
      simp [run, next, hrun]
    | nil =>
      induction inputs generalizing s out with
      | nil =>
        cases h
        rfl
      | cons i inputs ih' =>
        simp only [readAll, Option.bind_eq_some_iff, Option.map_eq_some_iff] at h
        obtain ⟨⟨s₁, out₁⟩, h₁, ⟨s₂, out₂⟩, h₂, heq⟩ := h
        cases heq
        cases out₁ with
        | nil =>
          have hrun := ih' h₂ hn
          simpa [run, next, h₁] using hrun
        | cons a out₁ =>
          have hrun := @ih s₁ out₁ out₂ inputs h₂ (by simpa using hn)
          simp [run, next, h₁, hrun]

end Pull
