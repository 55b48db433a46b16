import ShredStream.Accumulator.Basic

/-!
# Sequences of calls on one accumulator

`runCalls` makes calls one after the other, as the listener does on the
accumulator of a slot, and collects what they return. `runCalls_total` turns a
step lemma into a statement about all sequences.
-/

namespace ShredStream.SlotAccumulator

/-- A call on an accumulator. -/
inductive Call
  | data (a : DataArgs)
  | code (a : CodeArgs)
  | harvest

variable {C : Type}

/-- Make a call. -/
def call (env : Env C) (clock : Clock) (fuel : ℕ) (acc : SlotAccumulator)
    (cache : ReedSolomonCache C) : Call → Option (CallState C)
  | .data a => acc.pushData env clock fuel cache a
  | .code a => acc.pushCode env clock fuel cache a
  | .harvest => acc.tryHarvestTail env clock fuel cache

/-- Make calls one after the other, each with its own clock; `out` collects
    what they return. -/
def runCalls (env : Env C) (fuel : ℕ) : CallState C → List (Clock × Call) → Option (CallState C)
  | s, [] => some s
  | s, c :: calls => do
    let r ← s.acc.call env c.1 fuel s.cache c.2
    runCalls env fuel { r with out := s.out ++ r.out } calls

/-- A fresh accumulator before its first call. -/
def CallState.fresh (cfg : AccumulatorConfig) (cache : ReedSolomonCache C) : CallState C :=
  ⟨withConfig cfg, cache, []⟩

theorem runCalls_append (env : Env C) (fuel : ℕ) (s : CallState C) (calls calls' : List (Clock × Call)) :
    runCalls env fuel s (calls ++ calls') =
      (runCalls env fuel s calls).bind fun r => runCalls env fuel r calls' := by
  induction calls generalizing s with
  | nil => rfl
  | cons c calls ih =>
    simp only [List.cons_append, runCalls, Option.bind_eq_bind]
    cases s.acc.call env c.1 fuel s.cache c.2 with
    | none => rfl
    | some r => exact ih _

/-- Partial correctness of a sequence of calls: what each of them keeps holds at the
    end. -/
theorem runCalls_spec {env : Env C} {fuel : ℕ} {I : CallState C → Prop}
    {calls : List (Clock × Call)} {s r : CallState C} (hrun : runCalls env fuel s calls = some r)
    (hs : I s)
    (hstep : ∀ pre c post s₁ r₁, calls = pre ++ c :: post → runCalls env fuel s pre = some s₁ →
      I s₁ → s₁.acc.call env c.1 fuel s₁.cache c.2 = some r₁ →
        I { r₁ with out := s₁.out ++ r₁.out }) : I r := by
  induction calls using List.reverseRecOn generalizing r with
  | nil =>
    cases hrun
    exact hs
  | append_singleton calls c ih =>
    rw [runCalls_append, Option.bind_eq_some_iff] at hrun
    obtain ⟨s₁, hpre, hlast⟩ := hrun
    have hs₁ : I s₁ := ih hpre fun pre c' post s₁ r₁ hsplit =>
      hstep pre c' (post ++ [c]) s₁ r₁ (by rw [hsplit, List.append_assoc, List.cons_append])
    obtain ⟨r₁, hr₁, hlast⟩ := Option.bind_eq_some_iff.mp hlast
    cases hlast
    exact hstep calls c [] s₁ r₁ rfl hpre hs₁ hr₁

/-- Every call returns and keeps what holds, so they all do. -/
theorem runCalls_returns {env : Env C} {fuel : ℕ} {I : CallState C → Prop}
    {calls : List (Clock × Call)} {s : CallState C} (hs : I s)
    (hstep : ∀ pre c post s₁, calls = pre ++ c :: post → runCalls env fuel s pre = some s₁ →
      I s₁ → ∃ r, s₁.acc.call env c.1 fuel s₁.cache c.2 = some r ∧
        I { r with out := s₁.out ++ r.out }) :
    ∃ r, runCalls env fuel s calls = some r ∧ I r := by
  induction calls using List.reverseRecOn with
  | nil => exact ⟨s, rfl, hs⟩
  | append_singleton calls c ih =>
    obtain ⟨s₁, hpre, hs₁⟩ := ih fun pre c' post s₁ hsplit =>
      hstep pre c' (post ++ [c]) s₁ (by rw [hsplit, List.append_assoc, List.cons_append])
    obtain ⟨r, hr, hI⟩ := hstep calls c [] s₁ rfl hpre hs₁
    refine ⟨_, ?_, hI⟩
    rw [runCalls_append, hpre, Option.bind_some]
    simp only [runCalls, hr, Option.bind_eq_bind, Option.bind_some]

/-- Total correctness of a sequence of calls. The invariant `I` may speak about
    the calls made so far. -/
theorem runCalls_total {env : Env C} {fuel : ℕ} (I : List (Clock × Call) → CallState C → Prop)
    (P : Clock × Call → Prop)
    (hstep : ∀ pre s c, I pre s → P c → ∃ r, s.acc.call env c.1 fuel s.cache c.2 = some r ∧
      I (pre ++ [c]) { r with out := s.out ++ r.out }) :
    ∀ calls pre s, I pre s → (∀ c ∈ calls, P c) →
      ∃ r, runCalls env fuel s calls = some r ∧ I (pre ++ calls) r := by
  intro calls
  induction calls with
  | nil => exact fun pre s hs _ => ⟨s, rfl, by rwa [List.append_nil]⟩
  | cons c calls ih =>
    intro pre s hs hP
    obtain ⟨r, hr, hI⟩ := hstep pre s c hs (hP c List.mem_cons_self)
    obtain ⟨r', hr', hI'⟩ := ih _ _ hI fun c' hc' => hP c' (List.mem_cons_of_mem _ hc')
    refine ⟨r', ?_, by simpa using hI'⟩
    simp only [runCalls, hr, Option.bind_eq_bind, Option.bind_some, hr']

end ShredStream.SlotAccumulator
