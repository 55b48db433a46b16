import Mathlib

/-!
# Runs of consecutive numbers

`runs` cuts an ascending list of numbers into its maximal runs of consecutive
numbers. Applied to the numbers of an interval that satisfy `p` (`runsIn`), a
run is an interval on which `p` holds and which cannot be extended.
-/

namespace Runs

/-- Cut into maximal runs of consecutive numbers. -/
def runs : List ℕ → List (List ℕ)
  | [] => []
  | i :: is =>
    match runs is with
    | [] => [[i]]
    | r :: rs => if r.head? = some (i + 1) then (i :: r) :: rs else [i] :: r :: rs

/-- The runs of the numbers in `[a, b)` that satisfy `p`. -/
def runsIn (p : ℕ → Bool) (a b : ℕ) : List (List ℕ) := runs ((List.range' a (b - a)).filter p)

variable {p : ℕ → Bool} {a b c : ℕ}

theorem runsIn_congr {p' : ℕ → Bool} (h : ∀ i, a ≤ i → p i = p' i) :
    runsIn p a b = runsIn p' a b := by
  unfold runsIn
  congr 1
  refine List.filter_congr fun i hi => h i ?_
  rw [List.mem_range'_1] at hi
  exact hi.1

theorem runsIn_empty (h : b ≤ a) : runsIn p a b = [] := by
  simp [runsIn, show b - a = 0 by omega, runs]

theorem range'_eq_cons (h : a < b) : List.range' a (b - a) = a :: List.range' (a + 1) (b - (a + 1)) := by
  rw [show b - a = (b - (a + 1)) + 1 by omega, List.range'_succ]

/-- A number outside `p` at the left end belongs to no run. -/
theorem runsIn_skip (h : a < b) (hp : p a = false) : runsIn p a b = runsIn p (a + 1) b := by
  rw [runsIn, range'_eq_cons h, List.filter_cons_of_neg (by simp [hp]), runsIn]

theorem runsIn_cons (h : a < b) (hp : p a = true) :
    runsIn p a b = match runsIn p (a + 1) b with
      | [] => [[a]]
      | r :: rs => if r.head? = some (a + 1) then (a :: r) :: rs else [a] :: r :: rs := by
  rw [runsIn, range'_eq_cons h, List.filter_cons_of_pos hp, runs]
  rfl

/-- Numbers outside `p` at the left end belong to no run. -/
theorem runsIn_skip_to (hab : a ≤ b) (hp : ∀ i, a ≤ i → i < b → p i = false) (hbc : b ≤ c) :
    runsIn p a c = runsIn p b c := by
  induction b, hab using Nat.le_induction with
  | base => rfl
  | succ b hab ih =>
    rw [ih (fun i h1 h2 => hp i h1 (by omega)) (by omega),
      runsIn_skip (by omega) (hp b hab (by omega))]

/-- The first number of a run is in the list. -/
theorem mem_of_head?_runs {l : List ℕ} {r : List ℕ} {rs : List (List ℕ)} {i : ℕ}
    (h : runs l = r :: rs) (hi : r.head? = some i) : i ∈ l := by
  cases l with
  | nil => simp [runs] at h
  | cons j l =>
    have hj : i = j := by
      rw [runs] at h
      split at h
      · cases h; simpa using hi.symm
      · split_ifs at h <;> (cases h; simpa using hi.symm)
    simp [hj]

/-- The first run, when `p` holds on `[a, b)` and the run ends at `b`. -/
theorem runsIn_block (hab : a < b) (hp : ∀ i, a ≤ i → i < b → p i = true) (hbc : b ≤ c)
    (hend : b = c ∨ p b = false) :
    runsIn p a c = List.range' a (b - a) :: runsIn p b c := by
  obtain ⟨n, hn⟩ : ∃ n, b - a = n + 1 := ⟨b - a - 1, by omega⟩
  induction n generalizing a with
  | zero =>
    have hb : b = a + 1 := by omega
    subst hb
    rw [runsIn_cons (by omega) (hp a le_rfl hab)]
    -- no run of the rest begins at `b`
    have hhead : ∀ r rs, runsIn p (a + 1) c = r :: rs → r.head? ≠ some (a + 1) := by
      intro r rs hr hi
      have := mem_of_head?_runs hr hi
      rw [List.mem_filter, List.mem_range'_1] at this
      rcases hend with h | h
      · omega
      · rw [h] at this; simp at this
    split
    · simp [*]
    · rw [if_neg (hhead _ _ ‹_›)]
      simp [*]
  | succ n ih =>
    rw [runsIn_cons (by omega) (hp a le_rfl hab),
      ih (by omega) (fun i h1 h2 => hp i (by omega) h2) (by omega), range'_eq_cons hab]
    simp [range'_eq_cons (show a + 1 < b by omega)]

/-- Where a stretch of `p` starting at `a` ends. -/
theorem exists_block_end (hac : a < c) (hp : p a = true) :
    ∃ b, a < b ∧ b ≤ c ∧ (∀ i, a ≤ i → i < b → p i = true) ∧ (b = c ∨ p b = false) := by
  obtain ⟨n, hn⟩ : ∃ n, c - a = n + 1 := ⟨c - a - 1, by omega⟩
  induction n generalizing a with
  | zero => exact ⟨a + 1, by omega, by omega, fun i h1 h2 => by rwa [show i = a by omega], by omega⟩
  | succ n ih =>
    by_cases hp' : p (a + 1) = true
    · obtain ⟨b, h1, h2, h3, h4⟩ := ih (by omega) hp' (by omega)
      refine ⟨b, by omega, h2, fun i hi hib => ?_, h4⟩
      rcases Nat.eq_or_lt_of_le hi with rfl | hi
      · exact hp
      · exact h3 i hi hib
    · exact ⟨a + 1, by omega, by omega, fun i h1 h2 => by rwa [show i = a by omega],
        .inr (by simpa using hp')⟩

/-- No run crosses a number behind one outside `p`. -/
theorem runsIn_append (hab : a ≤ b) (hbc : b ≤ c) (hcut : b = a ∨ p (b - 1) = false) :
    runsIn p a c = runsIn p a b ++ runsIn p b c := by
  induction hn : b - a using Nat.strong_induction_on generalizing a with
  | _ n ih =>
    rcases Nat.eq_or_lt_of_le hab with rfl | hab
    · rw [runsIn_empty le_rfl, List.nil_append]
    have hcut : p (b - 1) = false := hcut.resolve_left (by omega)
    by_cases hp : p a = true
    · obtain ⟨e, hae, heb, hblk, hend⟩ := exists_block_end hab hp
      have hne : e ≠ b := by
        rintro rfl
        rw [hblk (e - 1) (by omega) (by omega)] at hcut
        cases hcut
      have hpe : p e = false := hend.resolve_left hne
      rw [runsIn_block hae hblk (by omega) (.inr hpe), runsIn_block hae hblk heb (.inr hpe),
        ih (b - e) (by omega) heb (.inr hcut) rfl, List.cons_append]
    · have hp : p a = false := by simpa using hp
      rw [runsIn_skip (by omega) hp, runsIn_skip hab hp,
        ih (b - (a + 1)) (by omega) hab (.inr hcut) rfl]

/-- Every run is a nonempty interval inside `[a, c)` on which `p` holds and
    which is not preceded by a number satisfying `p`. -/
theorem runsIn_shape {r : List ℕ} (hr : r ∈ runsIn p a c) :
    ∃ x y, r = List.range' x (y - x) ∧ a ≤ x ∧ x < y ∧ y ≤ c ∧
      (∀ i, x ≤ i → i < y → p i = true) ∧ (x = a ∨ p (x - 1) = false) ∧
      (y = c ∨ p y = false) := by
  obtain ⟨n, hn⟩ : ∃ n, c - a ≤ n := ⟨_, le_rfl⟩
  induction n generalizing a with
  | zero =>
    rw [runsIn_empty (by omega)] at hr
    simp at hr
  | succ n ih =>
    by_cases hac : a < c
    swap
    · rw [runsIn_empty (by omega)] at hr
      simp at hr
    by_cases hp : p a = true
    · obtain ⟨b, hab, hbc, hblk, hend⟩ := exists_block_end hac hp
      rw [runsIn_block hab hblk hbc hend] at hr
      rcases List.mem_cons.mp hr with rfl | hr
      · exact ⟨a, b, rfl, le_rfl, hab, hbc, hblk, .inl rfl, hend⟩
      · obtain ⟨x, y, h1, h2, h3, h4, h5, h6, h7⟩ := ih hr (by omega)
        refine ⟨x, y, h1, by omega, h3, h4, h5, ?_, h7⟩
        rcases h6 with rfl | h6
        · -- the next run cannot begin where this one ends
          exfalso
          have := h5 x le_rfl h3
          rcases hend with rfl | h <;> simp_all
          omega
        · exact .inr h6
    · rw [runsIn_skip hac (by simpa using hp)] at hr
      obtain ⟨x, y, h1, h2, h3, h4, h5, h6, h7⟩ := ih hr (by omega)
      refine ⟨x, y, h1, by omega, h3, h4, h5, .inr ?_, h7⟩
      rcases h6 with rfl | h6
      · simpa using hp
      · exact h6

end Runs
