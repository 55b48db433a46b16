import Mathlib

/-!
# Ordered finite maps with natural keys

`BTreeMap V` is `Std.ExtTreeMap ℕ V`; its `toList` is the ascending iteration.
On top of the standard library this file adds the two range operations the
iteration order is used for:

* `firstFrom m a`: the first entry with key at least `a`;
* `countIn m a b`: the number of entries with key in `[a, b]`.

`head?_keys_iff` says that the iteration starts at the lowest key.

`sumOver m f` adds up `f` over the entries, in any commutative monoid, and changes
with `insert`, `erase` and `filter` as it should.
-/

/-- An ordered map with natural keys. -/
abbrev BTreeMap (V : Type*) := Std.ExtTreeMap ℕ V compare

namespace BTreeMap

variable {V : Type*} (m : BTreeMap V)

theorem mem_iff_getElem? {k : ℕ} : k ∈ m ↔ ∃ v, m[k]? = some v := by
  rw [Std.ExtTreeMap.mem_iff_isSome_getElem?, Option.isSome_iff_exists]

theorem getElem?_insert_eq {k a : ℕ} {v : V} :
    (m.insert k v)[a]? = if k = a then some v else m[a]? := by
  rw [Std.ExtTreeMap.getElem?_insert]
  simp

theorem getElem?_erase_eq {k a : ℕ} : (m.erase k)[a]? = if k = a then none else m[a]? := by
  rw [Std.ExtTreeMap.getElem?_erase]
  simp

theorem getElem?_filter_eq {f : ℕ → V → Bool} {k : ℕ} {v : V} :
    (m.filter f)[k]? = some v ↔ m[k]? = some v ∧ f k v = true := by
  rw [Std.ExtTreeMap.getElem?_filter', Option.filter_eq_some_iff]

theorem mem_toList {k : ℕ} {v : V} : (k, v) ∈ m.toList ↔ m[k]? = some v :=
  Std.ExtTreeMap.mem_toList_iff_getElem?_eq_some

theorem toList_sorted : m.toList.Pairwise (fun a b => a.1 < b.1) := by
  have h := Std.ExtTreeMap.ordered_keys_toList (t := m)
  exact h.imp fun h => Nat.compare_eq_lt.mp h

/-- `range(a..).next()`: the first entry with key at least `a`. -/
def firstFrom (a : ℕ) : Option (ℕ × V) := m.toList.find? fun e => a ≤ e.1

theorem firstFrom_eq_none {a : ℕ} : m.firstFrom a = none ↔ ∀ k ∈ m, k < a := by
  rw [firstFrom, List.find?_eq_none]
  constructor
  · intro h k hk
    obtain ⟨v, hv⟩ := m.mem_iff_getElem?.mp hk
    have := h (k, v) (m.mem_toList.mpr hv)
    simpa using this
  · rintro h ⟨k, v⟩ hkv
    have := h k (m.mem_iff_getElem?.mpr ⟨v, m.mem_toList.mp hkv⟩)
    simpa using this

theorem firstFrom_spec {a k : ℕ} {v : V} (h : m.firstFrom a = some (k, v)) :
    m[k]? = some v ∧ a ≤ k ∧ ∀ j ∈ m, a ≤ j → k ≤ j := by
  rw [firstFrom, List.find?_eq_some_iff_append] at h
  obtain ⟨hk, l, l', hl, hbefore⟩ := h
  have hsorted := m.toList_sorted
  refine ⟨m.mem_toList.mp (by rw [hl]; simp), by simpa using hk, fun j hj haj => ?_⟩
  obtain ⟨u, hu⟩ := m.mem_iff_getElem?.mp hj
  have hmem := m.mem_toList.mpr hu
  rw [hl] at hmem hsorted
  rcases List.mem_append.mp hmem with h | h
  · -- an entry before the first match has a key below `a`
    have := hbefore _ h
    simp at this
    omega
  · rcases List.mem_cons.mp h with h | h
    · cases h; exact le_rfl
    · have := (List.pairwise_append.mp hsorted).2.1
      exact le_of_lt ((List.pairwise_cons.mp this).1 _ h)

/-- The keys in `[a, b]`, in ascending order. -/
theorem keys_between (a b : ℕ) :
    ((m.toList.filter fun e => a ≤ e.1 ∧ e.1 ≤ b).map Prod.fst) =
      (List.range' a (b + 1 - a)).filter (· ∈ m) := by
  apply List.Pairwise.eq_of_mem_iff (r := (· < ·))
  · rw [List.pairwise_map]
    exact m.toList_sorted.filter _
  · exact (List.pairwise_lt_range' (s := a) (n := b + 1 - a)).filter _
  · intro k
    simp only [List.mem_map, List.mem_filter, decide_eq_true_eq, List.mem_range'_1, Prod.exists,
      exists_and_right, exists_eq_right, m.mem_toList, m.mem_iff_getElem?]
    constructor
    · rintro ⟨hk, h1, h2⟩
      exact ⟨by omega, hk⟩
    · rintro ⟨h, hk⟩
      exact ⟨hk, by omega, by omega⟩

/-- The keys of a map all of whose keys lie in `[a, n)`. -/
theorem keys_eq_filter {a n : ℕ} (h : ∀ i ∈ m, a ≤ i ∧ i < n) :
    m.keys = (List.range' a (n - a)).filter (· ∈ m) := by
  apply List.Pairwise.eq_of_mem_iff (r := (· < ·))
  · rw [← Std.ExtTreeMap.map_fst_toList_eq_keys, List.pairwise_map]
    exact m.toList_sorted
  · exact (List.pairwise_lt_range' (s := a) (n := n - a)).filter _
  · intro k
    rw [Std.ExtTreeMap.mem_keys, List.mem_filter, List.mem_range'_1, decide_eq_true_eq]
    constructor
    · intro hk
      have := h k hk
      exact ⟨by omega, hk⟩
    · exact And.right

/-- `range(a..=b).count()`. -/
def countIn (a b : ℕ) : ℕ := (m.toList.filter fun e => a ≤ e.1 ∧ e.1 ≤ b).length

theorem countIn_eq (a b : ℕ) :
    m.countIn a b = ((List.range' a (b + 1 - a)).filter (· ∈ m)).length := by
  rw [← keys_between, List.length_map, countIn]

theorem countIn_le (a b : ℕ) : m.countIn a b ≤ b + 1 - a := by
  rw [countIn_eq]
  exact (List.length_filter_le _ _).trans (by simp)

/-- All of `[a, b]` is there exactly when the count says so. -/
theorem countIn_eq_iff {a b : ℕ} :
    m.countIn a b = b + 1 - a ↔ ∀ i, a ≤ i → i ≤ b → i ∈ m := by
  rw [countIn_eq]
  have : (List.range' a (b + 1 - a)).length = b + 1 - a := by simp
  conv_lhs => rhs; rw [← this]
  rw [List.length_filter_eq_length_iff]
  simp only [List.mem_range'_1, decide_eq_true_eq]
  constructor
  · intro h i h1 h2
    exact h i (by omega)
  · intro h i hi
    exact h i (by omega) (by omega)

/-! ## The lowest key -/

/-- `iter().next()` and `keys().min()` give the lowest key. -/
theorem head?_keys_iff {k : ℕ} : m.keys.head? = some k ↔ k ∈ m ∧ ∀ k' ∈ m, k ≤ k' := by
  have hsorted : m.keys.Pairwise (· < ·) := by
    rw [← Std.ExtTreeMap.map_fst_toList_eq_keys, List.pairwise_map]
    exact m.toList_sorted
  have hmem : ∀ a, a ∈ m ↔ a ∈ m.keys := fun a => Std.ExtTreeMap.mem_keys.symm
  simp only [hmem]
  cases hkeys : m.keys with
  | nil => simp
  | cons first rest =>
    rw [hkeys] at hsorted
    have hfirst := (List.pairwise_cons.mp hsorted).1
    rw [List.head?_cons, Option.some.injEq]
    constructor
    · rintro rfl
      refine ⟨List.mem_cons_self, fun k' hk' => ?_⟩
      rcases List.mem_cons.mp hk' with rfl | hk'
      · exact le_rfl
      · exact (hfirst k' hk').le
    · rintro ⟨hk, hleast⟩
      rcases List.mem_cons.mp hk with rfl | hk
      · rfl
      · exact absurd (hleast first List.mem_cons_self) (not_le.mpr (hfirst k hk))

/-! ## Sums over the entries -/

theorem toList_nodup : m.toList.Nodup :=
  m.toList_sorted.imp fun {a b} h => by
    rintro rfl
    exact lt_irrefl _ h

theorem toList_perm_of_getElem? {k : ℕ} {v : V} (h : m[k]? = some v) :
    m.toList.Perm ((k, v) :: (m.erase k).toList) := by
  have hnot : (k, v) ∉ (m.erase k).toList := by
    rw [mem_toList, getElem?_erase_eq, if_pos rfl]
    exact nofun
  apply (List.perm_ext_iff_of_nodup m.toList_nodup
    (List.nodup_cons.mpr ⟨hnot, toList_nodup _⟩)).mpr
  rintro ⟨a, u⟩
  rw [List.mem_cons, mem_toList, mem_toList, getElem?_erase_eq, Prod.mk.injEq]
  by_cases hka : k = a
  · subst hka
    rw [h]
    simp [eq_comm]
  · simp [hka, Ne.symm hka]

theorem erase_insert_eq (k : ℕ) (v : V) : (m.insert k v).erase k = m.erase k := by
  apply Std.ExtTreeMap.ext_getElem?
  intro a
  rw [getElem?_erase_eq, getElem?_erase_eq, getElem?_insert_eq]
  split_ifs
  · rfl
  · rfl

theorem size_insert_of_mem {k : ℕ} (h : k ∈ m) (v : V) : (m.insert k v).size = m.size := by
  rw [Std.ExtTreeMap.size_insert, if_pos (Std.ExtTreeMap.mem_iff_contains.mp h)]

theorem size_insert_of_not_mem {k : ℕ} (h : k ∉ m) (v : V) :
    (m.insert k v).size = m.size + 1 := by
  rw [Std.ExtTreeMap.size_insert, if_neg (Std.ExtTreeMap.mem_iff_contains.not.mp h)]

theorem size_erase_of_mem {k : ℕ} (h : k ∈ m) : (m.erase k).size + 1 = m.size := by
  have hpos : 0 < m.size := by
    obtain ⟨v, hv⟩ := m.mem_iff_getElem?.mp h
    rw [← Std.ExtTreeMap.length_toList]
    exact List.length_pos_of_mem (m.mem_toList.mpr hv)
  rw [Std.ExtTreeMap.size_erase, if_pos (Std.ExtTreeMap.mem_iff_contains.mp h)]
  omega

theorem erase_of_not_mem {k : ℕ} (h : k ∉ m) : m.erase k = m := by
  apply Std.ExtTreeMap.ext_getElem?
  intro a
  rw [getElem?_erase_eq]
  split_ifs with hka
  · subst hka
    exact (Std.ExtTreeMap.getElem?_eq_none h).symm
  · rfl

variable {M : Type*} [AddCommMonoid M] (f : ℕ → V → M)

/-- The sum of `f` over the entries. -/
def sumOver : M := (m.toList.map fun e => f e.1 e.2).sum

@[simp]
theorem sumOver_empty : sumOver (∅ : BTreeMap V) f = 0 := by
  have hnil : (∅ : BTreeMap V).toList = [] := Std.ExtTreeMap.toList_eq_nil_iff.mpr rfl
  rw [sumOver, hnil]
  rfl

theorem sumOver_erase {k : ℕ} {v : V} (h : m[k]? = some v) :
    m.sumOver f = f k v + sumOver (m.erase k) f := by
  have hperm := (m.toList_perm_of_getElem? h).map fun e => f e.1 e.2
  exact hperm.sum_eq

theorem sumOver_insert (k : ℕ) (v : V) :
    sumOver (m.insert k v) f = f k v + sumOver (m.erase k) f := by
  have hget : (m.insert k v)[k]? = some v := by
    rw [getElem?_insert_eq, if_pos rfl]
  rw [sumOver_erase _ f hget, erase_insert_eq]

theorem sumOver_insert_new {k : ℕ} (h : k ∉ m) (v : V) :
    sumOver (m.insert k v) f = f k v + m.sumOver f := by
  rw [sumOver_insert, m.erase_of_not_mem h]

theorem sumOver_filter (p : ℕ → V → Bool) :
    m.sumOver f = sumOver (m.filter p) f +
      ((m.toList.filter fun e => !p e.1 e.2).map fun e => f e.1 e.2).sum := by
  have hperm := (List.filter_append_perm (fun e : ℕ × V => p e.1 e.2) m.toList).map
    fun e => f e.1 e.2
  rw [sumOver, ← hperm.sum_eq, List.map_append, List.sum_append, sumOver,
    Std.ExtTreeMap.toList_filter]

end BTreeMap
