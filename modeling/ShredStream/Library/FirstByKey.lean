import Mathlib

/-!
# Keeping the first item of each key

`fresh key seen l` is what is left of `l` when every item is dropped whose key
is in `seen` or was met before in `l`; items without a key are dropped too.
-/

namespace FirstByKey

variable {α κ : Type*} (key : α → Option κ)

/-- The items of `l` have keys, and pairwise different ones. -/
def Distinct (l : List α) : Prop := (∀ a ∈ l, key a ≠ none) ∧ (l.map key).Nodup

theorem Distinct.of_sublist {key : α → Option κ} {l l' : List α} (h : Distinct key l')
    (hl : l.Sublist l') : Distinct key l :=
  ⟨fun a ha => h.1 a (hl.subset ha), h.2.sublist (hl.map key)⟩

theorem Distinct.key_injOn {key : α → Option κ} {l : List α} (h : Distinct key l) {a b : α}
    (ha : a ∈ l) (hb : b ∈ l) (hab : key a = key b) : a = b :=
  List.inj_on_of_nodup_map h.2 ha hb hab

variable [DecidableEq κ]

/-- The items of `l` whose key is neither in `seen` nor met before. -/
def fresh : Finset κ → List α → List α
  | _, [] => []
  | seen, a :: l =>
    match key a with
    | none => fresh seen l
    | some k => if k ∈ seen then fresh seen l else a :: fresh (insert k seen) l

/-- The keys that occur in `l`. -/
def keys (l : List α) : Finset κ := (l.filterMap key).toFinset

variable {key}

@[simp] theorem fresh_nil (seen : Finset κ) : fresh key seen [] = [] := rfl

@[simp] theorem keys_nil : keys key ([] : List α) = ∅ := rfl

theorem mem_keys {l : List α} {k : κ} : k ∈ keys key l ↔ ∃ a ∈ l, key a = some k := by
  simp [keys]

theorem keys_append (l l' : List α) : keys key (l ++ l') = keys key l ∪ keys key l' := by
  simp [keys]

theorem keys_cons_none {a : α} (h : key a = none) (l : List α) :
    keys key (a :: l) = keys key l := by
  simp [keys, h]

theorem keys_cons_some {a : α} {k : κ} (h : key a = some k) (l : List α) :
    keys key (a :: l) = insert k (keys key l) := by
  simp [keys, h]

theorem fresh_cons_none {a : α} (h : key a = none) (seen : Finset κ) (l : List α) :
    fresh key seen (a :: l) = fresh key seen l := by
  simp [fresh, h]

theorem fresh_cons_seen {a : α} {k : κ} (h : key a = some k) {seen : Finset κ} (hk : k ∈ seen)
    (l : List α) : fresh key seen (a :: l) = fresh key seen l := by
  simp [fresh, h, hk]

theorem fresh_cons_new {a : α} {k : κ} (h : key a = some k) {seen : Finset κ} (hk : k ∉ seen)
    (l : List α) : fresh key seen (a :: l) = a :: fresh key (insert k seen) l := by
  simp [fresh, h, hk]

theorem fresh_sublist (seen : Finset κ) (l : List α) : (fresh key seen l).Sublist l := by
  induction l generalizing seen with
  | nil => exact List.Sublist.refl _
  | cons a l ih =>
    rw [fresh]
    split
    · exact (ih _).cons _
    · split_ifs
      · exact (ih _).cons _
      · exact (ih _).cons_cons _

theorem mem_of_mem_fresh {seen : Finset κ} {l : List α} {a : α} (h : a ∈ fresh key seen l) :
    a ∈ l :=
  (fresh_sublist seen l).subset h

theorem fresh_append (seen : Finset κ) (l l' : List α) :
    fresh key seen (l ++ l') = fresh key seen l ++ fresh key (seen ∪ keys key l) l' := by
  induction l generalizing seen with
  | nil => simp
  | cons a l ih =>
    rw [List.cons_append]
    cases hk : key a with
    | none => rw [fresh_cons_none hk, fresh_cons_none hk, keys_cons_none hk, ih]
    | some k =>
      rw [keys_cons_some hk]
      by_cases hs : k ∈ seen
      · rw [fresh_cons_seen hk hs, fresh_cons_seen hk hs, ih, Finset.union_insert,
          Finset.insert_eq_of_mem (Finset.mem_union_left _ hs)]
      · rw [fresh_cons_new hk hs, fresh_cons_new hk hs, ih, List.cons_append, Finset.insert_union,
          Finset.union_insert]

/-- Nothing is kept of a list whose keys have all been seen. -/
theorem fresh_eq_nil {seen : Finset κ} {l : List α} (h : keys key l ⊆ seen) :
    fresh key seen l = [] := by
  induction l with
  | nil => rfl
  | cons a l ih =>
    cases hk : key a with
    | none => rw [fresh_cons_none hk, ih (by rwa [keys_cons_none hk] at h)]
    | some k =>
      rw [keys_cons_some hk, Finset.insert_subset_iff] at h
      rw [fresh_cons_seen hk h.1, ih h.2]

theorem Distinct.disjoint_keys {l l' : List α} (h : Distinct key (l ++ l')) {k : κ}
    (hk : k ∈ keys key l) : k ∉ keys key l' := by
  obtain ⟨a, ha, hka⟩ := mem_keys.mp hk
  intro hk'
  obtain ⟨b, hb, hkb⟩ := mem_keys.mp hk'
  have hnd := h.2
  rw [List.map_append] at hnd
  exact (List.nodup_append.mp hnd).2.2 _ (List.mem_map_of_mem ha) _ (List.mem_map_of_mem hb)
    (hka.trans hkb.symm)

/-- Everything is kept of a list of distinct keys none of which has been seen. -/
theorem Distinct.fresh_eq_self {seen : Finset κ} {l : List α} (h : Distinct key l)
    (hseen : ∀ k ∈ keys key l, k ∉ seen) : fresh key seen l = l := by
  induction l generalizing seen with
  | nil => rfl
  | cons a l ih =>
    obtain ⟨k, hk⟩ := Option.ne_none_iff_exists'.mp (h.1 a (by simp))
    rw [keys_cons_some hk] at hseen
    rw [fresh_cons_new hk (hseen k (Finset.mem_insert_self _ _)),
      ih (h.of_sublist (List.sublist_cons_self _ _))]
    intro j hj
    rw [Finset.mem_insert, not_or]
    refine ⟨?_, hseen j (Finset.mem_insert_of_mem hj)⟩
    rintro rfl
    have : j ∈ keys key [a] := mem_keys.mpr ⟨a, by simp, hk⟩
    exact Distinct.disjoint_keys (l := [a]) h this hj

/-- The rest of a distinct list is kept once its beginning has been seen. -/
theorem Distinct.fresh_right {l l' : List α} (h : Distinct key (l ++ l')) :
    fresh key (keys key l) l' = l' :=
  (h.of_sublist (List.sublist_append_right _ _)).fresh_eq_self
    fun _ hk hk' => h.disjoint_keys hk' hk

theorem Distinct.fresh_append_right {l l' : List α} (h : Distinct key (l ++ l')) :
    fresh key (keys key l) (l ++ l') = l' := by
  rw [fresh_append, fresh_eq_nil (le_refl _), List.nil_append, Finset.union_self, h.fresh_right]

/-- Having seen less keeps more. -/
theorem fresh_anti {seen seen' : Finset κ} (h : seen ⊆ seen') {l : List α} {a : α}
    (ha : a ∈ fresh key seen' l) : a ∈ fresh key seen l := by
  induction l generalizing seen seen' with
  | nil => simp at ha
  | cons b l ih =>
    cases hk : key b with
    | none =>
      rw [fresh_cons_none hk] at ha ⊢
      exact ih h ha
    | some k =>
      by_cases hs' : k ∈ seen'
      · rw [fresh_cons_seen hk hs'] at ha
        by_cases hs : k ∈ seen
        · rw [fresh_cons_seen hk hs]
          exact ih h ha
        · rw [fresh_cons_new hk hs]
          exact List.mem_cons_of_mem _ (ih (Finset.insert_subset hs' h) ha)
      · rw [fresh_cons_new hk hs'] at ha
        rw [fresh_cons_new hk fun hs => hs' (h hs)]
        rcases List.mem_cons.mp ha with rfl | ha
        · exact List.mem_cons_self
        · exact List.mem_cons_of_mem _ (ih (Finset.insert_subset_insert k h) ha)

/-- What is kept of a concatenation is kept of one of its parts alone. -/
theorem mem_fresh_flatMap {β : Type*} {f : β → List α} {seen : Finset κ} {l : List β} {a : α}
    (h : a ∈ fresh key seen (l.flatMap f)) : ∃ b ∈ l, a ∈ fresh key ∅ (f b) := by
  induction l generalizing seen with
  | nil => simp at h
  | cons b l ih =>
    rw [List.flatMap_cons, fresh_append] at h
    rcases List.mem_append.mp h with h | h
    · exact ⟨b, List.mem_cons_self, fresh_anti (Finset.empty_subset _) h⟩
    · obtain ⟨c, hc, ha⟩ := ih h
      exact ⟨c, List.mem_cons_of_mem _ hc, ha⟩

/-- What is kept has a key, and one that was not seen. -/
theorem key_of_mem_fresh {seen : Finset κ} {l : List α} {a : α} (h : a ∈ fresh key seen l) :
    ∃ k, key a = some k ∧ k ∉ seen := by
  induction l generalizing seen with
  | nil => simp at h
  | cons b l ih =>
    cases hk : key b with
    | none =>
      rw [fresh_cons_none hk] at h
      exact ih h
    | some k =>
      by_cases hs : k ∈ seen
      · rw [fresh_cons_seen hk hs] at h
        exact ih h
      · rw [fresh_cons_new hk hs] at h
        rcases List.mem_cons.mp h with rfl | h
        · exact ⟨k, hk, hs⟩
        · obtain ⟨j, hj, hjs⟩ := ih h
          exact ⟨j, hj, fun hmem => hjs (Finset.mem_insert_of_mem hmem)⟩

/-- Whether an item is kept depends on whether its own key has been seen. -/
theorem mem_fresh_of_mem_fresh {seen seen' : Finset κ} {l : List α} {a : α} {k : κ}
    (h : a ∈ fresh key seen l) (hk : key a = some k) (hs' : k ∉ seen') :
    a ∈ fresh key seen' l := by
  induction l generalizing seen seen' with
  | nil => simp at h
  | cons b l ih =>
    cases hb : key b with
    | none =>
      rw [fresh_cons_none hb] at h ⊢
      exact ih h hs'
    | some j =>
      by_cases hjk : j = k
      · subst hjk
        rw [fresh_cons_new hb hs']
        by_cases hs : j ∈ seen
        · obtain ⟨i, hi, his⟩ := key_of_mem_fresh h
          rw [hk, Option.some.injEq] at hi
          exact absurd (hi ▸ hs) his
        · rw [fresh_cons_new hb hs] at h
          rcases List.mem_cons.mp h with rfl | h
          · exact List.mem_cons_self
          · obtain ⟨i, hi, his⟩ := key_of_mem_fresh h
            rw [hk, Option.some.injEq] at hi
            exact absurd (hi ▸ Finset.mem_insert_self _ _) his
      · have hins : ∀ s : Finset κ, k ∉ s → k ∉ insert j s := fun s hs hmem =>
          (Finset.mem_insert.mp hmem).elim (fun h => hjk h.symm) hs
        have hrest : a ∈ fresh key seen' l ∧ a ∈ fresh key (insert j seen') l := by
          by_cases hs : j ∈ seen
          · rw [fresh_cons_seen hb hs] at h
            exact ⟨ih h hs', ih h (hins _ hs')⟩
          · rw [fresh_cons_new hb hs] at h
            rcases List.mem_cons.mp h with rfl | h
            · rw [hb, Option.some.injEq] at hk
              exact absurd hk hjk
            · exact ⟨ih h hs', ih h (hins _ hs')⟩
        by_cases hs : j ∈ seen'
        · rw [fresh_cons_seen hb hs]
          exact hrest.1
        · rw [fresh_cons_new hb hs]
          exact List.mem_cons_of_mem _ hrest.2

/-- An item survives when its key has not been seen and no other item of the
    list has it. -/
theorem mem_fresh_of_unique {seen : Finset κ} {l : List α} {a : α} {k : κ} (ha : a ∈ l)
    (hk : key a = some k) (hs : k ∉ seen) (huniq : ∀ b ∈ l, key b = some k → b = a) :
    a ∈ fresh key seen l := by
  induction l generalizing seen with
  | nil => simp at ha
  | cons b l ih =>
    have hl : ∀ c ∈ l, key c = some k → c = a := fun c hc => huniq c (List.mem_cons_of_mem _ hc)
    by_cases hb : key b = some k
    · rw [fresh_cons_new hb hs, huniq b List.mem_cons_self hb]
      exact List.mem_cons_self
    · have ha' : a ∈ l := by
        rcases List.mem_cons.mp ha with rfl | h
        · exact absurd hk hb
        · exact h
      cases hkb : key b with
      | none =>
        rw [fresh_cons_none hkb]
        exact ih ha' hs hl
      | some j =>
        by_cases hj : j ∈ seen
        · rw [fresh_cons_seen hkb hj]
          exact ih ha' hs hl
        · rw [fresh_cons_new hkb hj]
          refine List.mem_cons_of_mem _ (ih ha' ?_ hl)
          rw [Finset.mem_insert, not_or]
          exact ⟨fun h => hb (by rw [hkb, h]), hs⟩

theorem distinct_fresh (seen : Finset κ) (l : List α) : Distinct key (fresh key seen l) := by
  refine ⟨fun a ha => ?_, ?_⟩
  · obtain ⟨k, hk, -⟩ := key_of_mem_fresh ha
    simp [hk]
  · induction l generalizing seen with
    | nil => exact List.nodup_nil
    | cons a l ih =>
      cases hk : key a with
      | none =>
        rw [fresh_cons_none hk]
        exact ih seen
      | some k =>
        by_cases hs : k ∈ seen
        · rw [fresh_cons_seen hk hs]
          exact ih seen
        · rw [fresh_cons_new hk hs, List.map_cons, List.nodup_cons]
          refine ⟨fun hmem => ?_, ih _⟩
          obtain ⟨b, hb, hba⟩ := List.mem_map.mp hmem
          obtain ⟨j, hj, hjs⟩ := key_of_mem_fresh hb
          rw [hj, hk, Option.some.injEq] at hba
          exact hjs (hba ▸ Finset.mem_insert_self _ _)

/-- A distinct list stays so when only what it does not hold is added. -/
theorem Distinct.append_fresh {l : List α} (h : Distinct key l) (l' : List α) :
    Distinct key (l ++ fresh key (keys key l) l') := by
  have h' : Distinct key (fresh key (keys key l) l') := distinct_fresh (keys key l) l'
  refine ⟨fun a ha => ?_, ?_⟩
  · rcases List.mem_append.mp ha with ha | ha
    · exact h.1 a ha
    · exact h'.1 a ha
  · rw [List.map_append, List.nodup_append]
    refine ⟨h.2, h'.2, fun k hk j hj => ?_⟩
    rintro rfl
    obtain ⟨a, ha, rfl⟩ := List.mem_map.mp hk
    obtain ⟨b, hb, hba⟩ := List.mem_map.mp hj
    obtain ⟨j, hj, hnew⟩ := key_of_mem_fresh hb
    exact hnew (mem_keys.mpr ⟨a, ha, hba ▸ hj⟩)

theorem union_keys_fresh (seen : Finset κ) (l : List α) :
    seen ∪ keys key (fresh key seen l) = seen ∪ keys key l := by
  induction l generalizing seen with
  | nil => rfl
  | cons a l ih =>
    cases hk : key a with
    | none => rw [fresh_cons_none hk, keys_cons_none hk, ih]
    | some k =>
      by_cases hs : k ∈ seen
      · rw [fresh_cons_seen hk hs, keys_cons_some hk, ih, Finset.union_insert,
          Finset.insert_eq_of_mem (Finset.mem_union_left _ hs)]
      · rw [fresh_cons_new hk hs, keys_cons_some hk, keys_cons_some hk, Finset.union_insert,
          Finset.union_insert, ← Finset.insert_union, ← Finset.insert_union, ih]

end FirstByKey
