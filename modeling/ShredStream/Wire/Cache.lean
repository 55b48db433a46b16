import ShredStream.Wire.Recovery

/-!
# The Reed–Solomon cache

Proofs about `fec.rs`, lines 53–87. The cache keeps its entries in a vector: a
hit takes the entry out and appends it, a miss appends, and a full cache drops
the entry in front. The entry in front is the least recently requested one as
long as the position of an entry shows when it was requested. A hit takes the
entry out with `swap_remove`, which puts the last entry in its place, so the
order survives a hit on one of the last two entries only
(`inOrder_getOrBuild_iff`).

Results:
* `getOrBuild_cases`: what a request does to the entries.
* `inOrder_getOrBuild_iff`, `hitsNearEnd_iff`: a request, and a run, keeps the
  order by recency iff it hits no entry with two or more behind it.
* `getOrBuild_transparent`: over every run of requests the cache is bounded,
  its keys are distinct, its answers are those of the crate, a failing build
  changes nothing; and if all hits in front of an eviction are on the last two
  entries, only least recently requested keys are evicted.
-/

namespace ShredStream

/-! ## `swap_remove` -/

theorem swapRemove_append_cons {α : Type} (A D : List α) (x : α) :
    swapRemove (A ++ x :: D) A.length = A ++ (D.getLast?.toList ++ D.dropLast) := by
  induction D using List.reverseRecOn with
  | nil => simp [swapRemove]
  | append_singleton B last _ =>
    have hlast : (A ++ x :: (B ++ [last])).getLast? = some last := by
      rw [← List.cons_append, ← List.append_assoc, List.getLast?_concat]
    have hset : (A ++ x :: (B ++ [last])).set A.length last = A ++ last :: B ++ [last] := by
      simp
    unfold swapRemove
    rw [hlast]
    show ((A ++ x :: (B ++ [last])).set A.length last).dropLast = _
    rw [hset, List.dropLast_concat, List.getLast?_concat, List.dropLast_concat]
    rfl

/-- Moving the last element to the front only permutes. -/
theorem getLast?_append_dropLast_perm {α : Type} (D : List α) :
    (D.getLast?.toList ++ D.dropLast).Perm D := by
  induction D using List.reverseRecOn with
  | nil => apply List.Perm.refl
  | append_singleton B last _ =>
    have hswap : ([last] ++ B).Perm (B ++ [last]) := List.perm_append_comm
    simpa using hswap

theorem getLast?_append_dropLast_of_le {α : Type} {D : List α} (h : D.length ≤ 1) :
    D.getLast?.toList ++ D.dropLast = D := by
  match D, h with
  | [], _ => rfl
  | [x], _ => rfl

namespace ReedSolomonCache

variable {C : Type} {rs : ReedSolomonCrate C} {cache : ReedSolomonCache C}

/-! ## One request -/

/-- The cached `(data, coding)` pairs, in the order of the vector. -/
def keys (cache : ReedSolomonCache C) : List (ℕ × ℕ) := cache.entries.map Prod.fst

/-- A request finds its entry, fails to build it, or builds and appends it. -/
theorem getOrBuild_cases (rs : ReedSolomonCrate C) (cache : ReedSolomonCache C) (k : ℕ × ℕ) :
    (∃ A D c, cache.entries = A ++ (k, c) :: D ∧ k ∉ A.map Prod.fst ∧
      cache.getOrBuild rs k.1 k.2 =
        (⟨A ++ (D.getLast?.toList ++ D.dropLast) ++ [(k, c)]⟩, some c)) ∨
    (k ∉ cache.keys ∧ rs.new k.1 k.2 = none ∧ cache.getOrBuild rs k.1 k.2 = (cache, none)) ∨
    (k ∉ cache.keys ∧ ∃ c, rs.new k.1 k.2 = some c ∧
      cache.getOrBuild rs k.1 k.2 =
        (⟨(if cache.entries.length ≥ cacheCapacity then cache.entries.eraseIdx 0
            else cache.entries) ++ [(k, c)]⟩, some c)) := by
  unfold getOrBuild
  cases hfind : cache.entries.zipIdx.find? fun e => e.1.1 = (k.1, k.2) with
  | some e =>
    left
    obtain ⟨⟨key, c⟩, pos⟩ := e
    obtain ⟨hkey, i, hi, hget, hbefore⟩ := List.find?_eq_some_iff_getElem.mp hfind
    rw [decide_eq_true_eq] at hkey
    change key = k at hkey
    subst hkey
    rw [List.length_zipIdx] at hi
    rw [List.getElem_zipIdx, Nat.zero_add] at hget
    obtain ⟨hentry, rfl⟩ := Prod.ext_iff.mp hget
    change cache.entries[i] = (key, c) at hentry
    have hsplit : cache.entries = cache.entries.take i ++ (key, c) :: cache.entries.drop (i + 1) := by
      rw [← hentry, List.getElem_cons_drop, List.take_append_drop]
    have hlen : (cache.entries.take i).length = i := List.length_take_of_le hi.le
    have hswap := swapRemove_append_cons (cache.entries.take i) (cache.entries.drop (i + 1)) (key, c)
    rw [← hsplit, hlen] at hswap
    refine ⟨_, _, c, hsplit, ?_, ?_⟩
    · intro hmem
      obtain ⟨e, he, hekey⟩ := List.mem_map.mp hmem
      obtain ⟨j, hj, hej⟩ := List.mem_take_iff_getElem.mp he
      have hji : j < i := (lt_min_iff.mp hj).1
      have hne := hbefore j hji
      rw [List.getElem_zipIdx, Bool.not_eq_true', decide_eq_false_iff_not] at hne
      apply hne
      rw [hej]
      exact hekey
    · show (ReedSolomonCache.mk (swapRemove cache.entries i ++ [(key, c)]), some c) = _
      rw [hswap]
  | none =>
    have hmiss : k ∉ cache.keys := by
      intro hmem
      obtain ⟨e, he, hekey⟩ := List.mem_map.mp hmem
      obtain ⟨i, hi⟩ := List.mem_iff_getElem?.mp he
      have hne := List.find?_eq_none.mp hfind (e, i) (List.mem_zipIdx_iff_getElem?.mpr hi)
      apply hne
      rw [decide_eq_true_eq]
      exact hekey
    right
    cases hnew : rs.new k.1 k.2 with
    | none => exact .inl ⟨hmiss, rfl, rfl⟩
    | some c => exact .inr ⟨hmiss, c, rfl, rfl⟩

/-- The keys after a request, read off the keys before it. -/
theorem keys_getOrBuild_of_hit {A D : List ((ℕ × ℕ) × C)} {k : ℕ × ℕ} {c : C} :
    (ReedSolomonCache.mk (A ++ (D.getLast?.toList ++ D.dropLast) ++ [(k, c)])).keys =
      A.map Prod.fst ++ (D.getLast?.toList ++ D.dropLast).map Prod.fst ++ [k] := by
  simp [keys]

/-- What is kept of a full cache before a new entry is appended. -/
theorem length_kept_le (h : cache.entries.length ≤ cacheCapacity) :
    (if cache.entries.length ≥ cacheCapacity then cache.entries.eraseIdx 0
      else cache.entries).length + 1 ≤ cacheCapacity := by
  have hpos : 0 < cacheCapacity := by decide
  split_ifs with hfull
  · rw [List.length_eraseIdx_of_lt (by omega)]
    omega
  · omega

/-- What is kept keeps its order. -/
theorem kept_sublist (cache : ReedSolomonCache C) :
    ((if cache.entries.length ≥ cacheCapacity then cache.entries.eraseIdx 0
      else cache.entries).map Prod.fst).Sublist cache.keys := by
  apply List.Sublist.map
  split_ifs
  · exact List.eraseIdx_sublist _ _
  · exact List.Sublist.refl _

/-- The bound on the entries survives a request. -/
theorem length_getOrBuild_le (h : cache.entries.length ≤ cacheCapacity) (k : ℕ × ℕ) :
    (cache.getOrBuild rs k.1 k.2).1.entries.length ≤ cacheCapacity := by
  rcases getOrBuild_cases rs cache k with ⟨A, D, c, hsplit, -, heq⟩ | ⟨-, -, heq⟩ | ⟨-, c, -, heq⟩
  · rw [heq]
    have hlen := (getLast?_append_dropLast_perm D).length_eq
    rw [hsplit, List.length_append, List.length_cons] at h
    simp only [List.length_append, List.length_cons, List.length_nil] at hlen ⊢
    omega
  · rw [heq]
    exact h
  · rw [heq]
    simpa using length_kept_le h

/-- So do distinct keys. -/
theorem nodup_getOrBuild (h : cache.keys.Nodup) (k : ℕ × ℕ) :
    (cache.getOrBuild rs k.1 k.2).1.keys.Nodup := by
  rcases getOrBuild_cases rs cache k with
    ⟨A, D, c, hsplit, -, heq⟩ | ⟨-, -, heq⟩ | ⟨hmiss, c, -, heq⟩
  · have hperm : (cache.getOrBuild rs k.1 k.2).1.entries.Perm cache.entries := by
      rw [heq, hsplit, List.append_assoc]
      apply List.Perm.append_left
      exact List.perm_append_comm.trans ((getLast?_append_dropLast_perm D).cons _)
    exact (hperm.map Prod.fst).nodup_iff.mpr h
  · rw [heq]
    exact h
  · rw [heq]
    have hsub := kept_sublist cache
    show (List.map Prod.fst _).Nodup
    rw [List.map_append, List.nodup_append]
    refine ⟨h.sublist hsub, List.nodup_singleton _, fun a ha b hb => ?_⟩
    rw [List.map_singleton, List.mem_singleton] at hb
    rintro rfl
    rw [hb] at ha
    exact hmiss (hsub.subset ha)

/-! ## Recency -/

/-- The number of requests made after the last request of `k`; the length of
    the run where `k` was never requested. -/
def requestsSince (ks : List (ℕ × ℕ)) (k : ℕ × ℕ) : ℕ := ks.reverse.idxOf k

theorem requestsSince_concat (ks : List (ℕ × ℕ)) (q k : ℕ × ℕ) :
    requestsSince (ks ++ [q]) k = if q = k then 0 else requestsSince ks k + 1 := by
  unfold requestsSince
  rw [List.reverse_concat]
  split_ifs with hqk
  · rw [hqk, List.idxOf_cons_self]
  · rw [List.idxOf_cons_ne _ hqk]

/-- The keys stand in the order of their last requests, the most recent last. -/
def InOrder (ks keys : List (ℕ × ℕ)) : Prop :=
  keys.Pairwise fun a b => requestsSince ks b < requestsSince ks a

/-- At most one entry stands behind that of `k`, if there is one. -/
def NearEnd (cache : ReedSolomonCache C) (k : ℕ × ℕ) : Prop :=
  cache.keys.length ≤ cache.keys.idxOf k + 2

instance (cache : ReedSolomonCache C) (k : ℕ × ℕ) : Decidable (cache.NearEnd k) :=
  inferInstanceAs (Decidable (_ ≤ _))

/-- The request of another key leaves the order as it is. -/
theorem inOrder_request_iff {ks keys : List (ℕ × ℕ)} {k : ℕ × ℕ} (hk : k ∉ keys) :
    InOrder (ks ++ [k]) keys ↔ InOrder ks keys := by
  have hne : ∀ a ∈ keys, requestsSince (ks ++ [k]) a = requestsSince ks a + 1 := by
    intro a ha
    rw [requestsSince_concat, if_neg fun (heq : k = a) => hk (heq ▸ ha)]
  apply List.Pairwise.iff_of_mem
  intro a b ha hb
  rw [hne a ha, hne b hb, Nat.add_lt_add_iff_right]

/-- The key just requested may follow any keys in order. -/
theorem inOrder_concat_iff {ks keys : List (ℕ × ℕ)} {k : ℕ × ℕ} (hk : k ∉ keys) :
    InOrder (ks ++ [k]) (keys ++ [k]) ↔ InOrder ks keys := by
  have hlast : ∀ a ∈ keys, ∀ b ∈ [k], requestsSince (ks ++ [k]) b < requestsSince (ks ++ [k]) a := by
    intro a ha b hb
    have hka : k ≠ a := fun heq => hk (heq ▸ ha)
    rw [List.mem_singleton.mp hb, requestsSince_concat, requestsSince_concat, if_pos rfl,
      if_neg hka]
    exact Nat.succ_pos _
  rw [← inOrder_request_iff hk]
  unfold InOrder
  rw [List.pairwise_append]
  exact ⟨fun h => h.1, fun h => ⟨h, List.pairwise_singleton _ _, hlast⟩⟩

/-- Moving the last of two or more keys to the front breaks the order. -/
theorem not_inOrder_rotated {ks A B : List (ℕ × ℕ)} {k b last : ℕ × ℕ}
    (h : InOrder ks (A ++ k :: (b :: B ++ [last]))) :
    ¬ InOrder ks (A ++ (last :: b :: B)) := by
  intro hrot
  have hold := (List.pairwise_cons.mp (List.pairwise_append.mp h).2.1).2
  have hlt : requestsSince ks last < requestsSince ks b :=
    (List.pairwise_append.mp hold).2.2 b (by simp) last (by simp)
  have hgt : requestsSince ks b < requestsSince ks last :=
    (List.pairwise_cons.mp (List.pairwise_append.mp hrot).2.1).1 b (by simp)
  omega

/-- A request keeps the order iff it does not hit an entry with two or more
    behind it. -/
theorem inOrder_getOrBuild_iff {ks : List (ℕ × ℕ)} (hnodup : cache.keys.Nodup)
    (h : InOrder ks cache.keys) (k : ℕ × ℕ) :
    InOrder (ks ++ [k]) (cache.getOrBuild rs k.1 k.2).1.keys ↔ cache.NearEnd k := by
  rcases getOrBuild_cases rs cache k with
    ⟨A, D, c, hsplit, hA, heq⟩ | ⟨hmiss, -, heq⟩ | ⟨hmiss, c, -, heq⟩
  · have hkeys : cache.keys = A.map Prod.fst ++ k :: D.map Prod.fst := by
      simp [keys, hsplit]
    rw [hkeys] at hnodup h
    have hD : k ∉ D.map Prod.fst := (List.nodup_cons.mp (List.nodup_append.mp hnodup).2.1).1
    have hnear : cache.NearEnd k ↔ D.length ≤ 1 := by
      unfold NearEnd
      rw [hkeys, List.idxOf_append_of_notMem hA, List.idxOf_cons_self]
      simp only [List.length_append, List.length_cons, List.length_map]
      omega
    have hmem : k ∉ A.map Prod.fst ++ (D.getLast?.toList ++ D.dropLast).map Prod.fst := by
      rw [List.mem_append, ((getLast?_append_dropLast_perm D).map Prod.fst).mem_iff]
      exact fun hor => hor.elim hA hD
    rw [heq, hnear, keys_getOrBuild_of_hit, inOrder_concat_iff hmem]
    constructor
    · intro hin
      match D, h, hin with
      | [], _, _ => exact Nat.zero_le 1
      | [x], _, _ => exact le_refl 1
      | x :: y :: D, h, hin =>
        exfalso
        obtain ⟨B, last, hB⟩ : ∃ B last, y :: D = B ++ [last] :=
          ⟨_, _, (List.dropLast_append_getLast (List.cons_ne_nil y D)).symm⟩
        rw [hB] at h hin
        rw [← List.cons_append, List.getLast?_concat, List.dropLast_concat] at hin
        apply @not_inOrder_rotated ks (A.map Prod.fst) (B.map Prod.fst) k x.1 last.1
        · simpa using h
        · simpa using hin
    · intro hle
      rw [getLast?_append_dropLast_of_le hle]
      refine List.Pairwise.sublist ?_ h
      exact List.Sublist.append (List.Sublist.refl _) (List.sublist_cons_self _ _)
  · have hnear : cache.NearEnd k := by
      unfold NearEnd
      rw [List.idxOf_of_notMem hmiss]
      omega
    rw [heq, inOrder_request_iff hmiss]
    exact iff_of_true h hnear
  · have hnear : cache.NearEnd k := by
      unfold NearEnd
      rw [List.idxOf_of_notMem hmiss]
      omega
    rw [heq]
    refine iff_of_true ?_ hnear
    have hsub := kept_sublist cache
    show InOrder (ks ++ [k]) (List.map Prod.fst _)
    rw [List.map_append, List.map_singleton, inOrder_concat_iff fun hk => hmiss (hsub.subset hk)]
    exact h.sublist hsub

/-! ## Runs -/

/-- The cache after the requests `ks`, from the empty cache of
    `ReedSolomonCache::new`. -/
def serve (rs : ReedSolomonCrate C) (ks : List (ℕ × ℕ)) : ReedSolomonCache C :=
  ks.foldl (fun cache k => (cache.getOrBuild rs k.1 k.2).1) {}

theorem serve_concat (rs : ReedSolomonCrate C) (ks : List (ℕ × ℕ)) (k : ℕ × ℕ) :
    serve rs (ks ++ [k]) = ((serve rs ks).getOrBuild rs k.1 k.2).1 := by
  simp [serve]

/-- Every hit of the run is on one of the last two entries. -/
def HitsNearEnd (rs : ReedSolomonCrate C) (ks : List (ℕ × ℕ)) : Prop :=
  ∀ i (h : i < ks.length), (serve rs (ks.take i)).NearEnd ks[i]

instance (rs : ReedSolomonCrate C) (ks : List (ℕ × ℕ)) : Decidable (HitsNearEnd rs ks) :=
  inferInstanceAs (Decidable (∀ i (h : i < ks.length), (serve rs (ks.take i)).NearEnd ks[i]))

theorem HitsNearEnd.of_concat {ks : List (ℕ × ℕ)} {k : ℕ × ℕ} (h : HitsNearEnd rs (ks ++ [k])) :
    HitsNearEnd rs ks ∧ (serve rs ks).NearEnd k := by
  constructor
  · intro i hi
    have hi' := h i (by simp; omega)
    rw [List.take_append_of_le_length hi.le, List.getElem_append_left hi] at hi'
    exact hi'
  · simpa using h ks.length (by simp)

theorem length_serve_le (rs : ReedSolomonCrate C) (ks : List (ℕ × ℕ)) :
    (serve rs ks).entries.length ≤ cacheCapacity := by
  induction ks using List.reverseRecOn with
  | nil => exact Nat.zero_le _
  | append_singleton ks k ih =>
    rw [serve_concat]
    exact length_getOrBuild_le ih k

theorem nodup_serve (rs : ReedSolomonCrate C) (ks : List (ℕ × ℕ)) :
    (serve rs ks).keys.Nodup := by
  induction ks using List.reverseRecOn with
  | nil => exact List.nodup_nil
  | append_singleton ks k ih =>
    rw [serve_concat]
    exact nodup_getOrBuild ih k

theorem valid_serve (rs : ReedSolomonCrate C) (ks : List (ℕ × ℕ)) : (serve rs ks).Valid rs := by
  induction ks using List.reverseRecOn with
  | nil => exact fun e he => by cases he
  | append_singleton ks k ih =>
    rw [serve_concat]
    exact (ih.getOrBuild k.1 k.2).2

/-- The order by recency is kept along a run that hits near the end only. -/
theorem inOrder_serve {ks : List (ℕ × ℕ)} (h : HitsNearEnd rs ks) :
    InOrder ks (serve rs ks).keys := by
  induction ks using List.reverseRecOn with
  | nil => exact List.Pairwise.nil
  | append_singleton ks k ih =>
    obtain ⟨hks, hk⟩ := h.of_concat
    rw [serve_concat, inOrder_getOrBuild_iff (nodup_serve rs ks) (ih hks)]
    exact hk

/-- The condition is exact for the order: once a hit is on an earlier entry, the
    positions no longer show the recency. -/
theorem hitsNearEnd_iff (rs : ReedSolomonCrate C) (ks : List (ℕ × ℕ)) :
    HitsNearEnd rs ks ↔ ∀ pre, pre <+: ks → InOrder pre (serve rs pre).keys := by
  constructor
  · intro h pre ⟨rest, hpre⟩
    apply inOrder_serve
    intro i hi
    have hi' := h i (by rw [← hpre, List.length_append]; omega)
    simp only [← hpre, List.take_append_of_le_length hi.le, List.getElem_append_left hi] at hi'
    exact hi'
  · intro h i hi
    have hbefore := h (ks.take i) (List.take_prefix i ks)
    have hafter := h (ks.take (i + 1)) (List.take_prefix (i + 1) ks)
    rw [List.take_succ_eq_append_getElem hi, serve_concat] at hafter
    exact (inOrder_getOrBuild_iff (nodup_serve rs _) hbefore _).mp hafter

/-- A key that a request removes is the front one. -/
theorem head_of_removed {k e : ℕ × ℕ} (he : e ∈ cache.keys)
    (hgone : e ∉ (cache.getOrBuild rs k.1 k.2).1.keys) : cache.keys.head? = some e := by
  rcases getOrBuild_cases rs cache k with
    ⟨A, D, c, hsplit, -, heq⟩ | ⟨-, -, heq⟩ | ⟨-, c, -, heq⟩
  · exfalso
    apply hgone
    have hD := (getLast?_append_dropLast_perm D).map Prod.fst
    rw [heq, keys_getOrBuild_of_hit, List.append_assoc, List.mem_append, List.mem_append,
      hD.mem_iff]
    rw [keys, hsplit, List.map_append, List.map_cons, List.mem_append, List.mem_cons] at he
    rcases he with he | he | he
    · exact .inl he
    · exact .inr (.inr (List.mem_singleton.mpr he))
    · exact .inr (.inl he)
  · exact absurd (heq ▸ he) hgone
  · rw [heq] at hgone
    unfold keys at he hgone ⊢
    simp only [List.map_append, List.mem_append, not_or] at hgone
    split_ifs at hgone
    · cases hentries : cache.entries with
      | nil =>
        rw [hentries] at he
        cases he
      | cons first rest =>
        rw [hentries] at he hgone
        rcases List.mem_cons.mp he with rfl | he
        · rfl
        · exact absurd he hgone.1
    · exact absurd he hgone.1

/-- The request removes an entry. -/
def Evicts (rs : ReedSolomonCrate C) (cache : ReedSolomonCache C) (k : ℕ × ℕ) : Prop :=
  ∃ e ∈ cache.keys, e ∉ (cache.getOrBuild rs k.1 k.2).1.keys

/-- Every hit that an eviction follows is on one of the last two entries. -/
def HitsNearEndUntilEvicted (rs : ReedSolomonCrate C) (ks : List (ℕ × ℕ)) : Prop :=
  ∀ i (h : i < ks.length), Evicts rs (serve rs (ks.take i)) ks[i] → HitsNearEnd rs (ks.take i)

instance (rs : ReedSolomonCrate C) (ks : List (ℕ × ℕ)) :
    Decidable (HitsNearEndUntilEvicted rs ks) :=
  inferInstanceAs (Decidable (∀ i (h : i < ks.length),
    (∃ e ∈ (serve rs (ks.take i)).keys,
      e ∉ ((serve rs (ks.take i)).getOrBuild rs (ks[i]).1 (ks[i]).2).1.keys) → _))

/-- The key that a request removes after hits near the end is the least recently
    requested one. -/
theorem removed_least_recent {ks : List (ℕ × ℕ)} {k e e' : ℕ × ℕ} (h : HitsNearEnd rs ks)
    (he : e ∈ (serve rs ks).keys) (hgone : e ∉ ((serve rs ks).getOrBuild rs k.1 k.2).1.keys)
    (he' : e' ∈ (serve rs ks).keys) : requestsSince ks e' ≤ requestsSince ks e := by
  obtain ⟨rest, hrest⟩ := List.head?_eq_some_iff.mp (head_of_removed he hgone)
  have horder := inOrder_serve h
  rw [hrest] at horder he'
  rcases List.mem_cons.mp he' with rfl | he'
  · exact le_refl _
  · exact ((List.pairwise_cons.mp horder).1 e' he').le

/-- A build that fails leaves the cache unchanged. -/
theorem getOrBuild_of_failed (h : cache.Valid rs) {k : ℕ × ℕ} (hnew : rs.new k.1 k.2 = none) :
    (cache.getOrBuild rs k.1 k.2).1 = cache := by
  have hanswer := (h.getOrBuild k.1 k.2).1
  rw [hnew] at hanswer
  rcases getOrBuild_cases rs cache k with ⟨A, D, c, -, -, heq⟩ | ⟨-, -, heq⟩ | ⟨-, c, -, heq⟩
  · rw [heq] at hanswer
    cases hanswer
  · rw [heq]
  · rw [heq] at hanswer
    cases hanswer

/-- Over every run of requests the cache stays within its capacity, its keys are
    distinct, the next request is answered as the crate would answer it, and a
    failing build leaves the cache unchanged. If every hit that an eviction follows
    was on one of the last two entries, each request that removes a key removes the
    least recently requested one. -/
theorem getOrBuild_transparent (rs : ReedSolomonCrate C) (ks : List (ℕ × ℕ)) :
    (serve rs ks).entries.length ≤ cacheCapacity ∧ (serve rs ks).keys.Nodup ∧
      (∀ k : ℕ × ℕ, ((serve rs ks).getOrBuild rs k.1 k.2).2 = rs.new k.1 k.2 ∧
        (rs.new k.1 k.2 = none → ((serve rs ks).getOrBuild rs k.1 k.2).1 = serve rs ks)) ∧
      (HitsNearEndUntilEvicted rs ks → ∀ i (h : i < ks.length), ∀ e ∈ (serve rs (ks.take i)).keys,
        e ∉ ((serve rs (ks.take i)).getOrBuild rs (ks[i]).1 (ks[i]).2).1.keys →
          ∀ e' ∈ (serve rs (ks.take i)).keys,
            requestsSince (ks.take i) e' ≤ requestsSince (ks.take i) e) :=
  ⟨length_serve_le rs ks, nodup_serve rs ks,
    fun k => ⟨((valid_serve rs ks).getOrBuild k.1 k.2).1, getOrBuild_of_failed (valid_serve rs ks)⟩,
    fun hnear i h _ he hgone _ he' =>
      removed_least_recent (hnear i h ⟨_, he, hgone⟩) he hgone he'⟩

/-- The crate's own bounds on a codec: at least one data and one parity shard and
    at most 256 in all. The codec is left as the pair it was built for. -/
def boundsCrate : ReedSolomonCrate (ℕ × ℕ) where
  new data coding :=
    if 0 < data ∧ 0 < coding ∧ data + coding ≤ 256 then some (data, coding) else none
  reconstructData _ _ := none

/-- `n` codecs with one parity shard, requested in the order of their data shards. -/
def growing (n : ℕ) : List (ℕ × ℕ) := (List.range n).map fun i => (i + 1, 1)

/-- 32 codecs fill the cache, a hit on the last of them stays at the end, the next
    miss evicts the first, and after it a hit may be anywhere. -/
theorem getOrBuild_transparent_full :
    let ks := growing 32 ++ [(32, 1), (33, 1), (5, 1)]
    (1, 1) ∈ (serve boundsCrate (ks.take 33)).keys ∧
      (1, 1) ∉ (serve boundsCrate (ks.take 34)).keys ∧ ¬HitsNearEnd boundsCrate ks ∧
      ∀ e' ∈ (serve boundsCrate (ks.take 33)).keys,
        requestsSince (ks.take 33) e' ≤ requestsSince (ks.take 33) (1, 1) := by
  intro ks
  have hnear : HitsNearEndUntilEvicted boundsCrate ks := by decide +kernel
  have hmem : (1, 1) ∈ (serve boundsCrate (ks.take 33)).keys := by decide +kernel
  have hgone : (1, 1) ∉ ((serve boundsCrate (ks.take 33)).getOrBuild boundsCrate 33 1).1.keys := by
    decide +kernel
  exact ⟨hmem, by decide +kernel, by decide +kernel,
    (getOrBuild_transparent boundsCrate ks).2.2.2 hnear 33 (by decide) (1, 1) hmem hgone⟩

/-- 32 codecs fill the cache; a hit on the first of them brings the 32nd to the
    front, and the next miss evicts that one instead of the second. -/
theorem evicts_recently_requested :
    (33, 1) ∉ (serve boundsCrate (growing 32 ++ [(1, 1)])).keys ∧
      (32, 1) ∈ (serve boundsCrate (growing 32 ++ [(1, 1)])).keys ∧
      (32, 1) ∉ ((serve boundsCrate (growing 32 ++ [(1, 1)])).getOrBuild boundsCrate 33 1).1.keys ∧
      (2, 1) ∈ (serve boundsCrate (growing 32 ++ [(1, 1)])).keys ∧
      ¬ requestsSince (growing 32 ++ [(1, 1)]) (2, 1) ≤
        requestsSince (growing 32 ++ [(1, 1)]) (32, 1) := by
  decide +kernel

end ReedSolomonCache

end ShredStream
