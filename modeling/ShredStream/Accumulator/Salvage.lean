import ShredStream.Accumulator.Basic
import ShredStream.Decoder.Batch

/-!
# Recording transactions and salvaging runs

* `recordAll_eq`: what is pushed is what `fresh` keeps.
* `salvage_eq`: `salvage_contiguous_runs_in` returns, and pushes what is fresh
  among the transactions decoded from each run of pending shreds on its own.
-/

namespace ShredStream

open FirstByKey

/-- The key under which a transaction is recorded. -/
abbrev sigKeys (txs : List VersionedTransaction) : Finset Signature :=
  keys VersionedTransaction.firstSig txs

/-- What `record_sig` lets through of `txs`. -/
abbrev unseen (seen : Finset Signature) (txs : List VersionedTransaction) :
    List VersionedTransaction :=
  fresh VersionedTransaction.firstSig seen txs

/-- The transactions decoded from the runs of the shreds `p` in `[a, b)`, each
    run on its own. -/
def salvagedIn (w : Wincode) (p : ℕ → Bool) (payload : ℕ → Bytes) (a b : ℕ) :
    List VersionedTransaction :=
  (Runs.runsIn p a b).flatMap fun run => decodeConcatenated w (run.flatMap payload)

/-- Nothing is decoded across a missing shred. -/
theorem salvagedIn_append {w : Wincode} {p : ℕ → Bool} {payload : ℕ → Bytes} {a b c : ℕ}
    (hab : a ≤ b) (hbc : b ≤ c) (hcut : b = a ∨ p (b - 1) = false) :
    salvagedIn w p payload a c = salvagedIn w p payload a b ++ salvagedIn w p payload b c := by
  rw [salvagedIn, Runs.runsIn_append hab hbc hcut, List.flatMap_append, salvagedIn, salvagedIn]

namespace SlotAccumulator

/-- The accumulator after recording `txs`. -/
def record (acc : SlotAccumulator) (txs : List VersionedTransaction) : SlotAccumulator :=
  { acc with yieldedSigs := acc.yieldedSigs ∪ sigKeys txs }

@[simp] theorem record_nil (acc : SlotAccumulator) : acc.record [] = acc := by
  simp [record, sigKeys]

theorem record_record (acc : SlotAccumulator) (txs txs' : List VersionedTransaction) :
    (acc.record txs).record txs' = acc.record (txs ++ txs') := by
  simp [record, sigKeys, keys_append, Finset.union_assoc]

theorem recordAll_eq (acc : SlotAccumulator) (txs : List VersionedTransaction) :
    acc.recordAll txs = (acc.record txs, unseen acc.yieldedSigs txs) := by
  induction txs generalizing acc with
  | nil => simp [recordAll]
  | cons tx txs ih =>
    rw [recordAll, recordSig]
    cases hk : tx.firstSig with
    | none =>
      simp only [ih, Bool.false_eq_true, if_false, unseen, fresh_cons_none hk]
      simp [record, sigKeys, keys_cons_none hk]
    | some sig =>
      simp only [ih]
      by_cases hs : sig ∈ acc.yieldedSigs
      · simp [record, sigKeys, unseen, keys_cons_some hk, fresh_cons_seen hk hs, hs]
      · simp [record, sigKeys, unseen, keys_cons_some hk, fresh_cons_new hk hs, hs,
          Finset.insert_union, Finset.union_insert]

variable {C : Type} (env : Env C) (acc : SlotAccumulator)

theorem decodeRun_eq (scratch : Bytes) :
    acc.decodeRun env scratch = acc.recordAll (decodeConcatenated env.wincode scratch) := by
  unfold decodeRun
  split_ifs with h
  · rw [List.isEmpty_iff.mp h, decodeConcatenated_nil, recordAll]
  · rfl

/-! ## The two inner loops -/

theorem skipAbsent_spec {endIdx cursor fuel : ℕ} (hend : endIdx < u32Max)
    (hcur : cursor ≤ endIdx + 1) (hfuel : 2 ^ 32 < fuel) :
    ∃ c, FuelLoop.run (acc.skipAbsent endIdx) fuel cursor = some c ∧ cursor ≤ c ∧
      c ≤ endIdx + 1 ∧ (∀ i, cursor ≤ i → i < c → i ∉ acc.pending) ∧
      (c ≤ endIdx → c ∈ acc.pending) := by
  refine FuelLoop.run_total
    (fun c => cursor ≤ c ∧ c ≤ endIdx + 1 ∧ ∀ i, cursor ≤ i → i < c → i ∉ acc.pending) _
    (fun c => endIdx + 1 - c) ?_ fuel cursor ⟨le_rfl, hcur, fun i h1 h2 => by omega⟩
    (by unfold u32Max at hend; omega)
  rintro c ⟨h1, h2, habs⟩
  unfold skipAbsent
  split_ifs with h
  · refine .inl ⟨c + 1, by rw [satAdd32_of_lt (by omega)], ⟨by omega, by omega, ?_⟩, by omega⟩
    intro i hi hic
    rcases Nat.lt_succ_iff_lt_or_eq.mp hic with hlt | rfl
    · exact habs i hi hlt
    · exact h.2
  · refine .inr ⟨c, rfl, h1, h2, habs, fun hc => ?_⟩
    by_contra hnot
    exact h ⟨hc, hnot⟩

theorem gatherRun_spec {endIdx cursor fuel : ℕ} (hend : endIdx < u32Max)
    (hcur : cursor ≤ endIdx + 1) (hfuel : 2 ^ 32 < fuel) :
    ∃ r, FuelLoop.run (acc.gatherRun endIdx) fuel (cursor, []) = some r ∧ cursor ≤ r.1 ∧
      r.1 ≤ endIdx + 1 ∧ (∀ i, cursor ≤ i → i < r.1 → i ∈ acc.pending) ∧
      (r.1 = endIdx + 1 ∨ r.1 ∉ acc.pending) ∧
      r.2 = (List.range' cursor (r.1 - cursor)).flatMap acc.payloadAt := by
  refine FuelLoop.run_total
    (fun r => cursor ≤ r.1 ∧ r.1 ≤ endIdx + 1 ∧ (∀ i, cursor ≤ i → i < r.1 → i ∈ acc.pending) ∧
      r.2 = (List.range' cursor (r.1 - cursor)).flatMap acc.payloadAt) _
    (fun r => endIdx + 1 - r.1) ?_ fuel (cursor, [])
    ⟨le_rfl, hcur, fun i h1 h2 => absurd h2 (by simp only; omega), by simp⟩
    (by unfold u32Max at hend; simp only; omega)
  rintro ⟨c, scratch⟩ ⟨h1, h2, hpres, hscratch⟩
  simp only at h1 h2 hpres hscratch
  unfold gatherRun
  simp only
  split_ifs with h
  · refine .inl ⟨_, rfl, ⟨?_, ?_, ?_, ?_⟩, ?_⟩
    all_goals simp only [satAdd32_of_lt (show c < u32Max by omega)]
    · omega
    · omega
    · intro i hi hic
      rcases Nat.lt_succ_iff_lt_or_eq.mp hic with hlt | rfl
      · exact hpres i hi hlt
      · exact h.2
    · rw [hscratch, show c + 1 - cursor = (c - cursor) + 1 by omega, List.range'_concat]
      simp [show cursor + (c - cursor) = c by omega]
    · omega
  · refine .inr ⟨_, rfl, h1, h2, hpres, ?_, hscratch⟩
    by_contra hnot
    rw [not_or, not_not] at hnot
    exact h ⟨by omega, hnot.2⟩

/-! ## The salvage of a range -/

/-- The transactions decoded from the runs of pending shreds in `[a, b)`. -/
def salvaged (a b : ℕ) : List VersionedTransaction :=
  salvagedIn env.wincode (· ∈ acc.pending) acc.payloadAt a b

/-- An iteration of the salvage: nothing is left in the range, or the next run
    `[c, e)` is decoded and the cursor moves behind it. -/
theorem salvageBody_cases {endIdx fuel : ℕ} (hend : endIdx < u32Max) (hfuel : 2 ^ 32 < fuel)
    (s : SalvageState) :
    (∃ cursor, salvageBody env fuel endIdx s = some (.inr { s with cursor }) ∧
      ∀ i, s.cursor ≤ i → i ≤ endIdx → i ∉ s.acc.pending) ∨
    ∃ c e, s.cursor ≤ c ∧ c < e ∧ e ≤ endIdx + 1 ∧
      (∀ i, s.cursor ≤ i → i < c → i ∉ s.acc.pending) ∧
      (∀ i, c ≤ i → i < e → i ∈ s.acc.pending) ∧ (e = endIdx + 1 ∨ e ∉ s.acc.pending) ∧
      ∃ acc new, s.acc.decodeRun env ((List.range' c (e - c)).flatMap s.acc.payloadAt) =
          (acc, new) ∧
        salvageBody env fuel endIdx s =
          some (.inl ⟨acc, s.out ++ new, s.salvaged + new.length, e⟩) := by
  unfold salvageBody
  by_cases hle : s.cursor ≤ endIdx
  swap
  · rw [if_neg hle]
    exact .inl ⟨s.cursor, rfl, fun i h1 h2 => by omega⟩
  rw [if_pos hle]
  obtain ⟨c, hc, h1, h2, habs, hpres⟩ :=
    s.acc.skipAbsent_spec hend (show s.cursor ≤ endIdx + 1 by omega) hfuel
  simp only [hc, Option.bind_eq_bind, Option.bind_some]
  by_cases hgt : c > endIdx
  · rw [if_pos hgt]
    exact .inl ⟨c, rfl, fun i hi hie => habs i hi (by omega)⟩
  rw [if_neg hgt]
  obtain ⟨⟨e, scratch⟩, hg, g1, g2, gpres, gend, gscratch⟩ :=
    s.acc.gatherRun_spec hend (show c ≤ endIdx + 1 by omega) hfuel
  simp only at g1 g2 gpres gend gscratch
  -- the run is not empty, since the cursor stopped at a shred
  have hce : c < e := by
    rcases gend with h | h
    · omega
    · apply lt_of_le_of_ne g1
      rintro rfl
      exact h (hpres (by omega))
  simp only [hg, Option.bind_some, gscratch]
  exact .inr ⟨c, e, h1, hce, g2, habs, gpres, gend, _, _, rfl, rfl⟩

/-- `salvage_contiguous_runs_in` on a range below `u32::MAX`. -/
theorem salvage_eq {start endIdx fuel : ℕ} (hend : endIdx < u32Max) (hfuel : 2 ^ 32 < fuel)
    (out : List VersionedTransaction) :
    acc.salvageContiguousRunsIn env fuel start endIdx out = some
      (acc.record (acc.salvaged env start (endIdx + 1)),
        out ++ unseen acc.yieldedSigs (acc.salvaged env start (endIdx + 1)),
        (unseen acc.yieldedSigs (acc.salvaged env start (endIdx + 1))).length) := by
  suffices h : ∃ s, FuelLoop.run (salvageBody env fuel endIdx) fuel ⟨acc, out, 0, start⟩ = some s ∧
      s.acc = acc.record (acc.salvaged env start (endIdx + 1)) ∧
      s.out = out ++ unseen acc.yieldedSigs (acc.salvaged env start (endIdx + 1)) ∧
      s.salvaged = (unseen acc.yieldedSigs (acc.salvaged env start (endIdx + 1))).length by
    obtain ⟨s, hrun, h1, h2, h3⟩ := h
    simp [salvageContiguousRunsIn, hrun, h1, h2, h3]
  -- `found` are the transactions of the runs left of the cursor
  refine FuelLoop.run_total
    (fun s : SalvageState => ∃ found, acc.salvaged env start (endIdx + 1) =
        found ++ acc.salvaged env s.cursor (endIdx + 1) ∧ s.acc = acc.record found ∧
        s.out = out ++ unseen acc.yieldedSigs found ∧
        s.salvaged = (unseen acc.yieldedSigs found).length) _
    (fun s => endIdx + 1 - s.cursor) ?_ fuel ⟨acc, out, 0, start⟩
    ⟨[], by simp, by simp, by simp, by simp⟩ (by unfold u32Max at hend; simp only; omega)
  rintro s ⟨found, hsplit, hacc, hout, hcount⟩
  have hpend : s.acc.pending = acc.pending := by rw [hacc]; rfl
  have hpay : s.acc.payloadAt = acc.payloadAt := by rw [hacc]; rfl
  rcases salvageBody_cases env hend hfuel s with
    ⟨cursor, hbody, habs⟩ | ⟨c, e, h1, hce, h2, habs, hpres, hstop, acc', new, hdec, hbody⟩
  · -- nothing is left of the range
    rw [hpend] at habs
    have hdone : acc.salvaged env s.cursor (endIdx + 1) = [] := by
      rw [salvaged, salvagedIn]
      by_cases hle : s.cursor ≤ endIdx + 1
      · rw [Runs.runsIn_skip_to hle (fun i hi hie => by simpa using habs i hi (by omega)) le_rfl,
          Runs.runsIn_empty le_rfl, List.flatMap_nil]
      · rw [Runs.runsIn_empty (by omega), List.flatMap_nil]
    rw [hdone, List.append_nil] at hsplit
    exact .inr ⟨_, hbody, by rw [hacc, hsplit], by rw [hout, hsplit], by rw [hcount, hsplit]⟩
  · -- the run found is the first one of the rest
    rw [hpend] at habs hpres hstop
    have hrun : acc.salvaged env s.cursor (endIdx + 1) =
        decodeConcatenated env.wincode ((List.range' c (e - c)).flatMap acc.payloadAt) ++
          acc.salvaged env e (endIdx + 1) := by
      rw [salvaged, salvagedIn,
        Runs.runsIn_skip_to h1 (fun i hi hic => by simpa using habs i hi hic) (by omega),
        Runs.runsIn_block hce (fun i hi hie => by simpa using hpres i hi hie) h2
          (hstop.imp id fun h => by simpa using h), List.flatMap_cons, salvaged, salvagedIn]
    rw [hpay, decodeRun_eq, recordAll_eq] at hdec
    cases hdec
    refine .inl ⟨_, hbody, ⟨found ++ decodeConcatenated env.wincode
      ((List.range' c (e - c)).flatMap acc.payloadAt), ?_, ?_, ?_, ?_⟩, ?_⟩
    · rw [hsplit, hrun, List.append_assoc]
    · rw [hacc, record_record]
    · rw [hout, hacc, List.append_assoc, unseen, unseen, unseen, fresh_append]
      rfl
    · rw [hcount, hacc, unseen, unseen, unseen, fresh_append, List.length_append]
      rfl
    · simp only
      omega

end SlotAccumulator

end ShredStream
