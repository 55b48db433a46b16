import ShredStream.Slot.FecLedger

/-!
# What an accumulator keeps of the packets of a slot

`Retains S sets pre acc`: of the calls `pre`, the accumulator still holds every data
shred of a batch that is not finished, and every code shred of a set that has not
given all it can (`Whole`).

* `Retains.step`, `Retains.opens`: the steps of a call and its opening keep it.
* `retains_run`: so it holds after all calls, as long as no set was evicted early.
-/

namespace ShredStream

open SlotAccumulator

namespace FecSet

variable {parity : ℕ → ℕ → List Bytes → List Bytes}

/-- The index is one of the data shreds of the set. -/
def Covers (F : FecSet parity) (i : ℕ) : Prop :=
  F.fecSetIndex ≤ i ∧ i < F.fecSetIndex + F.numData

instance (F : FecSet parity) (i : ℕ) : Decidable (F.Covers i) :=
  inferInstanceAs (Decidable (_ ∧ _))

theorem Covers.position {F : FecSet parity} {i : ℕ} (h : F.Covers i) :
    i - F.fecSetIndex < F.numData ∧ F.fecSetIndex + (i - F.fecSetIndex) = i := by
  obtain ⟨h1, h2⟩ := h
  omega

/-- None of the data shreds of the set is to be stored any more. -/
def Whole (F : FecSet parity) (acc : SlotAccumulator) : Prop := ∀ p < F.numData, ¬F.Stores acc p

theorem Whole.mono {F : FecSet parity} {acc acc' : SlotAccumulator} (h : F.Whole acc)
    (hstart : acc.batchStart ≤ acc'.batchStart)
    (hkept : ∀ i ∈ acc.pending, acc'.batchStart ≤ i → i ∈ acc'.pending) : F.Whole acc' := by
  rintro p hp ⟨hge, hnew, hlast⟩
  exact h p hp ⟨hstart.trans hge, fun hmem => hnew (hkept _ hmem hge), hlast⟩

end FecSet

namespace SlotAccumulator

variable {C : Type} {env : Env C} {clock : Clock} {acc : SlotAccumulator}

/-- An attempt at recovery forgets the set that is selected, at most. -/
theorem getElem?_tryFecFill_of_others {cache : ReedSolomonCache C} {hint i : ℕ}
    (hsel : acc.selectRecoverableSet hint ≠ some i) :
    (acc.tryFecFill env clock cache hint).1.fecSets[i]? = acc.fecSets[i]? := by
  rcases tryFecFill_cases env acc clock cache hint with
    ⟨cache', counters, hfill⟩ | ⟨setIdx, fec, cache', recovered, hsel', -, -, hfill⟩
  · rw [hfill]
  have hne : setIdx ≠ i := by
    rintro rfl
    exact hsel hsel'
  have hfold : (recovered.foldl (insertRecovered clock setIdx) (acc, false)).1.fecSets =
      acc.fecSets :=
    foldl_insertRecovered_invariant (I := fun acc₁ => acc₁.fecSets = acc.fecSets)
      (fun r _ acc₁ acc₂ h₁ hinserts => by cases hinserts <;> exact h₁) rfl
  rcases hfill with hfill | ⟨counters, hfill⟩
  · rw [hfill, hfold]
  · rw [hfill, BTreeMap.getElem?_erase_eq, if_neg hne, hfold]

/-- What `record_code` does, unless it evicts a set. -/
theorem recordCode_of_kept {a : CodeArgs}
    (h : (acc.recordCode a).counters.fecSetsEvictedEarly = 0) :
    acc.counters.fecSetsEvictedEarly = 0 ∧ acc.recordCode a = { acc with
      fecSets := acc.fecSets.insert a.fecSetIndex
        (((acc.fecSets[a.fecSetIndex]?).getD (FecSetBuffer.new a.fecSetIndex)).recordCode
          a.position a.numData a.numCoding a.coded a.variant) } := by
  have hadd : satAdd64 acc.counters.fecSetsEvictedEarly 1 ≠ 0 := by
    unfold satAdd64 u64Max
    omega
  unfold recordCode at h ⊢
  simp only at h ⊢
  split_ifs at h ⊢
  · cases hhead : acc.fecSets.toList.head? with
    | none =>
      simp only [hhead] at h ⊢
      exact ⟨h, trivial⟩
    | some e =>
      simp only [hhead] at h ⊢
      split_ifs at h ⊢
      · exact absurd h hadd
      · exact ⟨h, rfl⟩
  · exact ⟨h, rfl⟩

theorem mem_recordCode_code {fec : FecSetBuffer} {q nd nc i : ℕ} {coded : Bytes}
    {variant : VariantKind} :
    i ∈ (fec.recordCode q nd nc coded variant).code ↔ i = q ∨ i ∈ fec.code := by
  show i ∈ fec.code.insertIfNew q coded ↔ _
  rw [Std.ExtTreeMap.mem_insertIfNew, Nat.compare_eq_eq, eq_comm]

/-- The steps evict no set. -/
theorem Step.evictedEarly {s s' : CallState C} (h : Step env clock s s') :
    s'.acc.counters.fecSetsEvictedEarly = s.acc.counters.fecSetsEvictedEarly := by
  cases h with
  | fill hint =>
    have hcounts := tryFecFill_counts env clock s.acc s.cache hint
    generalize (s.acc.tryFecFill env clock s.cache hint).1.counters = counters at hcounts
    cases hcounts with
    | nothing => rfl
    | failed => rfl
    | done => rfl
  | finalise txs _ hcounts => cases hcounts <;> rfl
  | _ => rfl

theorem Steps.evictedEarly {s s' : CallState C} (h : Steps env clock s s') :
    s'.acc.counters.fecSetsEvictedEarly = s.acc.counters.fecSetsEvictedEarly :=
  h.invariant (I := fun s' => s'.acc.counters.fecSetsEvictedEarly =
    s.acc.counters.fecSetsEvictedEarly) (fun _ _ hs hstep => hstep.evictedEarly.trans hs) rfl

end SlotAccumulator

namespace Slot

variable {C : Type} {env : Env C} {parity : ℕ → ℕ → List Bytes → List Bytes}
  {S : Slot env.wincode} {sets : FecSets env.reedSolomon parity} {clock : Clock}
  {pre : List (Clock × Call)} {acc acc₀ : SlotAccumulator} {s s' : CallState C}

/-- The positions of the code shreds of a set that were handed over. -/
def codePositions (calls : List (Clock × Call)) (i : ℕ) : List ℕ :=
  calls.filterMap fun c =>
    match c.2 with
    | .code a => if a.fecSetIndex = i then some a.position else none
    | _ => none

theorem codePositions_append (calls calls' : List (Clock × Call)) (i : ℕ) :
    codePositions (calls ++ calls') i = codePositions calls i ++ codePositions calls' i :=
  List.filterMap_append

/-- The sets divide the slot: no two overlap, and none runs past the end of a batch. -/
structure Divides (S : Slot env.wincode) (sets : FecSets env.reedSolomon parity) : Prop where
  apart : ∀ F F', sets.set F.fecSetIndex = some F → sets.set F'.fecSetIndex = some F' →
    ∀ i, F.Covers i → F'.Covers i → F.fecSetIndex = F'.fecSetIndex
  inBatch : ∀ F, sets.set F.fecSetIndex = some F →
    ∃ k < S.batches, S.start k ≤ F.fecSetIndex ∧ F.fecSetIndex + F.numData ≤ S.start (k + 1)

/-- A data shred names the set that covers its index. -/
def Owned (sets : FecSets env.reedSolomon parity) (c : Call) : Prop :=
  ∀ a, c = .data a → ∀ F, sets.set F.fecSetIndex = some F → F.Covers a.index →
    a.fecSetIndex = F.fecSetIndex

/-- What is kept of the packets of the calls `pre`. -/
structure Retains (S : Slot env.wincode) (sets : FecSets env.reedSolomon parity)
    (pre : List (Clock × Call)) (acc : SlotAccumulator) : Prop where
  data : ∀ i ∈ pushed pre, S.Stored i → acc.batchStart ≤ i → i ∈ acc.pending
  owned : ∀ (i : ℕ) (ps : PendingShred), acc.pending[i]? = some ps →
    ∀ F, sets.set F.fecSetIndex = some F → F.Covers i → ps.fecSetIndex = F.fecSetIndex
  code : ∀ F, sets.set F.fecSetIndex = some F → ∀ q ∈ codePositions pre F.fecSetIndex,
    F.Whole acc ∨ ∃ fec, acc.fecSets[F.fecSetIndex]? = some fec ∧ q ∈ fec.code

theorem retains_fresh (S : Slot env.wincode) (sets : FecSets env.reedSolomon parity)
    (cfg : AccumulatorConfig) : Retains S sets [] (withConfig cfg) where
  data i hi := by cases hi
  owned i ps h := by simp [withConfig] at h
  code F _ q hq := by cases hq

/-! ## Steps -/

/-- What is recovered belongs to the set it was recovered from. -/
theorem owned_tryFecFill (hdiv : Divides S sets) (hrs : env.reedSolomon.Rebuilds parity)
    (hs : SetState sets s) (h : Retains S sets pre s.acc) (hint : ℕ) :
    ∀ (i : ℕ) (ps : PendingShred),
      (s.acc.tryFecFill env clock s.cache hint).1.pending[i]? = some ps → ∀ F, sets.set F.fecSetIndex = some F →
        F.Covers i → ps.fecSetIndex = F.fecSetIndex := by
  refine tryFecFill_invariant (I := fun acc => ∀ (i : ℕ) (ps : PendingShred),
    acc.pending[i]? = some ps → ∀ F, sets.set F.fecSetIndex = some F → F.Covers i →
      ps.fecSetIndex = F.fecSetIndex) env s.acc clock s.cache hint h.owned ?_
    (fun _ _ h₁ => h₁) (fun _ _ h₁ => h₁)
  intro setIdx fec cache' recovered r acc₁ acc₂ hfec hrec hr h₁ hinserts
  obtain ⟨F, hF, -⟩ := hs.fromSets.recorded setIdx fec hfec
  obtain rfl := sets.fecSetIndex hF
  obtain ⟨hlt, -⟩ := (hs.fromSets.genuine hF hfec).recovered_eq hrs hs.cache hrec r hr
  have hidx : wrapAdd32 F.fecSetIndex r.1 = F.fecSetIndex + r.1 :=
    wrapAdd32_of_lt (by have := F.index_lt; omega)
  cases hinserts with
  | skip => exact h₁
  | last => exact h₁
  | store =>
    intro i ps hps F' hF' hcovers
    rw [storeRecovered, BTreeMap.getElem?_insert_eq, hidx] at hps
    split_ifs at hps with heq
    · cases hps
      have hcovers' : F.Covers i := ⟨by omega, by omega⟩
      exact hdiv.apart F F' hF hF' i hcovers' hcovers
    · exact h₁ i ps hps F' hF' hcovers

/-- A set that is thrown away with its batch has nothing more to give. -/
theorem whole_of_forgotten (hp : Protects S sets) {F : FecSet parity}
    (hF : sets.set F.fecSetIndex = some F)
    (hend : satAdd32 F.fecSetIndex F.numData ≤ acc.batchStart) : F.Whole acc := by
  rintro p hlt ⟨hge, -, hlast⟩
  have hnot : ¬S.IsLast (F.fecSetIndex + p) := by
    rw [← hp.lastInSlot F hF p hlt, hlast]
    simp
  have hmax := S.lt_u32Max (hp.index_lt F hF p hlt) hnot
  have hsat : satAdd32 F.fecSetIndex F.numData = min (F.fecSetIndex + F.numData) u32Max := rfl
  omega

theorem Retains.step (h : Retains S sets pre s.acc) (hstep : Step env clock s s')
    (hp : Protects S sets) (hdiv : Divides S sets) (hrs : env.reedSolomon.Rebuilds parity)
    (hs : SetState sets s) (hc : s.acc.Consistent) : Retains S sets pre s'.acc := by
  cases hstep with
  | fill hint =>
    have hrefill := refilled_tryFecFill env s.acc clock s.cache hint
    have hkept : ∀ i ∈ s.acc.pending, i ∈ (s.acc.tryFecFill env clock s.cache hint).1.pending := by
      intro i hi
      obtain ⟨ps, hps⟩ := s.acc.pending.mem_iff_getElem?.mp hi
      exact BTreeMap.mem_iff_getElem? _ |>.mpr ⟨ps, hrefill.kept i ps hps⟩
    refine ⟨fun i hi hstored hge => hkept i (h.data i hi hstored (hrefill.batchStart ▸ hge)),
      owned_tryFecFill hdiv hrs hs h hint, fun F hF q hq => ?_⟩
    by_cases hsel : s.acc.selectRecoverableSet hint = some F.fecSetIndex
    · exact .inl (filled_of_select hs.fromSets hrs hF hs.cache hsel)
    · rcases h.code F hF q hq with hwhole | ⟨fec, hfec, hmem⟩
      · exact .inl (hwhole.mono hrefill.batchStart.ge fun i hi _ => hkept i hi)
      · exact .inr ⟨fec, (getElem?_tryFecFill_of_others hsel).trans hfec, hmem⟩
  | @finalise bcIdx txs _ hge _ =>
    have hstart := hc.start_le_next hge
    refine ⟨fun i hi hstored hle => ?_, fun i ps hps => ?_, fun F hF q hq => ?_⟩
    · exact (mem_completeBatch_pending _).mpr ⟨h.data i hi hstored (hstart.trans hle), hle⟩
    · exact h.owned i ps ((completeBatch_pending _).mp hps).1
    · rcases h.code F hF q hq with hwhole | ⟨fec, hfec, hmem⟩
      · exact .inl (hwhole.mono hstart fun i hi hle => (mem_completeBatch_pending _).mpr ⟨hi, hle⟩)
      by_cases hend : satAdd32 F.fecSetIndex F.numData ≤ satAdd32 bcIdx 1
      · exact .inl (whole_of_forgotten hp hF hend)
      · refine .inr ⟨fec, (BTreeMap.getElem?_filter_eq _).mpr ⟨hfec, ?_⟩, hmem⟩
        rw [(hs.fromSets.genuine hF hfec).code.numData]
        simp [hend]
  | _ => exact ⟨h.data, h.owned, h.code⟩

theorem Retains.steps (h : Retains S sets pre s.acc) (hsteps : Steps env clock s s')
    (hp : Protects S sets) (hdiv : Divides S sets) (hrs : env.reedSolomon.Rebuilds parity)
    (hs : SetState sets s) (hc : s.acc.Consistent) : Retains S sets pre s'.acc := by
  have hkeep := hsteps.invariant
    (I := fun s => Retains S sets pre s.acc ∧ SetState sets s ∧ s.acc.Consistent)
    (fun s s' hs hstep => ⟨hs.1.step hstep hp hdiv hrs hs.2.1 hs.2.2,
      hstep.setState hrs hs.2.1, hstep.consistent hs.2.2⟩) ⟨h, hs, hc⟩
  exact hkeep.1

/-! ## Calls -/

variable {c : Clock × Call} {cache : ReedSolomonCache C} {fuel : ℕ}

/-- A data shred that need not be stored. -/
theorem Retains.skip (h : Retains S sets pre acc) {a : DataArgs} (ha : c.2 = .data a)
    (hskip : S.Stored a.index → acc.batchStart ≤ a.index → a.index ∈ acc.pending) :
    Retains S sets (pre ++ [c]) acc where
  data i hi hstored hge := by
    rw [pushed_append, pushed_data c ha, List.mem_append, List.mem_singleton] at hi
    rcases hi with hi | rfl
    · exact h.data i hi hstored hge
    · exact hskip hstored hge
  owned := h.owned
  code F hF q hq := by
    rw [codePositions_append, List.mem_append] at hq
    rcases hq with hq | hq
    · exact h.code F hF q hq
    · simp [codePositions, ha] at hq

/-- The last shred of the slot is not stored. -/
theorem not_stored {a : DataArgs} (hgen : S.Genuine a) (hlast : a.lastInSlot = true) :
    ¬S.Stored a.index :=
  fun hstored => hstored.2 (hgen.lastInSlot.mp hlast)

theorem Retains.insertData (h : Retains S sets pre acc) {a : DataArgs} (ha : c.2 = .data a)
    (howned : Owned sets c.2) : Retains S sets (pre ++ [c]) (acc.insertData clock a) := by
  have hkept (i : ℕ) (hi : i ∈ acc.pending) : i ∈ (acc.insertData clock a).pending :=
    Std.ExtTreeMap.mem_insert.mpr (.inr hi)
  refine Retains.skip ⟨fun i hi hstored hge => hkept i (h.data i hi hstored hge),
    fun i ps hps => ?_, fun F hF q hq => ?_⟩ ha fun _ _ => Std.ExtTreeMap.mem_insert_self
  · rw [SlotAccumulator.insertData, BTreeMap.getElem?_insert_eq] at hps
    split_ifs at hps with heq
    · cases hps
      rw [← heq]
      exact howned a ha
    · exact h.owned i ps hps
  · exact (h.code F hF q hq).imp_left fun hwhole => hwhole.mono le_rfl fun i hi _ => hkept i hi

theorem Retains.recordCode (h : Retains S sets pre acc) {a : CodeArgs} (ha : c.2 = .code a)
    (hkept : (acc.recordCode a).counters.fecSetsEvictedEarly = 0) :
    Retains S sets (pre ++ [c]) (acc.recordCode a) := by
  obtain ⟨-, heq⟩ := recordCode_of_kept hkept
  rw [heq]
  refine ⟨fun i hi => ?_, h.owned, fun F hF q hq => ?_⟩
  · rw [pushed_append, List.mem_append] at hi
    rcases hi with hi | hi
    · exact h.data i hi
    · simp [pushed, ha] at hi
  have hq' : q ∈ codePositions pre F.fecSetIndex ∨
      a.fecSetIndex = F.fecSetIndex ∧ a.position = q := by
    rw [codePositions_append, List.mem_append] at hq
    simpa [codePositions, ha] using hq
  by_cases hset : a.fecSetIndex = F.fecSetIndex
  · -- the code shred joins those of its set
    rcases hq' with hq | ⟨-, rfl⟩
    · rcases h.code F hF q hq with hwhole | ⟨fec, hfec, hmem⟩
      · exact .inl hwhole
      · refine .inr ⟨_, (BTreeMap.getElem?_insert_eq _).trans (if_pos hset), ?_⟩
        rw [hset, hfec]
        exact mem_recordCode_code.mpr (.inr hmem)
    · exact .inr ⟨_, (BTreeMap.getElem?_insert_eq _).trans (if_pos hset),
        mem_recordCode_code.mpr (.inl rfl)⟩
  · rcases hq' with hq | ⟨hset', -⟩
    · refine (h.code F hF q hq).imp id ?_
      rintro ⟨fec, hfec, hmem⟩
      exact ⟨fec, (BTreeMap.getElem?_insert_eq _).trans ((if_neg hset).trans hfec), hmem⟩
    · exact absurd hset' hset

/-- Opening a call, if no set was evicted. -/
theorem Retains.opens (h : acc.counters.fecSetsEvictedEarly = 0 → Retains S sets pre acc)
    (ho : Opens c.1 acc c.2 acc₀) (hsends : Sends S sets c.2) (howned : Owned sets c.2)
    (hkept : acc₀.counters.fecSetsEvictedEarly = 0) : Retains S sets (pre ++ [c]) acc₀ := by
  obtain ⟨clock, c⟩ := c
  cases ho with
  | @last a hlast =>
    have hskip := (h hkept).skip (c := (clock, .data a)) rfl fun hstored =>
      absurd hstored (not_stored (hsends.genuine a rfl) hlast)
    exact ⟨hskip.data, hskip.owned, hskip.code⟩
  | data => exact (h hkept).insertData rfl howned
  | code => exact (h (recordCode_of_kept hkept).1).recordCode rfl hkept
  | harvest => exact absurd rfl hsends.sent.ne_harvest

theorem Retains.call (h : acc.counters.fecSetsEvictedEarly = 0 → Retains S sets pre acc)
    (hp : Protects S sets) (hdiv : Divides S sets) (hrs : env.reedSolomon.Rebuilds parity)
    (hs : SetState sets ⟨acc, cache, []⟩) (hparsed : acc.Parsed) (hc : acc.Consistent)
    (hsends : Sends S sets c.2) (howned : Owned sets c.2) {r : CallState C}
    (hr : acc.call env c.1 fuel cache c.2 = some r)
    (hkept : r.acc.counters.fecSetsEvictedEarly = 0) : Retains S sets (pre ++ [c]) r.acc := by
  rcases call_cases hparsed hsends.sent.parsed hr with
    ⟨a, ha, hdrop, rfl⟩ | ⟨acc₀, s, ho, hsteps, hr⟩
  · have hskip : Retains S sets (pre ++ [c]) acc := by
      refine (h hkept).skip ha fun _ hge => ?_
      rcases hdrop with hlt | hmem
      · omega
      · exact hmem
    exact ⟨hskip.data, hskip.owned, hskip.code⟩
  · have hs₀ : SetState sets ⟨acc₀, cache, []⟩ := ⟨ho.fromSets hs.fromSets hsends.sent, hs.cache⟩
    have h' (hkept : s.acc.counters.fecSetsEvictedEarly = 0) :
        Retains S sets (pre ++ [c]) s.acc := by
      rw [hsteps.evictedEarly] at hkept
      exact (opens h ho hsends howned hkept).steps hsteps hp hdiv hrs hs₀ (hc.opens ho).1
    rcases hr with ⟨rfl, -⟩ | ⟨a, -, -, rfl⟩
    · exact h' hkept
    · exact ⟨(h' hkept).data, (h' hkept).owned, (h' hkept).code⟩

/-- What is kept after calls with packets of the slot, if no set was evicted early. -/
theorem retains_run (hp : Protects S sets) (hdiv : Divides S sets)
    (hrs : env.reedSolomon.Rebuilds parity) (cfg : AccumulatorConfig)
    (hcache : cache.Valid env.reedSolomon) {calls : List (Clock × Call)} :
    ∀ {s : CallState C}, (∀ c ∈ calls, Sends S sets c.2 ∧ Owned sets c.2) →
      runCalls env fuel (.fresh cfg cache) calls = some s →
      s.acc.counters.fecSetsEvictedEarly = 0 → Retains S sets calls s.acc := by
  induction calls using List.reverseRecOn with
  | nil =>
    rintro s - hrun -
    cases hrun
    exact retains_fresh S sets cfg
  | append_singleton calls c ih =>
    intro s hcalls hrun hkept
    rw [runCalls_append, Option.bind_eq_some_iff] at hrun
    obtain ⟨s₁, hpre, hlast⟩ := hrun
    obtain ⟨r, hr, hlast⟩ := Option.bind_eq_some_iff.mp hlast
    cases hlast
    rw [List.forall_mem_append] at hcalls
    obtain ⟨hsends, howned⟩ := hcalls.2 c (List.mem_singleton.mpr rfl)
    obtain ⟨hs, hparsed, hc⟩ :=
      run_setState hrs cfg hcache (fun c hc => (hcalls.1 c hc).1.sent) hpre
    have hretains := Retains.call (ih hcalls.1 hpre) hp hdiv hrs hs hparsed hc hsends howned hr
      hkept
    exact hretains

/-! ## Few sets -/

/-- What is recorded was handed over, and nothing of it was evicted. -/
structure Keeps (cfg : AccumulatorConfig) (pre : List (Clock × Call)) (acc : SlotAccumulator) :
    Prop where
  cfg_eq : acc.cfg = cfg
  sent : ∀ i ∈ acc.fecSets, i ∈ codeSets pre
  evictedEarly : acc.counters.fecSetsEvictedEarly = 0

namespace Keeps

variable {cfg : AccumulatorConfig}

theorem steps (h : Keeps cfg pre s.acc) (hsteps : Steps env clock s s') :
    Keeps cfg pre s'.acc where
  cfg_eq := hsteps.invariant (I := fun s => s.acc.cfg = cfg) (fun _ _ hs hstep =>
    hstep.cfg.trans hs) h.cfg_eq
  sent i hi := by
    obtain ⟨fec, hfec⟩ := s'.acc.fecSets.mem_iff_getElem?.mp hi
    exact h.sent i (s.acc.fecSets.mem_iff_getElem?.mpr ⟨fec, hsteps.fecSets_sub hfec⟩)
  evictedEarly := hsteps.evictedEarly.trans h.evictedEarly

/-- There is room for one more set. -/
theorem recordCode (h : Keeps cfg pre acc) {a : CodeArgs} (ha : c.2 = .code a)
    (hfew : (codeSets (pre ++ [c])).dedup.length ≤ cfg.maxFecSetsPerSlot) :
    Keeps cfg (pre ++ [c]) (acc.recordCode a) := by
  have hsets : codeSets (pre ++ [c]) = codeSets pre ++ [a.fecSetIndex] := by
    rw [codeSets_append]
    simp [codeSets, ha]
  have hroom : ¬(acc.fecSets.size ≥ acc.cfg.maxFecSetsPerSlot ∧ a.fecSetIndex ∉ acc.fecSets) := by
    rintro ⟨hfull, hnew⟩
    have hnodup : (a.fecSetIndex :: acc.fecSets.keys).Nodup :=
      List.nodup_cons.mpr ⟨fun hmem => hnew (Std.ExtTreeMap.mem_keys.mp hmem),
        Std.ExtTreeMap.nodup_keys⟩
    have hsub : a.fecSetIndex :: acc.fecSets.keys ⊆ (codeSets (pre ++ [c])).dedup := by
      intro i hi
      rw [List.mem_dedup, hsets, List.mem_append, List.mem_singleton]
      rcases List.mem_cons.mp hi with rfl | hi
      · exact .inr rfl
      · exact .inl (h.sent i (Std.ExtTreeMap.mem_keys.mp hi))
    have hle := (hnodup.subperm hsub).length_le
    rw [List.length_cons, Std.ExtTreeMap.length_keys] at hle
    rw [h.cfg_eq] at hfull
    omega
  unfold SlotAccumulator.recordCode
  simp only [if_neg hroom]
  refine ⟨h.cfg_eq, fun i hi => ?_, h.evictedEarly⟩
  rw [hsets, List.mem_append, List.mem_singleton]
  rcases Std.ExtTreeMap.mem_insert.mp hi with heq | hi
  · exact .inr (Nat.compare_eq_eq.mp heq).symm
  · exact .inl (h.sent i hi)

theorem call (h : Keeps cfg pre acc) (hparsed : acc.Parsed) (hc : c.2.Parsed)
    (hfew : (codeSets (pre ++ [c])).dedup.length ≤ cfg.maxFecSetsPerSlot) {r : CallState C}
    (hr : acc.call env c.1 fuel cache c.2 = some r) : Keeps cfg (pre ++ [c]) r.acc := by
  have hlater : Keeps cfg (pre ++ [c]) acc := by
    refine ⟨h.cfg_eq, fun i hi => ?_, h.evictedEarly⟩
    rw [codeSets_append]
    exact List.mem_append_left _ (h.sent i hi)
  rcases call_cases hparsed hc hr with ⟨a, ha, hdrop, rfl⟩ | ⟨acc₀, s, ho, hsteps, hr⟩
  · exact ⟨hlater.cfg_eq, hlater.sent, hlater.evictedEarly⟩
  · have h₀ : Keeps cfg (pre ++ [c]) acc₀ := by
      clear hr hsteps
      obtain ⟨clock, c⟩ := c
      cases ho with
      | code => exact h.recordCode rfl hfew
      | harvest => exact hlater
      | _ => exact ⟨hlater.cfg_eq, hlater.sent, hlater.evictedEarly⟩
    have hs : Keeps cfg (pre ++ [c]) (⟨acc₀, cache, []⟩ : CallState C).acc := h₀
    have h' := hs.steps hsteps
    rcases hr with ⟨rfl, -⟩ | ⟨a, -, -, rfl⟩
    · exact h'
    · exact ⟨h'.cfg_eq, h'.sent, h'.evictedEarly⟩

end Keeps

theorem dedup_codeSets_le (pre post : List (Clock × Call)) :
    (codeSets pre).dedup.length ≤ (codeSets (pre ++ post)).dedup.length := by
  rw [codeSets_append]
  apply List.Subperm.length_le
  apply (List.nodup_dedup _).subperm
  intro i hi
  rw [List.mem_dedup] at hi ⊢
  exact List.mem_append_left _ hi

/-- No set is evicted early if there are not more than may be recorded. -/
theorem evictedEarly_of_few (hrs : env.reedSolomon.Rebuilds parity) (cfg : AccumulatorConfig)
    (hcache : cache.Valid env.reedSolomon) {calls : List (Clock × Call)}
    (hcalls : ∀ c ∈ calls, c.2.Sent sets)
    (hfew : (codeSets calls).dedup.length ≤ cfg.maxFecSetsPerSlot) {s : CallState C}
    (hrun : runCalls env fuel (.fresh cfg cache) calls = some s) :
    s.acc.counters.fecSetsEvictedEarly = 0 := by
  suffices hkeeps : Keeps cfg calls s.acc from hkeeps.evictedEarly
  induction calls using List.reverseRecOn generalizing s with
  | nil =>
    cases hrun
    exact ⟨rfl, fun i hi => by simp [CallState.fresh, withConfig] at hi, rfl⟩
  | append_singleton calls c ih =>
    rw [runCalls_append, Option.bind_eq_some_iff] at hrun
    obtain ⟨s₁, hpre, hlast⟩ := hrun
    obtain ⟨r, hr, hlast⟩ := Option.bind_eq_some_iff.mp hlast
    cases hlast
    rw [List.forall_mem_append] at hcalls
    obtain ⟨-, hparsed, -⟩ := run_setState hrs cfg hcache hcalls.1 hpre
    have hle := dedup_codeSets_le calls [c]
    have hkeeps := (ih hcalls.1 (hle.trans hfew) hpre).call hparsed
      (hcalls.2 c (List.mem_singleton.mpr rfl)).parsed hfew hr
    exact hkeeps

end Slot

end ShredStream
