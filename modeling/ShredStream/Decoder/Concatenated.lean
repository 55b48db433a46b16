import ShredStream.Decoder.Batch
import ShredStream.Decoder.LegacyWire
import ShredStream.Library.Loop

/-!
# `decode_concatenated` is `decode_batch` over and over

`Takes w pre txs`: `pre` is what `decode_batch` reads of a string that begins with it.
`Batches w b txs`: `txs` are the transactions of the batches that `decode_batch` takes
from the front of `b`, one after the other, until it takes none.

* `batches_iff`: `decode_concatenated` computes them.
* `concatenatedBody_returns`: its loop ends on every input.
* `decodeConcatenated_iterates`: both, and what that means for encoded batches.
-/

namespace ShredStream

open SelfDelimiting

variable {w : Wincode} {es : List Entry} {pre b : Bytes} {txs : List VersionedTransaction}

/-! ## What `decode_batch` reads -/

/-- `decode_batch` accepts `pre`, and needs all of it. -/
structure Takes (w : Wincode) (pre : Bytes) (txs : List VersionedTransaction) : Prop where
  accepts : decodeBatch w pre = some txs
  shortest : ∀ q, q <+: pre → q ≠ pre → decodeBatch w q = none

theorem VecFrame.takes (hw : w.Lawful) (h : VecFrame w es pre) : Takes w pre (extractTxs es) where
  accepts := by
    have happend := decodeBatch_append hw h []
    rwa [List.append_nil] at happend
  shortest _ hq hne := decodeBatch_strictPrefix hw h hq hne

theorem Takes.exists_vecFrame (hw : w.Lawful) (h : Takes w pre txs) :
    ∃ es, VecFrame w es pre ∧ txs = extractTxs es := by
  obtain ⟨es, pre', rest, rfl, hf, rfl⟩ := (decodeBatch_eq_some hw).mp h.accepts
  -- nothing follows the vector, or less would do
  by_cases hrest : rest = []
  · subst hrest
    rw [List.append_nil]
    exact ⟨es, hf, rfl⟩
  · have hnone := h.shortest pre' (List.prefix_append _ _) (by simpa using hrest)
    rw [(hf.takes hw).accepts] at hnone
    cases hnone

/-! ## One batch after the other -/

/-- The transactions of the batches at the front of a string. -/
inductive Batches (w : Wincode) : Bytes → List VersionedTransaction → Prop
  | stop {t : Bytes} : decodeBatch w t = none → Batches w t []
  | next {pre rest : Bytes} {txs txs' : List VersionedTransaction} : Takes w pre txs →
      Batches w rest txs' → Batches w (pre ++ rest) (txs ++ txs')

theorem batches_flatMap (hw : w.Lawful) {enc : List Entry → Bytes} {batches : List (List Entry)}
    (henc : ∀ es ∈ batches, VecFrame w es (enc es)) {t : Bytes} (ht : decodeBatch w t = none) :
    Batches w (batches.flatMap enc ++ t) (batches.flatMap extractTxs) := by
  induction batches with
  | nil => exact .stop ht
  | cons es batches ih =>
    rw [List.forall_mem_cons] at henc
    rw [List.flatMap_cons, List.flatMap_cons, List.append_assoc]
    exact .next (henc.1.takes hw) (ih henc.2)

theorem Batches.eq (hw : w.Lawful) (h : Batches w b txs) : txs = decodeConcatenated w b := by
  induction h with
  | stop ht => rw [decodeConcatenated_eq_nil ht]
  | next htakes _ ih =>
    obtain ⟨es, hf, rfl⟩ := htakes.exists_vecFrame hw
    rw [decodeConcatenated_append hw hf, ih]

/-- Every string begins with some number of batches. -/
theorem exists_batches (hw : w.Lawful) (b : Bytes) : ∃ txs, Batches w b txs := by
  induction hn : b.length using Nat.strong_induction_on generalizing b with
  | _ n ih =>
    cases hd : decodeBatch w b with
    | none => exact ⟨[], .stop hd⟩
    | some txs =>
      obtain ⟨es, pre, rest, rfl, hf, rfl⟩ := (decodeBatch_eq_some hw).mp hd
      have hpos := hf.eight_le
      rw [List.length_append] at hn
      obtain ⟨txs', hrest⟩ := ih rest.length (by omega) rest rfl
      exact ⟨_, .next (hf.takes hw) hrest⟩

theorem batches_iff (hw : w.Lawful) : Batches w b txs ↔ txs = decodeConcatenated w b := by
  constructor
  · exact Batches.eq hw
  · rintro rfl
    obtain ⟨txs, htxs⟩ := exists_batches hw b
    rwa [← htxs.eq hw]

/-! ## The loop -/

/-- The body of the loop of `decode_concatenated` (lines 108–126) on `(offset, out)`. -/
def concatenatedBody (w : Wincode) (bytes : Bytes) (s : ℕ × List VersionedTransaction) :
    Option ((ℕ × List VersionedTransaction) ⊕ List VersionedTransaction) :=
  let (offset, out) := s
  if offset + 8 ≤ bytes.length then
    let remaining := bytes.drop offset
    if ¬validateVecPrefix remaining then some (.inr out)
    else
      match w.deserializeEntries remaining with
      | .error _ => some (.inr out)
      | .ok entries =>
        match w.serializedSizeEntries entries with
        | .error _ => some (.inr out)
        | .ok consumed =>
          if consumed = 0 then some (.inr out)
          else some (.inl (offset + consumed, out ++ extractTxs entries))
  else some (.inr out)

/-- An iteration leaves the loop, or reads a vector and moves behind it. -/
theorem concatenatedBody_cases (hw : w.Lawful) (b : Bytes) (offset : ℕ)
    (out : List VersionedTransaction) :
    (concatenatedBody w b (offset, out) = some (.inr out) ∧
      decodeConcatenated w (b.drop offset) = []) ∨
    ∃ es pre rest, b.drop offset = pre ++ rest ∧ VecFrame w es pre ∧
      concatenatedBody w b (offset, out) =
        some (.inl (offset + pre.length, out ++ extractTxs es)) := by
  unfold concatenatedBody
  cases hd : decodeBatch w (b.drop offset) with
  | none =>
    refine .inl ⟨?_, decodeConcatenated_eq_nil hd⟩
    simp only
    split_ifs with h8 hv
    · rw [decodeBatch, if_neg (not_not.mpr hv)] at hd
      cases hes : w.deserializeEntries (b.drop offset) with
      | error err => rfl
      | ok es => simp [hes] at hd
    · rfl
    · rfl
  | some txs =>
    obtain ⟨es, pre, rest, hb, hf, -⟩ := (decodeBatch_eq_some hw).mp hd
    have hes : w.deserializeEntries (pre ++ rest) = .ok es := deserializeEntries_append hw hf rest
    have hlen := congrArg List.length hb
    rw [List.length_drop, List.length_append] at hlen
    have height := hf.eight_le
    refine .inr ⟨es, pre, rest, hb, hf, ?_⟩
    simp only [hb, validateVecPrefix_append hw hf, not_true_eq_false, if_false, hes,
      hw.entries_size _ _ hes, ← hf.length]
    rw [if_pos (by omega), if_neg (by omega)]

/-- The loop ends, and leaves what `decode_concatenated` returns. -/
theorem concatenatedBody_returns (hw : w.Lawful) (b : Bytes) :
    FuelLoop.run (concatenatedBody w b) (b.length + 1) (0, []) = some (decodeConcatenated w b) := by
  suffices hreturns : ∃ r, FuelLoop.run (concatenatedBody w b) (b.length + 1) (0, []) = some r ∧
      r = decodeConcatenated w b by
    obtain ⟨r, hrun, rfl⟩ := hreturns
    exact hrun
  refine FuelLoop.run_total
    (fun s : ℕ × List VersionedTransaction => s.1 ≤ b.length ∧
      decodeConcatenated w b = s.2 ++ decodeConcatenated w (b.drop s.1)) _
    (fun s => b.length - s.1) ?_ (b.length + 1) (0, []) ⟨Nat.zero_le _, by simp⟩ (by simp)
  · rintro ⟨offset, out⟩ ⟨hle, hsplit⟩
    rcases concatenatedBody_cases hw b offset out with
      ⟨hbody, hnil⟩ | ⟨es, pre, rest, hb, hf, hbody⟩
    · refine .inr ⟨out, hbody, ?_⟩
      rw [hsplit, hnil, List.append_nil]
    · have hlen := congrArg List.length hb
      rw [List.length_drop, List.length_append] at hlen
      have height := hf.eight_le
      refine .inl ⟨_, hbody, ⟨?_, ?_⟩, ?_⟩
      · show offset + pre.length ≤ b.length
        omega
      · show decodeConcatenated w b = out ++ extractTxs es ++ decodeConcatenated w _
        rw [hsplit, hb, decodeConcatenated_append hw hf, ← List.drop_drop, hb, List.drop_left,
          List.append_assoc]
      · show b.length - (offset + pre.length) < b.length - offset
        omega

/-! ## Altogether -/

/-- On encoded batches `decode_concatenated` gives their transactions in order, up to
    the first byte at which `decode_batch` fails; on any bytes it gives those of the
    batches that `decode_batch` takes one after the other; and its loop ends. -/
theorem decodeConcatenated_iterates (hw : w.Lawful) :
    (∀ (enc : List Entry → Bytes) (batches : List (List Entry)) (t : Bytes),
      (∀ es ∈ batches, VecFrame w es (enc es)) → decodeBatch w t = none →
        decodeConcatenated w (batches.flatMap enc ++ t) = batches.flatMap extractTxs) ∧
    ∀ b : Bytes, (∀ txs, Batches w b txs ↔ txs = decodeConcatenated w b) ∧
      FuelLoop.run (concatenatedBody w b) (b.length + 1) (0, []) =
        some (decodeConcatenated w b) := by
  refine ⟨fun enc batches t henc ht => ?_, fun b => ⟨fun txs => batches_iff hw, ?_⟩⟩
  · exact ((batches_flatMap hw henc ht).eq hw).symm
  · exact concatenatedBody_returns hw b

namespace LegacyWire

/-- An entry with one transaction. -/
def loneEntry : Entry where
  numHashes := 0
  hash := List.replicate 32 0
  transactions := [signedTx 1 []]

theorem vecFrame_nil : VecFrame wincode [] (encodeEntries []) :=
  ⟨by decide, by decide, .nil, by decide⟩

theorem vecFrame_loneEntry : VecFrame wincode [loneEntry] (encodeEntries [loneEntry]) := by
  have hread : wincode.entry.read (encodeEntry loneEntry) = .item loneEntry := by decide +kernel
  have hframes := Decoder.Frames.cons (wincode_lawful.entry.frame hread (by decide +kernel)) .nil
  exact ⟨by decide +kernel, by decide +kernel, hframes, by decide⟩

end LegacyWire

open LegacyWire

/-- An empty batch, one with a transaction, and three bytes more. -/
theorem decodeConcatenated_iterates_three :
    decodeConcatenated wincode ([[], [loneEntry]].flatMap encodeEntries ++ [1, 2, 3]) =
      [signedTx 1 []] ∧
    Batches wincode ([[], [loneEntry]].flatMap encodeEntries ++ [1, 2, 3]) [signedTx 1 []] := by
  obtain ⟨henc, hall⟩ := decodeConcatenated_iterates wincode_lawful
  have hrun := henc encodeEntries [[], [loneEntry]] [1, 2, 3]
    (by
      rw [List.forall_mem_cons, List.forall_mem_singleton]
      exact ⟨vecFrame_nil, vecFrame_loneEntry⟩) (by decide)
  exact ⟨hrun, ((hall _).1 _).mpr hrun.symm⟩

end ShredStream
