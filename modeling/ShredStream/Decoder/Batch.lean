import ShredStream.Decoder.Basic

/-!
# What the one-shot decoders accept

`VecFrame w es pre` says that `pre` is the whole encoding of the vector `es`.

* `decodeBatch_eq_some`: `decode_batch` accepts exactly the strings that begin
  with the encoding of a vector.
* `decodeConcatenated_append` and `decodeConcatenated_eq_nil`: a run is decoded
  vector by vector, up to the first position where `decode_batch` fails.
-/

namespace ShredStream

open SelfDelimiting

variable {w : Wincode}

/-! ## Single entries -/

namespace Wincode

theorem entry_read_eq_item {b : Bytes} {e : Entry} :
    w.entry.read b = .item e ↔ w.deserializeEntry b = .ok e := by
  unfold Wincode.entry
  cases hd : w.deserializeEntry b with
  | ok e' => simp [hd]
  | error err => by_cases h : isTruncated err <;> simp [hd, h]

theorem entry_read_eq_short {b : Bytes} :
    w.entry.read b = .short ↔ ∃ err, w.deserializeEntry b = .error err ∧ isTruncated err := by
  unfold Wincode.entry
  cases hd : w.deserializeEntry b with
  | ok e => simp [hd]
  | error err => by_cases h : isTruncated err <;> simp [hd, h]

theorem entry_read_eq_invalid {b : Bytes} :
    w.entry.read b = .invalid ↔ ∃ err, w.deserializeEntry b = .error err ∧ ¬isTruncated err := by
  unfold Wincode.entry
  cases hd : w.deserializeEntry b with
  | ok e => simp [hd]
  | error err => by_cases h : isTruncated err <;> simp [hd, h]

theorem entry_size_eq {e : Entry} {n : ℕ} (h : w.serializedSizeEntry e = .ok n) :
    w.entry.size e = n := by
  simp [Wincode.entry, h]

theorem Lawful.size_of_read (hw : w.Lawful) {b : Bytes} {e : Entry}
    (h : w.entry.read b = .item e) :
    w.serializedSizeEntry e = .ok (w.entry.size e) ∧ 48 ≤ w.entry.size e := by
  obtain ⟨n, hn, h48⟩ := hw.entry_size b e (entry_read_eq_item.mp h)
  rw [entry_size_eq hn]
  exact ⟨hn, h48⟩

theorem Lawful.productive (hw : w.Lawful) : w.entry.Productive := by
  rintro e pre hf rfl
  have h := (hw.size_of_read (hf.item [])).2
  rw [← hf.length, List.length_nil] at h
  omega

/-- The entries of a sequence of frames take 48 bytes each at least. -/
theorem Lawful.total_ge (hw : w.Lawful) {es : List Entry} {bs : Bytes}
    (h : w.entry.Frames es bs) : es.length * 48 ≤ w.entry.total es := by
  induction h with
  | nil => simp
  | @cons e pre es bs hf _ ih =>
    have := (hw.size_of_read (hf.item [])).2
    simp only [List.length_cons, Decoder.total_cons]
    omega

end Wincode

/-! ## Vectors -/

/-- `pre` is a `u64` count and the encodings of that many entries. -/
structure VecFrame (w : Wincode) (es : List Entry) (pre : Bytes) : Prop where
  eight_le : 8 ≤ pre.length
  count : leNat (pre.take 8) = es.length
  frames : w.entry.Frames es (pre.drop 8)
  count_le : es.length ≤ maxEntryCount

namespace VecFrame

variable {es : List Entry} {pre : Bytes}

theorem length (h : VecFrame w es pre) : pre.length = 8 + w.entry.total es := by
  have := h.frames.length
  rw [List.length_drop] at this
  have := h.eight_le
  omega

theorem take_append (h : VecFrame w es pre) (rest : Bytes) :
    (pre ++ rest).take 8 = pre.take 8 :=
  List.take_append_of_le_length h.eight_le

theorem drop_append (h : VecFrame w es pre) (rest : Bytes) :
    (pre ++ rest).drop 8 = pre.drop 8 ++ rest :=
  List.drop_append_of_le_length h.eight_le

end VecFrame

theorem validateVecPrefix_iff {b : Bytes} :
    validateVecPrefix b = true ↔ 8 ≤ b.length ∧ leNat (b.take 8) ≤ maxEntryCount ∧
      min (leNat (b.take 8) * 48) u64Max ≤ b.length := by
  unfold validateVecPrefix
  split_ifs <;> simp <;> omega

theorem validateVecPrefix_append (hw : w.Lawful) {es : List Entry} {pre : Bytes}
    (h : VecFrame w es pre) (rest : Bytes) : validateVecPrefix (pre ++ rest) = true := by
  rw [validateVecPrefix_iff, h.take_append, h.count, List.length_append, h.length]
  have := hw.total_ge h.frames
  exact ⟨by omega, h.count_le, (min_le_left _ _).trans (by omega)⟩

theorem deserializeEntries_append (hw : w.Lawful) {es : List Entry} {pre : Bytes}
    (h : VecFrame w es pre) (rest : Bytes) : w.deserializeEntries (pre ++ rest) = .ok es := by
  have hcount : leNat ((pre ++ rest).take 8) = es.length := by rw [h.take_append, h.count]
  rw [hw.entries _ _ (by rw [hcount]; exact h.count_le), hcount, h.drop_append, h.frames.readMany]
  refine ⟨?_, rfl⟩
  have := h.eight_le
  rw [List.length_append]
  omega

/-- What passes the two checks of `decode_batch` begins with a vector. -/
theorem exists_vecFrame (hw : w.Lawful) {b : Bytes} {es : List Entry}
    (hv : validateVecPrefix b = true) (h : w.deserializeEntries b = .ok es) :
    ∃ pre rest, b = pre ++ rest ∧ VecFrame w es pre := by
  obtain ⟨h8, hcount, -⟩ := validateVecPrefix_iff.mp hv
  obtain ⟨-, hread⟩ := (hw.entries b es hcount).mp h
  obtain ⟨hlen, bs, rest, hbs, hframes⟩ := hw.entry.frames_of_readMany _ _ _ hread
  have h8' : (b.take 8).length = 8 := by rw [List.length_take]; omega
  refine ⟨b.take 8 ++ bs, rest, ?_, ?_, ?_, ?_, ?_⟩
  · rw [List.append_assoc, ← hbs, List.take_append_drop]
  · rw [List.length_append, h8']
    omega
  · rw [List.take_left' h8', hlen]
  · rwa [List.drop_left' h8']
  · omega

/-- `decode_batch` accepts a string exactly when it begins with a vector. -/
theorem decodeBatch_eq_some (hw : w.Lawful) {b : Bytes} {txs : List VersionedTransaction} :
    decodeBatch w b = some txs ↔
      ∃ es pre rest, b = pre ++ rest ∧ VecFrame w es pre ∧ txs = extractTxs es := by
  constructor
  · intro h
    unfold decodeBatch at h
    split_ifs at h with hv
    split at h
    · rename_i es hes
      obtain ⟨pre, rest, hb, hf⟩ := exists_vecFrame hw (by simpa using hv) hes
      exact ⟨es, pre, rest, hb, hf, (Option.some.inj h).symm⟩
    · cases h
  · rintro ⟨es, pre, rest, rfl, hf, rfl⟩
    unfold decodeBatch
    rw [if_neg (by rw [validateVecPrefix_append hw hf]; simp), deserializeEntries_append hw hf]

theorem decodeBatch_append (hw : w.Lawful) {es : List Entry} {pre : Bytes}
    (h : VecFrame w es pre) (rest : Bytes) : decodeBatch w (pre ++ rest) = some (extractTxs es) :=
  (decodeBatch_eq_some hw).mpr ⟨es, pre, rest, rfl, h, rfl⟩

/-- A vector is not accepted before its last byte is there. -/
theorem decodeBatch_strictPrefix (hw : w.Lawful) {es : List Entry} {pre q : Bytes}
    (h : VecFrame w es pre) (hq : q <+: pre) (hne : q ≠ pre) : decodeBatch w q = none := by
  have hlt : q.length < pre.length :=
    lt_of_le_of_ne hq.length_le fun hl => hne (hq.eq_of_length hl)
  obtain ⟨t, rfl⟩ := hq
  cases hd : decodeBatch w q with
  | none => rfl
  | some txs =>
    -- a vector at the front of `q` would be the one at the front of `pre`
    obtain ⟨es', pre', rest, rfl, hf', -⟩ := (decodeBatch_eq_some hw).mp hd
    have heq : w.deserializeEntries (pre' ++ (rest ++ t)) = .ok es' :=
      deserializeEntries_append hw hf' _
    have heq' := deserializeEntries_append hw h []
    rw [List.append_nil, List.append_assoc, heq] at heq'
    cases heq'
    have h1 := h.length
    have h2 := hf'.length
    simp only [List.length_append] at h1 hlt
    omega

/-- The transactions `decode_batch` finds, none if it rejects the string. -/
def batchTxs (w : Wincode) (b : Bytes) : List VersionedTransaction := (decodeBatch w b).getD []

/-! ## Concatenated vectors -/

theorem deserializeEntries_consumed (hw : w.Lawful) {b : Bytes} {es : List Entry} {n : ℕ}
    (hv : validateVecPrefix b = true) (h : w.deserializeEntries b = .ok es)
    (hn : w.serializedSizeEntries es = .ok n) : 8 ≤ n ∧ n ≤ b.length := by
  obtain ⟨pre, rest, rfl, hf⟩ := exists_vecFrame hw hv h
  rw [hw.entries_size _ _ h, Except.ok.injEq] at hn
  have := hf.length
  rw [List.length_append]
  omega

/-- What the loop finds depends on the bytes from the offset on only, and the
    fuel is never used up. -/
theorem decodeConcatenatedFrom_congr (hw : w.Lawful) :
    ∀ fuel fuel' b b' off off', b.drop off = b'.drop off' → (b.drop off).length < fuel →
      (b'.drop off').length < fuel' →
      decodeConcatenatedFrom w b fuel off = decodeConcatenatedFrom w b' fuel' off' := by
  intro fuel
  induction fuel with
  | zero => intro fuel' b b' off off' _ h; omega
  | succ fuel ih =>
    intro fuel' b b' off off' hdrop hf hf'
    obtain ⟨fuel', rfl⟩ := Nat.exists_eq_succ_of_ne_zero (show fuel' ≠ 0 by omega)
    have hlen := congrArg List.length hdrop
    rw [List.length_drop, List.length_drop] at hlen
    have h8 : off + 8 ≤ b.length ↔ off' + 8 ≤ b'.length := by omega
    simp only [decodeConcatenatedFrom, ← hdrop, h8]
    split_ifs with h8 hv
    · split
      · rfl
      · split
        · rfl
        · rename_i es hes _ n hn
          obtain ⟨hn8, hnlen⟩ := deserializeEntries_consumed hw hv hes hn
          rw [if_neg (by omega), if_neg (by omega)]
          rw [List.length_drop] at hnlen hf hf'
          congr 1
          refine ih _ _ _ _ _ ?_ (by rw [List.length_drop]; omega) (by rw [List.length_drop]; omega)
          rw [← List.drop_drop, ← List.drop_drop, hdrop]
    · rfl
    · rfl

/-- A vector at the front is decoded, and the loop goes on behind it. -/
theorem decodeConcatenated_append (hw : w.Lawful) {es : List Entry} {pre : Bytes}
    (h : VecFrame w es pre) (rest : Bytes) :
    decodeConcatenated w (pre ++ rest) = extractTxs es ++ decodeConcatenated w rest := by
  have hlen := h.length
  have hes := deserializeEntries_append hw h rest
  rw [decodeConcatenated, decodeConcatenatedFrom, if_pos (by rw [List.length_append]; omega)]
  simp only [List.drop_zero, validateVecPrefix_append hw h, not_true_eq_false, if_false, hes,
    hw.entries_size _ _ hes]
  rw [if_neg (by omega), Nat.zero_add, ← hlen]
  congr 1
  refine decodeConcatenatedFrom_congr hw _ _ _ _ _ _ ?_ ?_ (by simp)
  · rw [List.drop_left, List.drop_zero]
  · rw [List.drop_left, List.length_append]
    omega

/-- Nothing is decoded from a run `decode_batch` rejects. -/
theorem decodeConcatenated_eq_nil {b : Bytes} (h : decodeBatch w b = none) :
    decodeConcatenated w b = [] := by
  rw [decodeConcatenated, decodeConcatenatedFrom]
  simp only [List.drop_zero]
  split_ifs with h8 hv
  · rw [decodeBatch, if_neg (by simp [hv])] at h
    cases hes : w.deserializeEntries b with
    | error err => rfl
    | ok es => simp [hes] at h
  · rfl
  · rfl

theorem decodeConcatenated_nil : decodeConcatenated w [] = [] := by
  simp [decodeConcatenated, decodeConcatenatedFrom]

theorem decodeConcatenated_frame (hw : w.Lawful) {es : List Entry} {pre : Bytes}
    (h : VecFrame w es pre) : decodeConcatenated w pre = extractTxs es := by
  simpa [decodeConcatenated_nil] using decodeConcatenated_append hw h []

/-- The beginning of a vector is decoded as a whole or not at all. -/
theorem decodeConcatenated_isPrefix (hw : w.Lawful) {es : List Entry} {pre q : Bytes}
    (h : VecFrame w es pre) (hq : q <+: pre) :
    decodeConcatenated w q = if q = pre then extractTxs es else [] := by
  split_ifs with heq
  · rw [heq, decodeConcatenated_frame hw h]
  · exact decodeConcatenated_eq_nil (decodeBatch_strictPrefix hw h hq heq)

end ShredStream
