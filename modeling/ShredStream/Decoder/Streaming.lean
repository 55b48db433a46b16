import ShredStream.Decoder.Batch

/-!
# What the incremental decoder has yielded

`arrived w es n` lists the entries of the vector `es` that lie wholly inside
the first `n` bytes of its encoding, and `Fed w es fed d` says that `d` is the
decoder after it was given `fed`, a beginning of that encoding.

* `push_fed`: one more chunk of the encoding yields the transactions of the
  entries that it completes.
* `push_total`: `push` never slices beyond its buffer, whatever the bytes are.
-/

namespace ShredStream

open SelfDelimiting

variable {w : Wincode}

theorem extractTxs_append (es es' : List Entry) :
    extractTxs (es ++ es') = extractTxs es ++ extractTxs es' := List.flatMap_append

theorem extractTxs_isPrefix {es es' : List Entry} (h : es <+: es') :
    extractTxs es <+: extractTxs es' := by
  obtain ⟨t, rfl⟩ := h
  rw [extractTxs_append]
  exact List.prefix_append _ _

/-! ## The entries that have arrived -/

/-- The entries of `es` that lie wholly in the first `n` bytes of the vector. -/
def arrived (w : Wincode) (es : List Entry) (n : ℕ) : List Entry :=
  if n < 8 then [] else w.entry.fit es (n - 8)

theorem arrived_isPrefix (es : List Entry) (n : ℕ) : arrived w es n <+: es := by
  unfold arrived
  split_ifs
  · exact List.nil_prefix
  · exact w.entry.fit_isPrefix es _

theorem arrived_mono (es : List Entry) {n n' : ℕ} (h : n ≤ n') :
    arrived w es n <+: arrived w es n' := by
  unfold arrived
  split_ifs
  · exact List.nil_prefix
  · exact List.nil_prefix
  · omega
  · exact w.entry.fit_mono es (by omega)

theorem arrived_of_lt (es : List Entry) {n : ℕ} (h : n < 8) : arrived w es n = [] := if_pos h

/-- What arrives later is read from where the entries at hand end. -/
theorem arrived_resume (es : List Entry) {n n' : ℕ} (h : n ≤ n') (h8 : 8 ≤ n') :
    arrived w es n' = arrived w es n ++ w.entry.fit (es.drop (arrived w es n).length)
      (n' - (8 + w.entry.total (arrived w es n))) := by
  rw [arrived, if_neg (by omega)]
  by_cases hn : n < 8
  · simp [arrived_of_lt es hn]
  · rw [arrived, if_neg hn, w.entry.fit_resume es (show n - 8 ≤ n' - 8 by omega), Nat.sub_add_eq]

theorem VecFrame.arrived_length {es : List Entry} {pre : Bytes} (h : VecFrame w es pre) {n : ℕ}
    (hn : pre.length ≤ n) : arrived w es n = es := by
  have := h.length
  rw [arrived, if_neg (by omega), w.entry.fit_eq_self (by omega)]

/-! ## The loop over the entries -/

namespace StreamingDecoder

/-- As long as nothing but entries and the beginning of one is at hand, the loop
    reads the entries. -/
theorem readEntries_of_scan (hw : w.Lawful) {n : ℕ} {d : StreamingDecoder}
    {txs : List VersionedTransaction} (hcur : d.cursor ≤ d.buffer.length)
    (h : (w.entry.scan n (d.buffer.drop d.cursor)).2 = true) :
    readEntries w n d txs = some
      ({ d with
         cursor := d.cursor + w.entry.total (w.entry.scan n (d.buffer.drop d.cursor)).1
         entriesYielded :=
          d.entriesYielded + (w.entry.scan n (d.buffer.drop d.cursor)).1.length },
        .ok (txs ++ extractTxs (w.entry.scan n (d.buffer.drop d.cursor)).1)) := by
  induction n generalizing d txs with
  | zero => simp [readEntries, Decoder.scan, extractTxs]
  | succ n ih =>
    rw [readEntries, if_neg (by omega), Decoder.scan]
    rw [Decoder.scan] at h
    split_ifs with hemp
    · simp [hemp, extractTxs]
    rw [if_neg hemp] at h
    cases hr : w.entry.read (d.buffer.drop d.cursor) with
    | short =>
      obtain ⟨err, herr, htr⟩ := Wincode.entry_read_eq_short.mp hr
      simp [herr, htr, hemp, extractTxs]
    | invalid => simp [hr] at h
    | item e =>
      obtain ⟨hser, hsize⟩ := hw.size_of_read hr
      -- an entry that was read lies inside the buffer
      obtain ⟨pre, rest, hb, hf⟩ := hw.entry _ _ hr
      have hlen := congrArg List.length hb
      rw [List.length_drop, List.length_append, hf.length] at hlen
      simp only [hr, List.drop_drop] at h
      simp only [hemp, Bool.false_eq_true, if_false, Wincode.entry_read_eq_item.mp hr, hser,
        List.drop_drop]
      rw [ih (by simp only; omega) h]
      simp only [Decoder.total_cons, List.length_cons, extractTxs, List.flatMap_cons,
        List.append_assoc]
      congr 3 <;> omega

/-- What is no entry is reported, and the entries read before it are lost. -/
theorem readEntries_of_scan_false (hw : w.Lawful) {n : ℕ} {d : StreamingDecoder}
    {txs : List VersionedTransaction} (hcur : d.cursor ≤ d.buffer.length)
    (h : (w.entry.scan n (d.buffer.drop d.cursor)).2 = false) :
    ∃ d' err, readEntries w n d txs = some (d', .error err) := by
  induction n generalizing d txs with
  | zero => simp [Decoder.scan] at h
  | succ n ih =>
    rw [readEntries, if_neg (by omega)]
    rw [Decoder.scan] at h
    split_ifs at h with hemp
    cases hr : w.entry.read (d.buffer.drop d.cursor) with
    | short => simp [hr] at h
    | invalid =>
      obtain ⟨err, herr, htr⟩ := Wincode.entry_read_eq_invalid.mp hr
      exact ⟨d, ⟨err.toString⟩, by simp [herr, htr, hemp]⟩
    | item e =>
      obtain ⟨hser, hsize⟩ := hw.size_of_read hr
      obtain ⟨pre, rest, hb, hf⟩ := hw.entry _ _ hr
      have hlen := congrArg List.length hb
      rw [List.length_drop, List.length_append, hf.length] at hlen
      simp only [hr, List.drop_drop] at h
      simp only [hemp, Bool.false_eq_true, if_false, Wincode.entry_read_eq_item.mp hr, hser]
      exact ih (by simp only; omega) h

/-- `readEntries` on a beginning of a sequence of entries reads those that are
    wholly there. -/
theorem readEntries_frames (hw : w.Lawful) {es : List Entry} {bs tail : Bytes}
    (h : w.entry.Frames es bs) (d : StreamingDecoder) (txs : List VersionedTransaction)
    (hcur : d.cursor ≤ d.buffer.length) (hpre : d.buffer.drop d.cursor <+: bs ++ tail) :
    readEntries w es.length d txs = some
      ({ d with
         cursor := d.cursor + w.entry.total (w.entry.fit es (d.buffer.length - d.cursor))
         entriesYielded :=
          d.entriesYielded + (w.entry.fit es (d.buffer.length - d.cursor)).length },
        .ok (txs ++ extractTxs (w.entry.fit es (d.buffer.length - d.cursor)))) := by
  have hscan : w.entry.scan es.length (d.buffer.drop d.cursor) =
      (w.entry.fit es (d.buffer.length - d.cursor), true) := by
    rw [h.scan hw.productive hpre le_rfl, List.length_drop]
    split_ifs with hall
    · rw [w.entry.fit_eq_self hall]
      simp [Decoder.scan]
    · rfl
  rw [readEntries_of_scan hw hcur (by rw [hscan]), hscan]

/-! ## A decoder fed with the beginning of a vector -/

/-- `d` is a fresh decoder that was given the bytes `fed`, which begin the
    encoding of `es`. -/
structure Fed (w : Wincode) (es : List Entry) (fed : Bytes) (d : StreamingDecoder) : Prop where
  buffer : d.buffer = fed
  expectedCount : d.expectedCount = if fed.length < 8 then none else some es.length
  cursor : d.cursor = if fed.length < 8 then 0 else 8 + w.entry.total (arrived w es fed.length)
  entriesYielded : d.entriesYielded = (arrived w es fed.length).length

theorem fed_reset (es : List Entry) (d : StreamingDecoder) : Fed w es [] d.reset :=
  ⟨rfl, rfl, rfl, rfl⟩

/-- The loop over the entries, entered with the entries of the first `n` bytes
    behind it. -/
theorem readEntries_arrived (hw : w.Lawful) {es : List Entry} {pre tail : Bytes}
    {d : StreamingDecoder} (hv : VecFrame w es pre) (hpre : d.buffer <+: pre ++ tail) {n : ℕ}
    (hn : n ≤ d.buffer.length) (h8 : 8 ≤ d.buffer.length)
    (hcur : d.cursor = 8 + w.entry.total (arrived w es n))
    (hy : d.entriesYielded = (arrived w es n).length) :
    ∃ new, readEntries w (es.length - d.entriesYielded) d [] = some
        ({ d with
           cursor := 8 + w.entry.total (arrived w es d.buffer.length)
           entriesYielded := (arrived w es d.buffer.length).length }, .ok new) ∧
      extractTxs (arrived w es d.buffer.length) = extractTxs (arrived w es n) ++ new := by
  have hsplit : es = arrived w es n ++ es.drop (arrived w es n).length :=
    (List.prefix_iff_eq_append.mp (arrived_isPrefix es n)).symm
  have hframes := hv.frames
  rw [hsplit] at hframes
  obtain ⟨bs₁, bs₂, hbs, h₁, h₂⟩ := hframes.split
  -- the entries not yet read start at the cursor
  have hdrop : d.buffer.drop d.cursor <+: bs₂ ++ tail := by
    have := (hpre.drop 8).drop (w.entry.total (arrived w es n))
    rwa [List.drop_drop, hv.drop_append, hbs, List.append_assoc, ← h₁.length, List.drop_left,
      h₁.length, ← hcur] at this
  have hcurle : d.cursor ≤ d.buffer.length := by
    rw [hcur]
    by_cases hn8 : n < 8
    · simpa [arrived_of_lt es hn8] using h8
    · rw [arrived, if_neg hn8]
      have := w.entry.total_fit_le es (n - 8)
      omega
  have hresume := arrived_resume (w := w) es hn h8
  have hrun := readEntries_frames hw h₂ d [] hcurle hdrop
  rw [List.length_drop, ← hy, hcur] at hrun
  refine ⟨extractTxs (w.entry.fit (es.drop (arrived w es n).length)
    (d.buffer.length - (8 + w.entry.total (arrived w es n)))), ?_, ?_⟩
  · rw [hrun, hresume, hy]
    simp [Nat.add_assoc]
  · rw [hresume, extractTxs_append]

/-- The next chunk of a vector: the entries it completes are yielded. -/
theorem push_fed (hw : w.Lawful) {es : List Entry} {pre tail fed p : Bytes}
    {d : StreamingDecoder} (hv : VecFrame w es pre) (hd : Fed w es fed d)
    (hpre : fed ++ p <+: pre ++ tail) :
    ∃ d' new, push w d p = some (d', .ok new) ∧ Fed w es (fed ++ p) d' ∧
      extractTxs (arrived w es (fed ++ p).length) =
        extractTxs (arrived w es fed.length) ++ new := by
  have hle : fed.length ≤ (fed ++ p).length := by simp
  have hbuf := hd.buffer
  have hcur := hd.cursor
  have hexp := hd.expectedCount
  have hy := hd.entriesYielded
  by_cases hfp : (fed ++ p).length < 8
  · -- the count is not complete yet
    have hf : fed.length < 8 := by omega
    rw [if_pos hf] at hcur hexp
    rw [arrived_of_lt es hf] at hy ⊢
    refine ⟨{ d with buffer := fed ++ p }, [], ?_, ⟨rfl, ?_, ?_, ?_⟩, ?_⟩
    · simp only [push, tryDeserialize, hbuf, hexp, hcur]
      rw [if_neg (by omega)]
    · rw [if_pos hfp, ← hexp]
    · rw [if_pos hfp, ← hcur]
    · rw [arrived_of_lt es hfp, ← hy]
    · rw [arrived_of_lt es hfp, List.append_nil]
  by_cases hf : fed.length < 8
  · -- this chunk completes the count
    rw [if_pos hf] at hcur hexp
    have hcount : leNat ((fed ++ p).take 8) = es.length := by
      obtain ⟨t, ht⟩ := hpre
      have htake : (fed ++ p ++ t).take 8 = (fed ++ p).take 8 :=
        List.take_append_of_le_length (by omega)
      rw [← hv.count, ← hv.take_append tail, ← ht, htake]
    obtain ⟨new, hrun, hnew⟩ := readEntries_arrived hw hv
      (d := ⟨fed ++ p, 8, some es.length, d.entriesYielded⟩) hpre hle (by simp only; omega)
      (by rw [arrived_of_lt es hf]; rfl) hy
    refine ⟨⟨fed ++ p, _, some es.length, _⟩, new, ?_,
      ⟨rfl, (if_neg hfp).symm, (if_neg hfp).symm, rfl⟩, hnew⟩
    have hmax := hv.count_le
    simp only [push, tryDeserialize, hbuf, hexp, hcur, List.drop_zero, hcount, Nat.zero_add,
      Option.isNone_none, true_and]
    rw [if_pos (by omega), if_neg (by omega)]
    exact hrun
  · -- the count was read before
    rw [if_neg hf] at hcur hexp
    obtain ⟨new, hrun, hnew⟩ := readEntries_arrived hw hv
      (d := ⟨fed ++ p, d.cursor, some es.length, d.entriesYielded⟩) hpre hle
      (by simp only; omega) hcur hy
    refine ⟨⟨fed ++ p, _, some es.length, _⟩, new, ?_,
      ⟨rfl, (if_neg hfp).symm, (if_neg hfp).symm, rfl⟩, hnew⟩
    simp only [push, tryDeserialize, hbuf, hexp, Option.isNone_some, Bool.false_eq_true,
      false_and, if_false]
    exact hrun

/-! ## Arbitrary bytes -/

theorem readEntries_total (hw : w.Lawful) :
    ∀ n (d : StreamingDecoder) txs, d.cursor ≤ d.buffer.length →
      ∃ d' r, readEntries w n d txs = some (d', r) ∧ d'.cursor ≤ d'.buffer.length := by
  intro n
  induction n with
  | zero => exact fun d txs h => ⟨d, _, rfl, h⟩
  | succ n ih =>
    intro d txs h
    rw [readEntries, if_neg (by omega)]
    simp only
    split_ifs with hemp
    · exact ⟨d, _, rfl, h⟩
    · split
      · rename_i e he
        -- an entry that was read lies inside the buffer
        obtain ⟨pre, rest, hb, hf⟩ := hw.entry _ _ (Wincode.entry_read_eq_item.mpr he)
        have hlen := congrArg List.length hb
        rw [List.length_drop, List.length_append, hf.length] at hlen
        split
        · exact ⟨d, _, rfl, h⟩
        · rename_i consumed hc
          rw [Wincode.entry_size_eq hc] at hlen
          exact ih _ _ (by simp only; omega)
      · split_ifs
        · exact ⟨d, _, rfl, h⟩
        · exact ⟨d, _, rfl, h⟩

/-- `push` does not slice beyond its buffer, and leaves a decoder that will not. -/
theorem push_total (hw : w.Lawful) {d : StreamingDecoder} (h : d.cursor ≤ d.buffer.length)
    (p : Bytes) :
    ∃ d' r, push w d p = some (d', r) ∧ d'.cursor ≤ d'.buffer.length := by
  have hlen : d.cursor ≤ (d.buffer ++ p).length := by rw [List.length_append]; omega
  rw [push, tryDeserialize]
  split_ifs with hexp
  · simp only
    split_ifs
    · exact ⟨_, _, rfl, hlen⟩
    · exact readEntries_total hw _ _ _ hexp.2
  · split
    · exact ⟨_, _, rfl, hlen⟩
    · exact readEntries_total hw _ _ _ hlen

end StreamingDecoder

end ShredStream
