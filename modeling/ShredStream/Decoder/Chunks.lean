import ShredStream.Decoder.LegacyWire
import ShredStream.Decoder.Streaming

/-!
# The incremental decoder on chunks

A string is cut into chunks and these are pushed one after the other. The state
of the decoder is a function of the bytes pushed so far, whatever they are
(`Scanned`, `push_ok`, `push_error`), so the cuts do not matter to it.

* `pushAll_scanned`: what a sequence of pushes returns is what the bytes at hand
  determine.
* `pushAll_agrees_decodeBatch`: pushing all chunks of a string and `decode_batch`
  of the string find the same transactions.
-/

namespace ShredStream

open SelfDelimiting

variable {w : Wincode}

namespace StreamingDecoder

/-- Push chunks one by one, as long as each push returns `Ok`: the decoder and
    the vectors returned. `none` if some push does not return `Ok`. -/
def pushAll (w : Wincode) :
    StreamingDecoder → List Bytes → Option (StreamingDecoder × List (List VersionedTransaction))
  | d, [] => some (d, [])
  | d, chunk :: chunks =>
    match d.push w chunk with
    | some (d, .ok txs) => (pushAll w d chunks).map fun r => (r.1, txs :: r.2)
    | _ => none

/-! ## The state as a function of the bytes -/

/-- The entries read from the bytes pushed so far, and whether they were all
    taken without an error. -/
def scanned (w : Wincode) (fed : Bytes) : List Entry × Bool :=
  if fed.length < 8 then ([], true)
  else if leNat (fed.take 8) > maxEntryCount then ([], false)
  else w.entry.scan (leNat (fed.take 8)) (fed.drop 8)

theorem scanned_of_lt {fed : Bytes} (h : fed.length < 8) : scanned w fed = ([], true) := if_pos h

/-- `d` is a fresh decoder to which `fed` was pushed, and every push returned `Ok`. -/
structure Scanned (w : Wincode) (fed : Bytes) (d : StreamingDecoder) : Prop where
  buffer : d.buffer = fed
  expectedCount : d.expectedCount = if fed.length < 8 then none else some (leNat (fed.take 8))
  cursor : d.cursor = if fed.length < 8 then 0 else 8 + w.entry.total (scanned w fed).1
  entriesYielded : d.entriesYielded = (scanned w fed).1.length
  ok : (scanned w fed).2 = true

theorem scanned_fresh {d : StreamingDecoder}
    (hd : d = {} ∨ ∃ d₀ : StreamingDecoder, d = d₀.reset) : Scanned w [] d := by
  rcases hd with rfl | ⟨d₀, rfl⟩
  · exact ⟨rfl, rfl, rfl, rfl, rfl⟩
  · exact ⟨rfl, rfl, rfl, rfl, rfl⟩

namespace Scanned

variable {fed p : Bytes} {d : StreamingDecoder}

theorem count_le (h : Scanned w fed d) (h8 : 8 ≤ fed.length) :
    leNat (fed.take 8) ≤ maxEntryCount := by
  by_contra hgt
  have hok := h.ok
  rw [scanned, if_neg (by omega), if_pos (by omega)] at hok
  cases hok

theorem scanned_eq (h : Scanned w fed d) (h8 : 8 ≤ fed.length) :
    scanned w fed = w.entry.scan (leNat (fed.take 8)) (fed.drop 8) := by
  have := h.count_le h8
  rw [scanned, if_neg (by omega), if_neg (by omega)]

/-- The entries are read from where the ones read before end. -/
theorem scanned_append (hw : w.Lawful) (h : Scanned w fed d) (h8 : 8 ≤ fed.length) (p : Bytes) :
    scanned w (fed ++ p) = ((scanned w fed).1 ++
        (w.entry.scan (leNat (fed.take 8) - d.entriesYielded)
          ((fed ++ p).drop d.cursor)).1,
      (w.entry.scan (leNat (fed.take 8) - d.entriesYielded) ((fed ++ p).drop d.cursor)).2) := by
  have hcount := h.count_le h8
  have htake : (fed ++ p).take 8 = fed.take 8 := List.take_append_of_le_length h8
  have hok := h.ok
  rw [h.cursor, if_neg (by omega), h.entriesYielded, scanned, if_neg (by simp; omega), htake,
    if_neg (by omega)]
  rw [h.scanned_eq h8] at hok ⊢
  rw [hw.entry.scan_resume ((List.prefix_append fed p).drop 8) hok, List.drop_drop]

/-- The push that completes the count, or comes before it. -/
theorem push_of_lt (h : Scanned w fed d) (hf : fed.length < 8) (p : Bytes) :
    push w d p =
      if (fed ++ p).length < 8 then some ({ d with buffer := fed ++ p }, .ok [])
      else if leNat ((fed ++ p).take 8) > maxEntryCount then
        some ({ d with buffer := fed ++ p }, .error ⟨"invalid entry count"⟩)
      else readEntries w (leNat ((fed ++ p).take 8))
        ⟨fed ++ p, 8, some (leNat ((fed ++ p).take 8)), d.entriesYielded⟩ [] := by
  have hexp := h.expectedCount
  have hcur := h.cursor
  have hy := h.entriesYielded
  rw [if_pos hf] at hexp hcur
  rw [scanned_of_lt hf] at hy
  simp only [push, tryDeserialize, h.buffer, hexp, hcur, hy, List.drop_zero, Nat.zero_add,
    Option.isNone_none, true_and, List.length_nil, Nat.sub_zero]
  by_cases h8 : (fed ++ p).length < 8
  · rw [if_neg (by omega), if_pos h8]
  · rw [if_pos (by omega), if_neg h8]

/-- A push after the count was read. -/
theorem push_of_ge (h : Scanned w fed d) (h8 : 8 ≤ fed.length) (p : Bytes) :
    push w d p = readEntries w (leNat (fed.take 8) - d.entriesYielded)
      { d with buffer := fed ++ p } [] := by
  have hexp := h.expectedCount
  rw [if_neg (by omega)] at hexp
  simp only [push, tryDeserialize, h.buffer, hexp, Option.isNone_some, Bool.false_eq_true,
    false_and, if_false]

theorem cursor_le (hw : w.Lawful) (h : Scanned w fed d) : d.cursor ≤ fed.length := by
  rw [h.cursor]
  split_ifs with hf
  · exact Nat.zero_le _
  · have h8 : 8 ≤ fed.length := by omega
    obtain ⟨-, bs, rest, hb, hfr⟩ := hw.entry.scan_frames (leNat (fed.take 8)) (fed.drop 8)
    have hlen := congrArg List.length hb
    rw [← h.scanned_eq h8] at hfr
    rw [List.length_drop, List.length_append, hfr.length] at hlen
    omega

/-- One more chunk, and nothing that is no entry: the entries that it completes
    are returned. -/
theorem push_ok (hw : w.Lawful) (h : Scanned w fed d) (hok : (scanned w (fed ++ p)).2 = true) :
    ∃ d' new, push w d p = some (d', .ok new) ∧ Scanned w (fed ++ p) d' ∧
      extractTxs (scanned w (fed ++ p)).1 = extractTxs (scanned w fed).1 ++ new := by
  by_cases hf : fed.length < 8
  · have hy := h.entriesYielded
    rw [h.push_of_lt hf, scanned_of_lt hf]
    rw [scanned_of_lt hf] at hy
    by_cases hfp : (fed ++ p).length < 8
    · refine ⟨{ d with buffer := fed ++ p }, [], if_pos hfp, ⟨rfl, ?_, ?_, ?_, hok⟩, ?_⟩
      · rw [if_pos hfp]
        exact h.expectedCount.trans (if_pos hf)
      · rw [if_pos hfp]
        exact h.cursor.trans (if_pos hf)
      · rw [scanned_of_lt hfp]
        exact hy
      · rw [scanned_of_lt hfp, List.append_nil]
    · rw [if_neg hfp]
      by_cases hgt : leNat ((fed ++ p).take 8) > maxEntryCount
      · rw [scanned, if_neg hfp, if_pos hgt] at hok
        cases hok
      · have hscan : scanned w (fed ++ p) =
            w.entry.scan (leNat ((fed ++ p).take 8)) ((fed ++ p).drop 8) := by
          rw [scanned, if_neg hfp, if_neg hgt]
        rw [hscan] at hok ⊢
        rw [if_neg hgt]
        refine ⟨_, _, readEntries_of_scan hw (show 8 ≤ (fed ++ p).length by omega) hok,
          ⟨rfl, ?_, ?_, ?_, ?_⟩, rfl⟩
        · rw [if_neg hfp]
        · rw [if_neg hfp, hscan]
        · rw [hscan, hy]
          exact Nat.zero_add _
        · rw [hscan, hok]
  · have h8 : 8 ≤ fed.length := by omega
    have hscan := h.scanned_append hw h8 p
    have htake : (fed ++ p).take 8 = fed.take 8 := List.take_append_of_le_length h8
    have hfp : ¬(fed ++ p).length < 8 := by rw [List.length_append]; omega
    have hcur := h.cursor
    rw [if_neg hf] at hcur
    have hle : d.cursor ≤ (fed ++ p).length := by
      have := h.cursor_le hw
      rw [List.length_append]
      omega
    have hok' := hok
    rw [hscan] at hok'
    rw [h.push_of_ge h8]
    refine ⟨_, _, readEntries_of_scan hw hle hok', ⟨rfl, ?_, ?_, ?_, hok⟩, ?_⟩
    · rw [if_neg hfp, htake]
      exact h.expectedCount.trans (if_neg hf)
    · rw [if_neg hfp, hscan, Decoder.total_append, ← Nat.add_assoc, ← hcur]
    · rw [hscan, List.length_append, h.entriesYielded]
    · rw [hscan, extractTxs_append, List.nil_append]

/-- One more chunk, with which something shows that is no entry. -/
theorem push_error (hw : w.Lawful) (h : Scanned w fed d)
    (hok : (scanned w (fed ++ p)).2 = false) : ∃ d' err, push w d p = some (d', .error err) := by
  by_cases hf : fed.length < 8
  · rw [h.push_of_lt hf]
    by_cases hfp : (fed ++ p).length < 8
    · rw [scanned_of_lt hfp] at hok
      cases hok
    · rw [if_neg hfp]
      split_ifs with hgt
      · exact ⟨_, _, rfl⟩
      · rw [scanned, if_neg hfp, if_neg hgt] at hok
        exact readEntries_of_scan_false hw (show 8 ≤ (fed ++ p).length by omega) hok
  · have h8 : 8 ≤ fed.length := by omega
    rw [h.scanned_append hw h8 p] at hok
    rw [h.push_of_ge h8]
    refine readEntries_of_scan_false hw ?_ hok
    have := h.cursor_le hw
    simp only [List.length_append]
    omega

/-- A push that returned `Ok` returned what its chunk completes. -/
theorem of_push_ok (hw : w.Lawful) (h : Scanned w fed d) {d' : StreamingDecoder}
    {new : List VersionedTransaction} (hpush : push w d p = some (d', .ok new)) :
    Scanned w (fed ++ p) d' ∧
      extractTxs (scanned w (fed ++ p)).1 = extractTxs (scanned w fed).1 ++ new := by
  cases hok : (scanned w (fed ++ p)).2 with
  | true =>
    obtain ⟨d₁, new₁, hpush₁, h₁, hnew⟩ := h.push_ok hw hok
    rw [hpush] at hpush₁
    cases hpush₁
    exact ⟨h₁, hnew⟩
  | false =>
    obtain ⟨d₁, err, hpush₁⟩ := h.push_error hw hok
    rw [hpush] at hpush₁
    cases hpush₁

end Scanned

/-- The pushes of a sequence of chunks: they all return `Ok` exactly when no
    prefix of the chunks shows an error, and what they returned then is what the
    bytes at hand determine. -/
theorem pushAll_scanned (hw : w.Lawful) :
    ∀ (chunks : List Bytes) {fed : Bytes} {d : StreamingDecoder}, Scanned w fed d →
      (∀ k ≤ chunks.length, (scanned w (fed ++ (chunks.take k).flatten)).2 = true) →
      ∃ d' outs, pushAll w d chunks = some (d', outs) ∧
        Scanned w (fed ++ chunks.flatten) d' ∧
        ∀ k ≤ chunks.length, extractTxs (scanned w (fed ++ (chunks.take k).flatten)).1 =
          extractTxs (scanned w fed).1 ++ (outs.take k).flatten := by
  intro chunks
  induction chunks with
  | nil =>
    intro fed d h _
    refine ⟨d, [], rfl, by simpa using h, fun k _ => by simp⟩
  | cons chunk chunks ih =>
    intro fed d h hok
    obtain ⟨d₁, new, hpush, h₁, hnew⟩ := h.push_ok hw (by simpa using hok 1 (by simp))
    obtain ⟨d', outs, hall, h', hout⟩ := ih h₁ (fun k hk => by
      have := hok (k + 1) (by simpa using hk)
      rwa [List.take_succ_cons, List.flatten_cons, ← List.append_assoc] at this)
    refine ⟨d', new :: outs, ?_, by simpa using h', fun k hk => ?_⟩
    · simp only [pushAll, hpush, hall, Option.map_some]
    · cases k with
      | zero => simp
      | succ k =>
        have := hout k (by simpa using hk)
        rw [hnew, List.append_assoc, List.append_assoc] at this
        simpa using this

/-- All chunks pushed to a fresh decoder. -/
theorem pushAll_fresh (hw : w.Lawful) (chunks : List Bytes) {d : StreamingDecoder}
    (h : Scanned w [] d) (hok : ∀ k ≤ chunks.length, (scanned w (chunks.take k).flatten).2 = true) :
    ∃ d' outs, pushAll w d chunks = some (d', outs) ∧ Scanned w chunks.flatten d' ∧
      ∀ k ≤ chunks.length,
        (outs.take k).flatten = extractTxs (scanned w (chunks.take k).flatten).1 := by
  obtain ⟨d', outs, hpush, hend, hout⟩ := pushAll_scanned hw chunks h hok
  exact ⟨d', outs, hpush, hend, fun k hk => (hout k hk).symm⟩

theorem pushAll_length {d d' : StreamingDecoder} {chunks : List Bytes}
    {outs : List (List VersionedTransaction)} (h : pushAll w d chunks = some (d', outs)) :
    outs.length = chunks.length := by
  induction chunks generalizing d d' outs with
  | nil =>
    cases h
    rfl
  | cons chunk chunks ih =>
    rw [pushAll] at h
    split at h
    · obtain ⟨r, hr, heq⟩ := Option.map_eq_some_iff.mp h
      cases heq
      rw [List.length_cons, List.length_cons, ih hr]
    · cases h

/-- If all pushes return `Ok`, no prefix shows an error. -/
theorem scanned_ok_of_pushAll (hw : w.Lawful) :
    ∀ (chunks : List Bytes) {fed : Bytes} {d d' : StreamingDecoder}
      {outs : List (List VersionedTransaction)}, Scanned w fed d →
      pushAll w d chunks = some (d', outs) →
      ∀ k ≤ chunks.length, (scanned w (fed ++ (chunks.take k).flatten)).2 = true := by
  intro chunks
  induction chunks with
  | nil =>
    intro fed d d' outs h _ k _
    simpa using h.ok
  | cons chunk chunks ih =>
    intro fed d d' outs h hall k hk
    rw [pushAll] at hall
    split at hall
    · rename_i d₁ txs hpush
      obtain ⟨h₁, -⟩ := h.of_push_ok hw hpush
      cases k with
      | zero => simpa using h.ok
      | succ k =>
        obtain ⟨r, hr, -⟩ := Option.map_eq_some_iff.mp hall
        have := ih h₁ hr k (by simpa using hk)
        simpa using this
    · cases hall

/-! ## Entries followed by anything -/

/-- What is read from a beginning of a count, entries and anything else. -/
theorem scanned_frames (hw : w.Lawful) {es : List Entry} {count bs tail fed : Bytes}
    (hcount : count.length = 8) (hmax : leNat count ≤ maxEntryCount)
    (hlen : es.length ≤ leNat count) (hes : w.entry.Frames es bs)
    (hfed : fed <+: count ++ (bs ++ tail)) :
    scanned w fed = (arrived w es fed.length ++
        (w.entry.scan (leNat count - es.length) (fed.drop (8 + w.entry.total es))).1,
      (w.entry.scan (leNat count - es.length) (fed.drop (8 + w.entry.total es))).2) := by
  by_cases h8 : fed.length < 8
  · rw [scanned_of_lt h8, arrived_of_lt es h8, List.drop_eq_nil_of_le (by omega),
      Decoder.scan_nil]
    rfl
  have htake : fed.take 8 = count := by
    obtain ⟨t, ht⟩ := hfed
    have h := congrArg (List.take 8) ht
    rwa [List.take_append_of_le_length (by omega), List.take_left' hcount] at h
  have hdrop : fed.drop 8 <+: bs ++ tail := by
    have h := hfed.drop 8
    rwa [List.drop_left' hcount] at h
  rw [scanned, if_neg h8, htake, if_neg (by omega), hes.scan hw.productive hdrop hlen,
    List.length_drop, List.drop_drop, arrived, if_neg h8]
  split_ifs with hall
  · rw [w.entry.fit_eq_self hall]
  · rw [List.drop_eq_nil_of_le (by omega), Decoder.scan_nil, List.append_nil]

/-! ## The one-shot decoder -/

theorem scanned_vec (hw : w.Lawful) {es : List Entry} {pre rest fed : Bytes}
    (hv : VecFrame w es pre) (hfed : fed <+: pre ++ rest) :
    scanned w fed = (arrived w es fed.length, true) := by
  have hcount : (pre.take 8).length = 8 := by
    rw [List.length_take]
    exact min_eq_left hv.eight_le
  rw [← List.take_append_drop 8 pre, List.append_assoc] at hfed
  rw [scanned_frames hw hcount (by rw [hv.count]; exact hv.count_le) hv.count.ge hv.frames hfed,
    hv.count, Nat.sub_self]
  simp [Decoder.scan]

/-- When the announced number of entries was reached, the bytes begin with a
    vector of the entries read. -/
theorem Scanned.decodeBatch (hw : w.Lawful) {fed : Bytes} {d : StreamingDecoder} {n : ℕ}
    (h : Scanned w fed d) (hn : d.expectedCount = some n) (hy : d.entriesYielded = n) :
    decodeBatch w fed = some (extractTxs (scanned w fed).1) := by
  have hexp := h.expectedCount
  rw [hn] at hexp
  split_ifs at hexp with h8
  rw [Option.some.injEq] at hexp
  have hlen := h.entriesYielded
  have hcount := h.count_le (show 8 ≤ fed.length by omega)
  rw [h.scanned_eq (by omega)] at hlen ⊢
  obtain ⟨-, bs, rest, hb, hfr⟩ := hw.entry.scan_frames (leNat (fed.take 8)) (fed.drop 8)
  have htake : (fed.take 8).length = 8 := by rw [List.length_take]; omega
  rw [decodeBatch_eq_some hw]
  refine ⟨_, fed.take 8 ++ bs, rest, ?_, ⟨?_, ?_, ?_, ?_⟩, rfl⟩
  · rw [List.append_assoc, ← hb, List.take_append_drop]
  · rw [List.length_append, htake]
    omega
  · rw [List.take_left' htake, ← hlen, hy, hexp]
  · rwa [List.drop_left' htake]
  · rw [← hlen, hy, hexp]
    exact hcount

/-- The incremental decoder agrees with the one-shot decoder, however the bytes
    are cut into chunks. -/
theorem pushAll_agrees_decodeBatch (hw : w.Lawful) {d : StreamingDecoder}
    (hd : d = {} ∨ ∃ d₀ : StreamingDecoder, d = d₀.reset) (chunks : List Bytes) :
    (∀ txs, decodeBatch w chunks.flatten = some txs →
      ∃ es d' outs, w.deserializeEntries chunks.flatten = .ok es ∧
        pushAll w d chunks = some (d', outs) ∧ outs.flatten = txs ∧
        ∀ k ≤ chunks.length, (outs.take k).flatten =
          extractTxs (arrived w es (chunks.take k).flatten.length)) ∧
    (∀ d' outs n, pushAll w d chunks = some (d', outs) → d'.expectedCount = some n →
      d'.entriesYielded = n → decodeBatch w chunks.flatten = some outs.flatten) := by
  have hfresh := scanned_fresh (w := w) hd
  constructor
  · intro txs htxs
    obtain ⟨es, pre, rest, hb, hv, rfl⟩ := (decodeBatch_eq_some hw).mp htxs
    have hscan (k : ℕ) : scanned w (chunks.take k).flatten =
        (arrived w es (chunks.take k).flatten.length, true) := by
      apply scanned_vec hw hv
      rw [← hb]
      exact (List.take_prefix k chunks).flatten
    obtain ⟨d', outs, hpush, -, hout⟩ := pushAll_fresh hw chunks hfresh fun k _ => by rw [hscan]
    refine ⟨es, d', outs, ?_, hpush, ?_, fun k hk => ?_⟩
    · rw [hb, deserializeEntries_append hw hv]
    · have hlast := hout chunks.length le_rfl
      rw [hscan, List.take_length] at hlast
      rw [← List.take_of_length_le (pushAll_length hpush).le, hlast]
      rw [hb, hv.arrived_length (by simp)]
    · rw [hout k hk, hscan]
  · intro d' outs n hpush hn hy
    obtain ⟨d'', outs', hpush', hend, hout⟩ :=
      pushAll_fresh hw chunks hfresh (scanned_ok_of_pushAll hw chunks hfresh hpush)
    obtain ⟨rfl, rfl⟩ : d' = d'' ∧ outs = outs' := by
      rw [hpush] at hpush'
      exact Prod.mk.inj (Option.some.inj hpush')
    have hlast := hout chunks.length le_rfl
    rw [List.take_of_length_le (pushAll_length hpush).le, List.take_length] at hlast
    rw [hend.decodeBatch hw hn hy, hlast]

theorem pushAll_agrees_decodeBatch_two_chunks :
    decodeBatch LegacyWire.wincode
      (LegacyWire.encodeBatch [[LegacyWire.signedTx 1 []], []]) =
        some [LegacyWire.signedTx 1 []] ∧
    ∃ es d' outs,
      LegacyWire.wincode.deserializeEntries
        (LegacyWire.encodeBatch [[LegacyWire.signedTx 1 []], []]) = .ok es ∧
      pushAll LegacyWire.wincode {}
        [(LegacyWire.encodeBatch [[LegacyWire.signedTx 1 []], []]).take 5, [],
          (LegacyWire.encodeBatch [[LegacyWire.signedTx 1 []], []]).drop 5] = some (d', outs) ∧
      outs.flatten = [LegacyWire.signedTx 1 []] := by
  have hdec : decodeBatch LegacyWire.wincode
      (LegacyWire.encodeBatch [[LegacyWire.signedTx 1 []], []]) =
        some [LegacyWire.signedTx 1 []] := by decide +kernel
  have hflat : [(LegacyWire.encodeBatch [[LegacyWire.signedTx 1 []], []]).take 5, [],
      (LegacyWire.encodeBatch [[LegacyWire.signedTx 1 []], []]).drop 5].flatten =
        LegacyWire.encodeBatch [[LegacyWire.signedTx 1 []], []] := by simp
  obtain ⟨es, d', outs, hes, hpush, hout, -⟩ :=
    (pushAll_agrees_decodeBatch LegacyWire.wincode_lawful (.inl rfl)
      [(LegacyWire.encodeBatch [[LegacyWire.signedTx 1 []], []]).take 5, [],
        (LegacyWire.encodeBatch [[LegacyWire.signedTx 1 []], []]).drop 5]).1 _
      (by rw [hflat]; exact hdec)
  rw [hflat] at hes
  exact ⟨hdec, es, d', outs, hes, hpush, hout⟩

end StreamingDecoder

end ShredStream
