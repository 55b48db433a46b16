import ShredStream.Decoder.Chunks

/-!
# A corrupt entry behind valid ones

A count, the encodings of fewer entries than it announces, and then something
that is no entry, cut into chunks. The push with which the corruption shows
returns `Err`; the entries that end in the same chunk were read by that push, and
their transactions are lost with it.

* `returnedBeforeErr_iff`: all entries before the corruption are delivered
  exactly when those that end in the chunk in which it shows are empty.
* `lost_with_err`: a single chunk that holds a transaction and a corrupt entry.
-/

namespace ShredStream

open SelfDelimiting

variable {w : Wincode}

namespace StreamingDecoder

/-- The pushes made up to and including the first one that returns `Err` return `txs`. -/
def ReturnedBeforeErr (w : Wincode) (d : StreamingDecoder) (chunks : List Bytes)
    (txs : List VersionedTransaction) : Prop :=
  ∃ k chunk d₁ outs d₂ err, pushAll w d (chunks.take k) = some (d₁, outs) ∧
    chunks[k]? = some chunk ∧ push w d₁ chunk = some (d₂, .error err) ∧ outs.flatten = txs

/-- The bytes behind the first `start` ones are there, and are seen to be no entry. -/
def ShowsCorruption (w : Wincode) (start : ℕ) (fed : Bytes) : Prop :=
  start < fed.length ∧ w.entry.read (fed.drop start) = .invalid

/-- Chunk `k` is the first one with which the corruption behind `start` shows. -/
structure FirstShows (w : Wincode) (start : ℕ) (chunks : List Bytes) (k : ℕ) : Prop where
  lt : k < chunks.length
  corrupt : ShowsCorruption w start (chunks.take (k + 1)).flatten
  before : ∀ j ≤ k, ¬ShowsCorruption w start (chunks.take j).flatten

theorem FirstShows.unique {start : ℕ} {chunks : List Bytes} {k k' : ℕ}
    (h : FirstShows w start chunks k) (h' : FirstShows w start chunks k') : k = k' := by
  rcases lt_trichotomy k k' with hlt | heq | hlt
  · exact absurd h.corrupt (h'.before _ hlt)
  · exact heq
  · exact absurd h'.corrupt (h.before _ hlt)

theorem exists_firstShows {start : ℕ} {chunks : List Bytes}
    (h : ShowsCorruption w start chunks.flatten) : ∃ k, FirstShows w start chunks k := by
  classical
  have hex : ∃ n, ShowsCorruption w start (chunks.take n).flatten :=
    ⟨chunks.length, by rwa [List.take_length]⟩
  have hmin : ∀ j < Nat.find hex, ¬ShowsCorruption w start (chunks.take j).flatten :=
    fun j hj => Nat.find_min hex hj
  obtain ⟨k, hk⟩ : ∃ k, Nat.find hex = k + 1 := by
    apply Nat.exists_eq_succ_of_ne_zero
    intro h0
    have := (Nat.find_spec hex).1
    rw [h0] at this
    simp at this
  refine ⟨k, ?_, ?_, fun j hj => hmin j (by omega)⟩
  · by_contra hge
    refine hmin k (by omega) ?_
    rwa [List.take_of_length_le (by omega)]
  · rw [← hk]
    exact Nat.find_spec hex

theorem take_succ_flatten {chunks : List Bytes} {k : ℕ} {chunk : Bytes}
    (h : chunks[k]? = some chunk) :
    (chunks.take (k + 1)).flatten = (chunks.take k).flatten ++ chunk := by
  rw [List.take_add_one, h, Option.toList_some, List.flatten_append, List.flatten_singleton]

/-- A string of the kind the corruption is about: a valid count, the encodings
    `bs` of fewer entries than announced, and `bad`, which is no entry. -/
structure CorruptVec (w : Wincode) (count bs bad : Bytes) (es : List Entry) : Prop where
  length : count.length = 8
  count_le : leNat count ≤ maxEntryCount
  lt : es.length < leNat count
  frames : w.entry.Frames es bs
  invalid : w.entry.read bad = .invalid
  ne_nil : bad ≠ []

namespace CorruptVec

variable {count bs bad fed : Bytes} {es : List Entry}

/-- What is read from a beginning of such a string. -/
theorem scanned (hw : w.Lawful) (h : CorruptVec w count bs bad es)
    (hfed : fed <+: count ++ (bs ++ bad)) :
    (scanned w fed).1 = arrived w es fed.length ∧
      ((StreamingDecoder.scanned w fed).2 = false ↔
        ShowsCorruption w (8 + w.entry.total es) fed) := by
  obtain ⟨m, hm⟩ : ∃ m, leNat count - es.length = m + 1 :=
    Nat.exists_eq_succ_of_ne_zero (by have := h.lt; omega)
  have hrest : fed.drop (8 + w.entry.total es) <+: bad := by
    have hd := hfed.drop (8 + w.entry.total es)
    rwa [← List.append_assoc, List.drop_left' (by
      rw [List.length_append, h.length, h.frames.length])] at hd
  rw [scanned_frames hw h.length h.count_le h.lt.le h.frames hfed, hm, Decoder.scan]
  unfold ShowsCorruption
  by_cases hlt : 8 + w.entry.total es < fed.length
  · have hne : (fed.drop (8 + w.entry.total es)).isEmpty = false := by
      rw [List.isEmpty_eq_false_iff, ← List.length_pos_iff, List.length_drop]
      omega
    simp only [hne, Bool.false_eq_true, if_false]
    cases hr : w.entry.read (fed.drop (8 + w.entry.total es)) with
    | short => simp
    | invalid => simp [hlt]
    | item e =>
      -- an entry at the front of `bad` would make `bad` valid
      obtain ⟨pre, rest, hpre, hf⟩ := hw.entry _ _ hr
      obtain ⟨t, rfl⟩ := hrest
      have hbad := h.invalid
      rw [hpre, List.append_assoc, hf.item] at hbad
      cases hbad
  · have hnil : fed.drop (8 + w.entry.total es) = [] := List.drop_eq_nil_of_le (by omega)
    simp [hnil, hlt]

theorem showsCorruption (h : CorruptVec w count bs bad es) :
    ShowsCorruption w (8 + w.entry.total es) (count ++ (bs ++ bad)) := by
  have hlen : (count ++ bs).length = 8 + w.entry.total es := by
    rw [List.length_append, h.length, h.frames.length]
  constructor
  · have := List.length_pos_of_ne_nil h.ne_nil
    rw [← List.append_assoc, List.length_append, hlen]
    omega
  · rw [← List.append_assoc, List.drop_left' hlen]
    exact h.invalid

/-- The push of the chunk in which the corruption shows is the first that
    returns `Err`, and what was returned before it are the entries that end
    before that chunk. -/
theorem errs_at (hw : w.Lawful) (h : CorruptVec w count bs bad es) {d : StreamingDecoder}
    (hd : d = {} ∨ ∃ d₀ : StreamingDecoder, d = d₀.reset) {chunks : List Bytes}
    (hchunks : chunks.flatten = count ++ (bs ++ bad)) {k : ℕ}
    (hk : FirstShows w (8 + w.entry.total es) chunks k) :
    ∃ chunk d₁ outs d₂ err, pushAll w d (chunks.take k) = some (d₁, outs) ∧
      chunks[k]? = some chunk ∧ push w d₁ chunk = some (d₂, .error err) ∧
      outs.flatten = extractTxs (arrived w es (chunks.take k).flatten.length) := by
  have hpre (n : ℕ) : (chunks.take n).flatten <+: count ++ (bs ++ bad) := by
    rw [← hchunks]
    exact (List.take_prefix n chunks).flatten
  obtain ⟨d₁, outs, hpush, h₁, hout⟩ :=
    pushAll_fresh hw (chunks.take k) (scanned_fresh hd) fun j hj => by
      rw [List.length_take] at hj
      rw [List.take_take, ← Bool.not_eq_false, (h.scanned hw (hpre _)).2]
      exact hk.before _ (by omega)
  obtain ⟨chunk, hget⟩ : ∃ chunk, chunks[k]? = some chunk :=
    ⟨_, List.getElem?_eq_getElem hk.lt⟩
  have hshows := (h.scanned hw (hpre (k + 1))).2.mpr hk.corrupt
  rw [take_succ_flatten hget] at hshows
  obtain ⟨d₂, err, herr⟩ := h₁.push_error hw hshows
  have hlast := hout (chunks.take k).length le_rfl
  rw [List.take_length, (h.scanned hw (hpre k)).1, List.take_of_length_le
    (pushAll_length hpush).le] at hlast
  exact ⟨chunk, d₁, outs, d₂, err, hpush, hget, herr, hlast⟩

/-- `Err` is returned only when the corruption shows. -/
theorem firstShows_of_err (hw : w.Lawful) (h : CorruptVec w count bs bad es)
    {d d₁ d₂ : StreamingDecoder} (hd : d = {} ∨ ∃ d₀ : StreamingDecoder, d = d₀.reset)
    {chunks : List Bytes} (hchunks : chunks.flatten = count ++ (bs ++ bad)) {k : ℕ} {chunk : Bytes}
    {outs : List (List VersionedTransaction)} {err : DecodeError}
    (hpush : pushAll w d (chunks.take k) = some (d₁, outs)) (hget : chunks[k]? = some chunk)
    (herr : push w d₁ chunk = some (d₂, .error err)) :
    FirstShows w (8 + w.entry.total es) chunks k := by
  have hpre (n : ℕ) : (chunks.take n).flatten <+: count ++ (bs ++ bad) := by
    rw [← hchunks]
    exact (List.take_prefix n chunks).flatten
  obtain ⟨hlt, -⟩ := List.getElem?_eq_some_iff.mp hget
  have hok := scanned_ok_of_pushAll hw _ (scanned_fresh hd) hpush
  refine ⟨hlt, ?_, fun j hj hshows => ?_⟩
  · rw [← (h.scanned hw (hpre _)).2, ← Bool.not_eq_true, take_succ_flatten hget]
    intro htrue
    obtain ⟨d', outs', hpush', h', -⟩ := pushAll_fresh hw _ (scanned_fresh hd) hok
    rw [hpush] at hpush'
    cases hpush'
    obtain ⟨d'', new, hpush'', -⟩ := h'.push_ok hw htrue
    rw [herr] at hpush''
    cases hpush''
  · have hj' := hok j (by rw [List.length_take]; omega)
    rw [List.nil_append, List.take_take, min_eq_left hj] at hj'
    rw [← (h.scanned hw (hpre _)).2, hj'] at hshows
    cases hshows

end CorruptVec

/-- The transactions of all entries before the corruption are returned up to and
    including the push that returns `Err` exactly when the entries that end in
    the chunk in which the corruption shows have no transactions. -/
theorem returnedBeforeErr_iff (hw : w.Lawful) {count bs bad : Bytes} {es : List Entry}
    (h : CorruptVec w count bs bad es) {d : StreamingDecoder}
    (hd : d = {} ∨ ∃ d₀ : StreamingDecoder, d = d₀.reset) {chunks : List Bytes}
    (hchunks : chunks.flatten = count ++ (bs ++ bad)) :
    ReturnedBeforeErr w d chunks (extractTxs es) ↔
      ∀ k, FirstShows w (8 + w.entry.total es) chunks k →
        ∀ e ∈ es.drop (arrived w es (chunks.take k).flatten.length).length,
          e.transactions = [] := by
  have hsplit (n : ℕ) : extractTxs es = extractTxs (arrived w es n) ++
      extractTxs (es.drop (arrived w es n).length) := by
    rw [← extractTxs_append, List.prefix_iff_eq_append.mp (arrived_isPrefix es n)]
  constructor
  · rintro ⟨k', chunk', d₁', outs', d₂', err', hpush', hget', herr', hout'⟩ k hk
    obtain ⟨chunk, d₁, outs, d₂, err, hpush, hget, herr, hout⟩ := h.errs_at hw hd hchunks hk
    obtain rfl := hk.unique (h.firstShows_of_err hw hd hchunks hpush' hget' herr')
    rw [hpush] at hpush'
    cases hpush'
    -- all of `es` was returned by the pushes before, so nothing is left
    rw [hout, hsplit (chunks.take k).flatten.length, List.self_eq_append_right] at hout'
    exact List.flatMap_eq_nil_iff.mp hout'
  · intro hempty
    have hshows := h.showsCorruption
    rw [← hchunks] at hshows
    obtain ⟨k, hk⟩ := exists_firstShows hshows
    obtain ⟨chunk, d₁, outs, d₂, err, hpush, hget, herr, hout⟩ := h.errs_at hw hd hchunks hk
    refine ⟨k, chunk, d₁, outs, d₂, err, hpush, hget, herr, ?_⟩
    have hnil : extractTxs (es.drop (arrived w es (chunks.take k).flatten.length).length) = [] :=
      List.flatMap_eq_nil_iff.mpr (hempty k hk)
    rw [hout, hsplit (chunks.take k).flatten.length, hnil, List.append_nil]

/-! ## One chunk -/

namespace LostWithErr

/-- An entry with one transaction. -/
def goodEntry : Entry where
  numHashes := 0
  hash := List.replicate 32 0
  transactions := [LegacyWire.signedTx 1 []]

/-- An entry whose only transaction starts with a length that is no length. -/
def badEntry : Bytes := List.replicate 40 0 ++ (leBytes 8 1 ++ [255])

theorem corruptVec :
    CorruptVec LegacyWire.wincode (leBytes 8 2) (LegacyWire.encodeEntry goodEntry) badEntry
      [goodEntry] := by
  have hread : LegacyWire.wincode.entry.read (LegacyWire.encodeEntry goodEntry) =
      .item goodEntry := by decide +kernel
  have hframes := Decoder.Frames.cons
    (LegacyWire.wincode_lawful.entry.frame hread (by decide +kernel)) .nil
  rw [List.append_nil] at hframes
  exact ⟨by decide, by decide, by decide, hframes, by decide +kernel, by decide⟩

end LostWithErr

open LostWithErr

/-- The good entry ends in the second chunk, the corruption shows in the third. -/
theorem returnedBeforeErr_iff_three_chunks :
    ReturnedBeforeErr LegacyWire.wincode {}
        [leBytes 8 2, LegacyWire.encodeEntry goodEntry, badEntry] (extractTxs [goodEntry]) ↔
      ∀ k, FirstShows LegacyWire.wincode (8 + LegacyWire.wincode.entry.total [goodEntry])
          [leBytes 8 2, LegacyWire.encodeEntry goodEntry, badEntry] k →
        ∀ e ∈ [goodEntry].drop (arrived LegacyWire.wincode [goodEntry]
          ([leBytes 8 2, LegacyWire.encodeEntry goodEntry, badEntry].take k).flatten.length).length,
          e.transactions = [] :=
  returnedBeforeErr_iff LegacyWire.wincode_lawful corruptVec (.inl rfl) (by simp)

/-- All three in one chunk: the transaction of the good entry is not returned. -/
theorem lost_with_err :
    ¬∀ (w : Wincode) (count bs bad : Bytes) (es : List Entry) (d : StreamingDecoder)
      (chunks : List Bytes), w.Lawful → CorruptVec w count bs bad es → d = {} →
      chunks.flatten = count ++ (bs ++ bad) → ReturnedBeforeErr w d chunks (extractTxs es) := by
  intro h
  obtain ⟨k, chunk, d₁, outs, d₂, err, hpush, hget, -, hout⟩ :=
    h LegacyWire.wincode (leBytes 8 2) (LegacyWire.encodeEntry goodEntry) badEntry [goodEntry] {}
      [leBytes 8 2 ++ (LegacyWire.encodeEntry goodEntry ++ badEntry)] LegacyWire.wincode_lawful
      corruptVec rfl (by simp)
  cases k with
  | zero =>
    cases hpush
    cases hout
  | succ k => simp at hget

end StreamingDecoder

end ShredStream
