import ShredStream.Wire.Recovery

/-!
# `record_code` and `try_reconstruct` on an honest FEC set

`FecSet.tryReconstruct_cases`: whatever packets of the set were recorded and
are at hand, `try_reconstruct` fails only when the crate refuses the geometry,
finds nothing only when fewer than `num_data` shreds are there, and else returns
a rebuilt packet for exactly the data positions that were not supplied.
-/

namespace ShredStream.FecSet

variable {C : Type} {parity : ℕ → ℕ → List Bytes → List Bytes} (F : FecSet parity)

/-! ## Recording code packets -/

/-- `record_code` of the code packet at a position. -/
def record (fec : FecSetBuffer) (q : ℕ) : FecSetBuffer :=
  fec.recordCode q F.numData F.numCoding (F.coded q) (.codeMerkle F.proofSize F.resigned)

/-- What `process_packet` hands on of a code packet. -/
def recordPacket (fec : FecSetBuffer) (raw : Bytes) : FecSetBuffer :=
  match parseKind raw with
  | .ok (.code c) => fec.recordCode c.position c.numDataShreds c.numCodingShreds c.coded c.variant
  | _ => fec

theorem recordPacket_code {q : ℕ} (hq : q < F.numCoding) (fec : FecSetBuffer) :
    recordPacket fec (F.code q) = F.record fec q := by
  obtain ⟨c, hc, -, -, hnd, hnc, hpos, hvariant⟩ := F.code_parse q hq
  unfold recordPacket record
  rw [hc]
  simp only [hnd, hnc, hpos, hvariant, F.coded_eq hq hc]

/-- The buffer holds the geometry of the set and some of its code packets. -/
structure Records (fec : FecSetBuffer) : Prop where
  numData : fec.numData = F.numData
  numCoding : fec.numCoding = F.numCoding
  variant : fec.variant = some (.codeMerkle F.proofSize F.resigned)
  shardSize : fec.shardSize = F.shardLen
  code : ∀ (q : ℕ) (raw : Bytes), fec.code[q]? = some raw → q < F.numCoding ∧ raw = F.coded q

theorem mem_record_code {fec : FecSetBuffer} {q i : ℕ} :
    i ∈ (F.record fec q).code ↔ i = q ∨ i ∈ fec.code := by
  show i ∈ fec.code.insertIfNew q (F.coded q) ↔ _
  rw [Std.ExtTreeMap.mem_insertIfNew, Nat.compare_eq_eq, eq_comm]

theorem shardLen_pos : 0 < F.shardLen := by
  have := shardSize_pos F.proofSize_le F.resigned
  unfold shardLen
  omega

variable {F}

theorem getElem?_record_code {fec : FecSetBuffer} {q i : ℕ} {raw : Bytes}
    (h : (F.record fec q).code[i]? = some raw) :
    fec.code[i]? = some raw ∨ i = q ∧ raw = F.coded q := by
  change (fec.code.insertIfNew q (F.coded q))[i]? = some raw at h
  rw [Std.ExtTreeMap.getElem?_insertIfNew] at h
  split_ifs at h with hq
  · cases h
    exact .inr ⟨(Nat.compare_eq_eq.mp hq.1).symm, rfl⟩
  · exact .inl h

/-- The first code packet fixes the geometry. -/
theorem records_new {q : ℕ} (hq : q < F.numCoding) (i : ℕ) :
    F.Records (F.record (.new i) q) where
  numData := rfl
  numCoding := rfl
  variant := rfl
  shardSize := rfl
  code i' raw h := by
    rcases getElem?_record_code h with h | ⟨rfl, rfl⟩
    · simp [FecSetBuffer.new] at h
    · exact ⟨hq, rfl⟩

/-- Later ones only add their bytes. -/
theorem Records.record {fec : FecSetBuffer} (h : F.Records fec) {q : ℕ} (hq : q < F.numCoding) :
    F.Records (F.record fec q) where
  numData := by
    show (if fec.numData = 0 then F.numData else fec.numData) = _
    split_ifs
    · rfl
    · exact h.numData
  numCoding := by
    show (if fec.numCoding = 0 then F.numCoding else fec.numCoding) = _
    split_ifs
    · rfl
    · exact h.numCoding
  variant := by
    show (if fec.variant.isNone then _ else fec.variant) = _
    rw [h.variant]
    rfl
  shardSize := by
    show (if fec.shardSize = 0 then _ else fec.shardSize) = _
    split_ifs
    · rfl
    · exact h.shardSize
  code i raw hi := by
    rcases getElem?_record_code hi with hi | ⟨rfl, rfl⟩
    · exact h.code i raw hi
    · exact ⟨hq, rfl⟩

/-- The order in which code packets come does not matter. -/
theorem records_foldl {Q : List ℕ} (hQ : ∀ q ∈ Q, q < F.numCoding) :
    ∀ fec : FecSetBuffer, F.Records fec →
      F.Records (Q.foldl F.record fec) ∧ ∀ q, q ∈ (Q.foldl F.record fec).code ↔
        q ∈ Q ∨ q ∈ fec.code := by
  induction Q with
  | nil => exact fun fec h => ⟨h, fun q => by simp⟩
  | cons q Q ih =>
    intro fec h
    rw [List.forall_mem_cons] at hQ
    obtain ⟨h1, h2⟩ := ih hQ.2 _ (h.record hQ.1)
    refine ⟨h1, fun i => ?_⟩
    rw [List.foldl_cons, h2, mem_record_code, List.mem_cons]
    tauto

/-! ## Placing the shards -/

variable (F)

/-- All shards of the set, data first. -/
def allShards : List Bytes :=
  (List.range F.numData).map F.shard ++
    parity F.numData F.numCoding ((List.range F.numData).map F.shard)

theorem allShards_data {p : ℕ} (hp : p < F.numData) : F.allShards[p]? = some (F.shard p) := by
  unfold allShards
  rw [List.getElem?_append_left (by simpa using hp), List.getElem?_map, List.getElem?_range hp]
  rfl

theorem allShards_code {q : ℕ} (hq : q < F.numCoding) :
    F.allShards[F.numData + q]? = some ((F.coded q).drop sizeOfCodingShredHeaders) := by
  unfold allShards
  rw [List.getElem?_append_right (by simp), List.length_map, List.length_range,
    Nat.add_sub_cancel_left]
  exact F.code_parity q hq

/-- Every shard that is in its place is the right one. -/
structure Fits (shards : List (Option Bytes)) : Prop where
  length : shards.length = F.numData + F.numCoding
  right : ∀ (i : ℕ) (s : Bytes), shards[i]? = some (some s) → F.allShards[i]? = some s

theorem fits_none : F.Fits (List.replicate (F.numData + F.numCoding) none) where
  length := List.length_replicate
  right i s h := by
    rw [List.getElem?_replicate] at h
    split_ifs at h
    cases h

/-- The shard at a place is there. -/
def Has (shards : List (Option Bytes)) (i : ℕ) : Prop := ∃ s, shards[i]? = some (some s)

variable {F}

theorem Fits.set {shards : List (Option Bytes)} (h : F.Fits shards) {i : ℕ} {s : Bytes}
    (hs : F.allShards[i]? = some s) : F.Fits (shards.set i (some s)) where
  length := by rw [List.length_set, h.length]
  right j t ht := by
    rw [List.getElem?_set] at ht
    split_ifs at ht with h1 h2
    · cases ht
      rw [← h1]
      exact hs
    · exact h.right j t ht

theorem Has.set {shards : List (Option Bytes)} {j : ℕ} (h : Has shards j) (i : ℕ) (s : Bytes) :
    Has (shards.set i (some s)) j := by
  obtain ⟨t, ht⟩ := h
  by_cases hij : i = j
  · subst hij
    exact ⟨s, List.getElem?_set_self (List.getElem?_eq_some_iff.mp ht).1⟩
  · exact ⟨t, by rw [List.getElem?_set_ne hij, ht]⟩

theorem has_set_self {shards : List (Option Bytes)} {i : ℕ} (hi : i < shards.length) (s : Bytes) :
    Has (shards.set i (some s)) i := ⟨s, List.getElem?_set_self hi⟩

/-- Recorded code packets of the set go to their places. -/
theorem placeCode_spec {entries : List (ℕ × Bytes)}
    (hentries : ∀ e ∈ entries, e.1 < F.numCoding ∧ e.2 = F.coded e.1) :
    ∀ shards, F.Fits shards →
      let placed := FecSetBuffer.placeCode F.numData (F.numData + F.numCoding) F.shardLen
        (.codeMerkle F.proofSize F.resigned) shards entries
      F.Fits placed ∧ (∀ j, Has shards j → Has placed j) ∧
        ∀ e ∈ entries, Has placed (F.numData + e.1) := by
  induction entries with
  | nil => exact fun shards h => ⟨h, fun _ hj => hj, by simp⟩
  | cons e entries ih =>
    obtain ⟨q, raw⟩ := e
    intro shards h
    rw [List.forall_mem_cons] at hentries
    obtain ⟨⟨hq, hraw⟩, hrest⟩ := hentries
    simp only at hq hraw
    subst hraw
    have hlen : ((F.coded q).drop sizeOfCodingShredHeaders).length = F.shardLen := by
      rw [List.length_drop, F.length_coded hq, Nat.add_sub_cancel_left]
    simp only [FecSetBuffer.placeCode, F.codeShardSlice_coded hq, hlen, if_true,
      if_neg (show ¬F.numData + q ≥ F.numData + F.numCoding by omega)]
    obtain ⟨h1, h2, h3⟩ := ih hrest _ (h.set (F.allShards_code hq))
    refine ⟨h1, fun j hj => h2 j (hj.set _ _), ?_⟩
    rw [List.forall_mem_cons]
    exact ⟨h2 _ (has_set_self (by rw [h.length]; omega) _), h3⟩

/-- Data packets of the set, received or recovered, go to their places. -/
theorem placeData_spec {entries : List (ℕ × Bytes)}
    (hentries : ∀ e ∈ entries, e.1 < F.numData ∧
      dataShardSlice e.2 (.dataMerkle F.proofSize F.resigned) = some (F.shard e.1)) :
    ∀ shards, F.Fits shards →
      let placed := FecSetBuffer.placeData F.numData F.shardLen
        (.codeMerkle F.proofSize F.resigned) shards entries
      F.Fits placed ∧ (∀ j, Has shards j → Has placed j) ∧ ∀ e ∈ entries, Has placed e.1 := by
  induction entries with
  | nil => exact fun shards h => ⟨h, fun _ hj => hj, by simp⟩
  | cons e entries ih =>
    obtain ⟨p, raw⟩ := e
    intro shards h
    rw [List.forall_mem_cons] at hentries
    obtain ⟨⟨hp, hraw⟩, hrest⟩ := hentries
    simp only at hp hraw
    simp only [FecSetBuffer.placeData, variantAsData, hraw, F.length_shard hp, if_true]
    by_cases hskip : p ≥ F.numData ∨ (shards[p]?.join).isSome
    · -- the place is taken
      rw [if_pos hskip]
      obtain ⟨h1, h2, h3⟩ := ih hrest _ h
      refine ⟨h1, h2, ?_⟩
      rw [List.forall_mem_cons]
      refine ⟨h2 p ?_, h3⟩
      obtain ⟨s, hs⟩ := Option.isSome_iff_exists.mp (hskip.resolve_left (by omega))
      exact ⟨s, Option.join_eq_some_iff.mp hs⟩
    · rw [if_neg hskip]
      obtain ⟨h1, h2, h3⟩ := ih hrest _ (h.set (F.allShards_data hp))
      refine ⟨h1, fun j hj => h2 j (hj.set _ _), ?_⟩
      rw [List.forall_mem_cons]
      exact ⟨h2 _ (has_set_self (by rw [h.length]; omega) _), h3⟩

/-- There are at least as many shards as places that are known to be filled. -/
theorem length_le_of_has {shards : List (Option Bytes)} {L : List ℕ} (hnodup : L.Nodup)
    (hL : ∀ i ∈ L, Has shards i) : L.length ≤ (shards.filter Option.isSome).length := by
  have hmap : shards = (List.range shards.length).map fun i => shards[i]?.join := by
    refine List.ext_getElem (by simp) fun i h1 _ => ?_
    simp [List.getElem?_eq_getElem h1]
  rw [hmap, List.filter_map, List.length_map]
  refine (hnodup.subperm fun i hi => ?_).length_le
  obtain ⟨s, hs⟩ := hL i hi
  rw [List.mem_filter, List.mem_range]
  refine ⟨(List.getElem?_eq_some_iff.mp hs).1, ?_⟩
  simp [hs]

/-- The shards at hand are all there: those of the data packets in front, those of the
    recorded code packets behind. -/
theorem length_le_of_placed {shards : List (Option Bytes)} {numData : ℕ} {code : BTreeMap Bytes}
    {refs : List (ℕ × Bytes)} (hrefs : ∀ e ∈ refs, e.1 < numData)
    (hnodup : (refs.map Prod.fst).Nodup) (hdata : ∀ e ∈ refs, Has shards e.1)
    (hcode : ∀ e ∈ code.toList, Has shards (numData + e.1)) :
    refs.length + code.size ≤ (shards.filter Option.isSome).length := by
  have hkeys : code.keys.Nodup := by
    rw [← Std.ExtTreeMap.map_fst_toList_eq_keys]
    exact List.pairwise_map.mpr (code.toList_sorted.imp fun h => Nat.ne_of_lt h)
  have hL : (refs.map Prod.fst ++ code.keys.map (numData + ·)).Nodup := by
    rw [List.nodup_append]
    refine ⟨hnodup, hkeys.map fun a b h => Nat.add_left_cancel h, ?_⟩
    intro i hi i' hi'
    obtain ⟨e, he, rfl⟩ := List.mem_map.mp hi
    obtain ⟨q, -, rfl⟩ := List.mem_map.mp hi'
    have hlt := hrefs e he
    omega
  have hplaced : ∀ i ∈ refs.map Prod.fst ++ code.keys.map (numData + ·), Has shards i := by
    intro i hi
    rcases List.mem_append.mp hi with hi | hi
    · obtain ⟨e, he, rfl⟩ := List.mem_map.mp hi
      exact hdata e he
    · obtain ⟨q, hq, rfl⟩ := List.mem_map.mp hi
      rw [← Std.ExtTreeMap.map_fst_toList_eq_keys] at hq
      obtain ⟨e, he, rfl⟩ := List.mem_map.mp hq
      exact hcode e he
  have hle := length_le_of_has hL hplaced
  rwa [List.length_append, List.length_map, List.length_map, Std.ExtTreeMap.length_keys] at hle

/-! ## Reconstruction -/

variable (F)

/-- What recovery makes of the positions that were not supplied. -/
def rebuiltWithout (present : List ℕ) : List (ℕ × Bytes) :=
  ((List.range F.numData).filter (· ∉ present)).map fun p => (p, F.rebuilt p)

theorem mem_rebuiltWithout {present : List ℕ} {r : ℕ × Bytes} :
    r ∈ F.rebuiltWithout present ↔ r.1 < F.numData ∧ r.1 ∉ present ∧ r.2 = F.rebuilt r.1 := by
  obtain ⟨p, bytes⟩ := r
  simp only [rebuiltWithout, List.mem_map, List.mem_filter, List.mem_range, Prod.mk.injEq,
    decide_eq_true_eq]
  constructor
  · rintro ⟨p', ⟨h1, h2⟩, rfl, rfl⟩
    exact ⟨h1, h2, rfl⟩
  · rintro ⟨h1, h2, rfl⟩
    exact ⟨p, ⟨h1, h2⟩, rfl, rfl⟩

variable {F}

theorem rebuiltPackets_eq {shards : List (Option Bytes)}
    (h : ∀ p < F.numData, shards[p]? = some (some (F.shard p))) (present : List ℕ) :
    FecSetBuffer.rebuiltPackets F.numData F.shardLen present shards = F.rebuiltWithout present := by
  unfold FecSetBuffer.rebuiltPackets rebuiltWithout
  rw [← List.filterMap_eq_map, List.filterMap_filter]
  apply List.filterMap_congr
  intro p hp
  rw [List.mem_range] at hp
  by_cases hpres : p ∈ present
  · rw [if_pos hpres, if_neg (by simpa using hpres)]
  · rw [if_neg hpres, if_pos (by simpa using hpres), h p hp]
    simp only [Option.join_some, F.length_shard hp, if_true]
    rfl

/-- What `try_reconstruct` can give. -/
theorem tryReconstruct_cases {rs : ReedSolomonCrate C} (hrs : rs.Rebuilds parity)
    {cache : ReedSolomonCache C} (hcache : cache.Valid rs) {fec : FecSetBuffer}
    (hfec : F.Records fec) {refs : List (ℕ × Bytes)}
    (hrefs : ∀ e ∈ refs, e.1 < F.numData ∧
      dataShardSlice e.2 (.dataMerkle F.proofSize F.resigned) = some (F.shard e.1))
    (hnodup : (refs.map Prod.fst).Nodup) :
    ∃ cache', cache'.Valid rs ∧
      ((fec.tryReconstruct rs refs cache = (cache', none) ∧ rs.new F.numData F.numCoding = none) ∨
        (fec.tryReconstruct rs refs cache = (cache', some []) ∧
          refs.length + fec.code.size < F.numData) ∨
        fec.tryReconstruct rs refs cache =
          (cache', some (F.rebuiltWithout (refs.map Prod.fst)))) := by
  have hpos := F.numData_pos
  have hlen := F.shardLen_pos
  have hentries : ∀ e ∈ fec.code.toList, e.1 < F.numCoding ∧ e.2 = F.coded e.1 :=
    fun e he => hfec.code e.1 e.2 (fec.code.mem_toList.mp he)
  obtain ⟨hfits, -, hcode⟩ := placeCode_spec hentries _ F.fits_none
  obtain ⟨hfits', hkeep, hdata⟩ := placeData_spec hrefs _ hfits
  unfold FecSetBuffer.tryReconstruct
  rw [if_neg (by rw [hfec.numData, hfec.shardSize]; omega), hfec.variant]
  simp only [hfec.numData, hfec.numCoding, hfec.shardSize]
  generalize FecSetBuffer.placeData F.numData F.shardLen (.codeMerkle F.proofSize F.resigned)
    (FecSetBuffer.placeCode F.numData (F.numData + F.numCoding) F.shardLen
      (.codeMerkle F.proofSize F.resigned)
      (List.replicate (F.numData + F.numCoding) none) fec.code.toList) refs = shards at *
  have hhave := length_le_of_placed (fun e he => (hrefs e he).1) hnodup hdata
    fun e he => hkeep _ (hcode e he)
  by_cases hfew : (shards.filter Option.isSome).length < F.numData
  · rw [if_pos hfew]
    exact ⟨cache, hcache, .inr (.inl ⟨rfl, by omega⟩)⟩
  rw [if_neg hfew]
  obtain ⟨hbuild, hvalid⟩ := hcache.getOrBuild F.numData F.numCoding
  generalize cache.getOrBuild rs F.numData F.numCoding = built at hbuild hvalid
  obtain ⟨cache', codec⟩ := built
  cases codec with
  | none => exact ⟨cache', hvalid, .inl ⟨rfl, hbuild.symm⟩⟩
  | some codec =>
    obtain ⟨rebuilt, hrec, hshards⟩ := hrs F.numData F.numCoding codec hbuild.symm
      ((List.range F.numData).map F.shard) shards F.shardLen (by simp) hlen
      (fun s hs => by
        obtain ⟨p, hp, rfl⟩ := List.mem_map.mp hs
        exact F.length_shard (List.mem_range.mp hp))
      hfits'.length hfits'.right (by omega)
    refine ⟨cache', hvalid, .inr (.inr ?_)⟩
    simp only [hrec]
    rw [rebuiltPackets_eq]
    intro p hp
    rw [hshards p hp, List.getElem?_map, List.getElem?_range hp]
    rfl

/-- With `num_data` shreds of the set at hand, `try_reconstruct` returns the
    others. -/
theorem tryReconstruct_eq {rs : ReedSolomonCrate C} (hrs : rs.Rebuilds parity)
    (hnew : (rs.new F.numData F.numCoding).isSome) {cache : ReedSolomonCache C}
    (hcache : cache.Valid rs) {fec : FecSetBuffer} (hfec : F.Records fec)
    {refs : List (ℕ × Bytes)}
    (hrefs : ∀ e ∈ refs, e.1 < F.numData ∧
      dataShardSlice e.2 (.dataMerkle F.proofSize F.resigned) = some (F.shard e.1))
    (hnodup : (refs.map Prod.fst).Nodup) (hcount : F.numData ≤ refs.length + fec.code.size) :
    ∃ cache', cache'.Valid rs ∧ fec.tryReconstruct rs refs cache =
      (cache', some (F.rebuiltWithout (refs.map Prod.fst))) := by
  obtain ⟨cache', hvalid, ⟨-, hnone⟩ | ⟨-, hfew⟩ | hall⟩ :=
    tryReconstruct_cases hrs hcache hfec hrefs hnodup
  · rw [hnone] at hnew
    cases hnew
  · omega
  · exact ⟨cache', hvalid, hall⟩

/-- Any `num_data` packets of the set do, whatever the order in which the code
    packets came and however often. -/
theorem tryReconstruct_received {rs : ReedSolomonCrate C} (hrs : rs.Rebuilds parity)
    (hnew : (rs.new F.numData F.numCoding).isSome) {cache : ReedSolomonCache C}
    (hcache : cache.Valid rs) {Q D : List ℕ} (hQ : ∀ q ∈ Q, q < F.numCoding)
    (hD : ∀ p ∈ D, p < F.numData) (hnodup : D.Nodup)
    (hcount : F.numData ≤ D.length + Q.dedup.length) :
    ∃ cache', ((Q.map F.code).foldl recordPacket (.new F.fecSetIndex)).tryReconstruct rs
      (D.map fun p => (p, F.data p)) cache = (cache', some (F.rebuiltWithout D)) := by
  have hpackets : (Q.map F.code).foldl recordPacket (.new F.fecSetIndex) =
      Q.foldl F.record (.new F.fecSetIndex) := by
    rw [List.foldl_map]
    exact List.foldl_ext _ _ _ fun fec q hq => F.recordPacket_code (hQ q hq) fec
  rw [hpackets]
  have hfst : (D.map fun p => (p, F.data p)).map Prod.fst = D := by
    rw [List.map_map]
    exact List.map_id D
  cases Q with
  | nil =>
    -- every data packet is there, and nothing is asked of the crate
    refine ⟨cache, ?_⟩
    have hall : F.rebuiltWithout D = [] := by
      have hperm : D.Perm (List.range F.numData) :=
        (hnodup.subperm fun p hp => List.mem_range.mpr (hD p hp)).perm_of_length_le
          (by simpa using hcount)
      unfold rebuiltWithout
      rw [List.map_eq_nil_iff, List.filter_eq_nil_iff]
      intro p hp
      simpa using hperm.mem_iff.mpr hp
    rw [hall]
    rfl
  | cons q Q =>
    rw [List.forall_mem_cons] at hQ
    obtain ⟨hrecords, hmem⟩ := records_foldl hQ.2 _ (records_new hQ.1 F.fecSetIndex)
    have hsize : (q :: Q).dedup.length ≤
        (Q.foldl F.record (F.record (.new F.fecSetIndex) q)).code.size := by
      rw [← Std.ExtTreeMap.length_keys]
      refine ((List.nodup_dedup _).subperm fun i hi => ?_).length_le
      rw [Std.ExtTreeMap.mem_keys, hmem, mem_record_code]
      rcases List.mem_cons.mp (List.mem_dedup.mp hi) with h | h
      · exact .inr (.inl h)
      · exact .inl h
    have hrefs : ∀ e ∈ D.map fun p => (p, F.data p), e.1 < F.numData ∧
        dataShardSlice e.2 (.dataMerkle F.proofSize F.resigned) = some (F.shard e.1) := by
      intro e he
      obtain ⟨p, hp, rfl⟩ := List.mem_map.mp he
      exact ⟨hD p hp, F.dataShardSlice_data (hD p hp)⟩
    obtain ⟨cache', -, hrec⟩ := tryReconstruct_eq hrs hnew hcache hrecords hrefs
      (by rwa [hfst]) (by rw [List.length_map]; omega)
    rw [hfst] at hrec
    exact ⟨cache', hrec⟩

end ShredStream.FecSet
