import Mathlib

/-!
# Self-delimiting decoders

A decoder reads one item from the front of a string. It is self-delimiting
(`Decoder.Lawful`) when an item that was read occupies a prefix of known size,
is read again whatever follows that prefix, and every strict prefix of it is
reported as too short.

* `Decoder.many` reads a fixed number of items one after the other;
  `Frames` is the string such a sequence occupies.
* `fit` lists the leading items that lie wholly inside the first `L` symbols:
  what a decoder fed piece by piece can have read so far.
* `Decoder.scan` reads what there is to read, whatever the string; what it reads
  from a beginning of the string it does not have to read again (`scan_resume`).
* `Decoder.take`, `Decoder.bind`, `Decoder.map` and `Decoder.many` build lawful
  decoders from lawful decoders.
-/

namespace SelfDelimiting

variable {α β γ : Type*}

/-- The outcome of reading one item. -/
inductive Outcome (α : Type*)
  /-- The item at the front of the string. -/
  | item (a : α)
  /-- The string ends before the item does. -/
  | short
  /-- No item starts like this string. -/
  | invalid
  deriving DecidableEq

/-- A decoder and the number of symbols each of its items occupies. -/
structure Decoder (β α : Type*) where
  read : List β → Outcome α
  size : α → ℕ

/-- `pre` is the whole encoding of `a`. -/
structure Decoder.Frame (d : Decoder β α) (a : α) (pre : List β) : Prop where
  length : pre.length = d.size a
  item : ∀ rest, d.read (pre ++ rest) = .item a
  short : ∀ q, q <+: pre → q ≠ pre → d.read q = .short

/-- Whatever is read is a frame. -/
def Decoder.Lawful (d : Decoder β α) : Prop :=
  ∀ b a, d.read b = .item a → ∃ pre rest, b = pre ++ rest ∧ d.Frame a pre

/-- An item that takes the whole string is framed by it. -/
theorem Decoder.Lawful.frame {d : Decoder β α} (hd : d.Lawful) {b : List β} {a : α}
    (h : d.read b = .item a) (hlen : b.length = d.size a) : d.Frame a b := by
  obtain ⟨pre, rest, rfl, hf⟩ := hd b a h
  rw [List.length_append, ← hf.length, Nat.add_eq_left, List.length_eq_zero_iff] at hlen
  rwa [hlen, List.append_nil]

theorem prefix_append_cases {x y q : List β} (hq : q <+: x ++ y) :
    q <+: x ∨ ∃ t, q = x ++ t ∧ t <+: y := by
  rcases List.prefix_or_prefix_of_prefix hq (List.prefix_append x y) with h | ⟨t, rfl⟩
  · exact .inl h
  · exact .inr ⟨t, rfl, (List.prefix_append_right_inj x).mp hq⟩

/-- A strict prefix of `x ++ y` is a strict prefix of `x`, or `x` followed by
    a strict prefix of `y`. -/
theorem strictPrefix_append {x y q : List β} (hq : q <+: x ++ y) (hne : q ≠ x ++ y) :
    (q <+: x ∧ q ≠ x) ∨ ∃ q', q = x ++ q' ∧ q' <+: y ∧ q' ≠ y := by
  rcases prefix_append_cases hq with h | ⟨t, rfl, ht⟩
  · by_cases he : q = x
    · exact .inr ⟨[], by simp [he], List.nil_prefix, by rintro rfl; simp [he] at hne⟩
    · exact .inl ⟨h, he⟩
  · exact .inr ⟨t, rfl, ht, by rintro rfl; exact hne rfl⟩

/-! ## Sequences of items -/

/-- `bs` is the concatenation of frames of the items. -/
inductive Decoder.Frames (d : Decoder β α) : List α → List β → Prop
  | nil : Frames d [] []
  | cons {a : α} {pre : List β} {as : List α} {bs : List β} :
      d.Frame a pre → Frames d as bs → Frames d (a :: as) (pre ++ bs)

/-- The number of symbols a sequence of items occupies. -/
def Decoder.total (d : Decoder β α) (as : List α) : ℕ := (as.map d.size).sum

@[simp] theorem Decoder.total_nil (d : Decoder β α) : d.total [] = 0 := rfl

@[simp] theorem Decoder.total_cons (d : Decoder β α) (a : α) (as : List α) :
    d.total (a :: as) = d.size a + d.total as := by
  simp [Decoder.total]

@[simp] theorem Decoder.total_append (d : Decoder β α) (as as' : List α) :
    d.total (as ++ as') = d.total as + d.total as' := by
  simp [Decoder.total]

theorem Decoder.Frames.length {d : Decoder β α} {as : List α} {bs : List β}
    (h : d.Frames as bs) : bs.length = d.total as := by
  induction h with
  | nil => rfl
  | cons hf _ ih => simp [hf.length, ih]

theorem Decoder.Frames.split {d : Decoder β α} {as as' : List α} {bs : List β}
    (h : d.Frames (as ++ as') bs) :
    ∃ bs₁ bs₂, bs = bs₁ ++ bs₂ ∧ d.Frames as bs₁ ∧ d.Frames as' bs₂ := by
  induction as generalizing bs with
  | nil => exact ⟨[], bs, rfl, .nil, h⟩
  | cons a as ih =>
    cases h with
    | @cons _ pre _ bs' hf hfs =>
      obtain ⟨bs₁, bs₂, rfl, h₁, h₂⟩ := ih hfs
      exact ⟨pre ++ bs₁, bs₂, by simp, .cons hf h₁, h₂⟩

/-- Read `n` items one after the other. -/
def Decoder.readMany (d : Decoder β α) : ℕ → List β → Outcome (List α)
  | 0, _ => .item []
  | n + 1, b =>
    match d.read b with
    | .short => .short
    | .invalid => .invalid
    | .item a =>
      match d.readMany n (b.drop (d.size a)) with
      | .short => .short
      | .invalid => .invalid
      | .item as => .item (a :: as)

theorem Decoder.Frames.readMany {d : Decoder β α} {as : List α} {bs : List β}
    (h : d.Frames as bs) (rest : List β) : d.readMany as.length (bs ++ rest) = .item as := by
  induction h with
  | nil => rfl
  | cons hf _ ih =>
    rw [List.length_cons, Decoder.readMany, List.append_assoc, hf.item]
    simp only
    rw [List.drop_left' hf.length, ih]

theorem Decoder.Lawful.frames_of_readMany {d : Decoder β α} (hd : d.Lawful) :
    ∀ n b as, d.readMany n b = .item as →
      as.length = n ∧ ∃ bs rest, b = bs ++ rest ∧ d.Frames as bs := by
  intro n
  induction n with
  | zero =>
    intro b as h
    simp only [Decoder.readMany, Outcome.item.injEq] at h
    subst h
    exact ⟨rfl, [], b, rfl, .nil⟩
  | succ n ih =>
    intro b as h
    rw [Decoder.readMany] at h
    cases hr : d.read b with
    | short => simp [hr] at h
    | invalid => simp [hr] at h
    | item a =>
      obtain ⟨pre, rest, rfl, hf⟩ := hd b a hr
      simp only [hr] at h
      rw [List.drop_left' hf.length] at h
      cases hm : d.readMany n rest with
      | short => simp [hm] at h
      | invalid => simp [hm] at h
      | item as' =>
        simp only [hm, Outcome.item.injEq] at h
        subst h
        obtain ⟨hlen, bs, rest', rfl, hfs⟩ := ih rest as' hm
        exact ⟨by simp [hlen], pre ++ bs, rest', by simp, .cons hf hfs⟩

/-- A strict prefix of a sequence of frames is too short for the sequence. -/
theorem Decoder.Frames.readMany_short {d : Decoder β α} {as : List α} {bs : List β}
    (h : d.Frames as bs) : ∀ q, q <+: bs → q ≠ bs → d.readMany as.length q = .short := by
  induction h with
  | nil =>
    intro q hq hne
    exact absurd (List.prefix_nil.mp hq) hne
  | @cons a pre as bs hf _ ih =>
    intro q hq hne
    rw [List.length_cons, Decoder.readMany]
    rcases strictPrefix_append hq hne with ⟨hq', hne'⟩ | ⟨q', rfl, hq', hne'⟩
    · simp [hf.short q hq' hne']
    · rw [hf.item]
      simp only
      rw [List.drop_left' hf.length, ih q' hq' hne']

/-! ## Reading what has arrived so far -/

/-- The leading items of `as` that lie wholly inside the first `L` symbols. -/
def Decoder.fit (d : Decoder β α) : List α → ℕ → List α
  | [], _ => []
  | a :: as, L => if d.size a ≤ L then a :: d.fit as (L - d.size a) else []

theorem Decoder.fit_isPrefix (d : Decoder β α) (as : List α) (L : ℕ) : d.fit as L <+: as := by
  induction as generalizing L with
  | nil => exact List.prefix_rfl
  | cons a as ih =>
    rw [Decoder.fit]
    split_ifs
    · exact List.cons_prefix_cons.mpr ⟨rfl, ih _⟩
    · exact List.nil_prefix

theorem Decoder.total_fit_le (d : Decoder β α) (as : List α) (L : ℕ) :
    d.total (d.fit as L) ≤ L := by
  induction as generalizing L with
  | nil => simp [Decoder.fit]
  | cons a as ih =>
    rw [Decoder.fit]
    split_ifs with h
    · have := ih (L - d.size a)
      simp only [Decoder.total_cons]
      omega
    · simp

/-- Items that fit into `L` symbols are read first, the others from where
    these end. -/
theorem Decoder.fit_resume (d : Decoder β α) (as : List α) {L L' : ℕ} (h : L ≤ L') :
    d.fit as L' = d.fit as L ++
      d.fit (as.drop (d.fit as L).length) (L' - d.total (d.fit as L)) := by
  induction as generalizing L L' with
  | nil => simp [Decoder.fit]
  | cons a as ih =>
    by_cases ha : d.size a ≤ L
    · rw [Decoder.fit, Decoder.fit, if_pos ha, if_pos (by omega),
        ih (show L - d.size a ≤ L' - d.size a by omega)]
      simp only [List.length_cons, List.drop_succ_cons, Decoder.total_cons, List.cons_append]
      rw [Nat.sub_sub]
    · have hL : d.fit (a :: as) L = [] := by rw [Decoder.fit, if_neg ha]
      simp [hL]

theorem Decoder.fit_mono (d : Decoder β α) (as : List α) {L L' : ℕ} (h : L ≤ L') :
    d.fit as L <+: d.fit as L' := by
  rw [d.fit_resume as h]
  exact List.prefix_append _ _

theorem Decoder.fit_eq_self (d : Decoder β α) {as : List α} {L : ℕ} (h : d.total as ≤ L) :
    d.fit as L = as := by
  induction as generalizing L with
  | nil => rfl
  | cons a as ih =>
    rw [Decoder.total_cons] at h
    rw [Decoder.fit, if_pos (by omega), ih (by omega)]

/-- One step of reading a prefix `r` of a sequence of frames followed by
    anything: the next item is read if it has arrived as a whole, and is
    reported short otherwise. -/
theorem Decoder.Frames.read_of_isPrefix {d : Decoder β α} {a : α} {as : List α} {bs tail r : List β}
    (h : d.Frames (a :: as) bs) (hr : r <+: bs ++ tail) :
    (d.size a ≤ r.length ∧ d.read r = .item a ∧
      ∃ bs', d.Frames as bs' ∧ r.drop (d.size a) <+: bs' ++ tail) ∨
    (r.length < d.size a ∧ d.read r = .short) := by
  cases h with
  | @cons _ pre _ bs' hf hfs =>
    rw [List.append_assoc] at hr
    rcases prefix_append_cases hr with hpre | ⟨t, rfl, ht⟩
    · by_cases he : r = pre
      · refine .inl ⟨by rw [he, hf.length], ?_, bs', hfs, ?_⟩
        · simpa [he] using hf.item []
        · rw [he, List.drop_eq_nil_of_le (by rw [hf.length])]
          exact List.nil_prefix
      · refine .inr ⟨?_, hf.short r hpre he⟩
        rw [← hf.length]
        exact lt_of_le_of_ne hpre.length_le fun hl => he (hpre.eq_of_length hl)
    · refine .inl ⟨by rw [List.length_append, hf.length]; omega, hf.item t, bs', hfs, ?_⟩
      rw [List.drop_left' hf.length]
      exact ht

/-- Read at most `n` items one after the other, as long as there are symbols
    left: the items read, and whether no string that is no item was met. -/
def Decoder.scan (d : Decoder β α) : ℕ → List β → List α × Bool
  | 0, _ => ([], true)
  | n + 1, b =>
    if b.isEmpty then ([], true)
    else
      match d.read b with
      | .short => ([], true)
      | .invalid => ([], false)
      | .item a => (a :: (d.scan n (b.drop (d.size a))).1, (d.scan n (b.drop (d.size a))).2)

/-- No item is encoded by the empty string. -/
def Decoder.Productive (d : Decoder β α) : Prop := ∀ a pre, d.Frame a pre → pre ≠ []

theorem Decoder.scan_nil (d : Decoder β α) (n : ℕ) : d.scan n [] = ([], true) := by
  cases n <;> rfl

/-- What was read stays read, and the reading goes on behind it. -/
theorem Decoder.Lawful.scan_resume {d : Decoder β α} (hd : d.Lawful) {n : ℕ} {b b' : List β}
    (hb : b <+: b') (h : (d.scan n b).2 = true) :
    d.scan n b' = ((d.scan n b).1 ++
        (d.scan (n - (d.scan n b).1.length) (b'.drop (d.total (d.scan n b).1))).1,
      (d.scan (n - (d.scan n b).1.length) (b'.drop (d.total (d.scan n b).1))).2) := by
  induction n generalizing b b' with
  | zero => simp [Decoder.scan]
  | succ n ih =>
    by_cases he : b = []
    · simp [he, Decoder.scan_nil]
    have he' : b' ≠ [] := by
      rintro rfl
      exact he (List.prefix_nil.mp hb)
    cases hr : d.read b with
    | short => simp [Decoder.scan, hr]
    | invalid => simp [Decoder.scan, hr, he] at h
    | item a =>
      obtain ⟨pre, rest, rfl, hf⟩ := hd b a hr
      obtain ⟨t, rfl⟩ := hb
      have hr' : d.read (pre ++ rest ++ t) = .item a := by
        rw [List.append_assoc]
        exact hf.item _
      have hdrop : (pre ++ rest).drop (d.size a) <+: (pre ++ rest ++ t).drop (d.size a) :=
        (List.prefix_append _ t).drop _
      simp only [Decoder.scan, hr, List.isEmpty_iff, if_neg he] at h
      rw [Decoder.scan, Decoder.scan]
      simp only [hr, hr', List.isEmpty_iff, if_neg he, if_neg he', ih hdrop h, List.length_cons,
        Decoder.total_cons, List.drop_drop, List.cons_append, Nat.succ_sub_succ]

/-- The items read are frames at the front of the string. -/
theorem Decoder.Lawful.scan_frames {d : Decoder β α} (hd : d.Lawful) (n : ℕ) (b : List β) :
    (d.scan n b).1.length ≤ n ∧ ∃ bs rest, b = bs ++ rest ∧ d.Frames (d.scan n b).1 bs := by
  induction n generalizing b with
  | zero => exact ⟨le_rfl, [], b, rfl, .nil⟩
  | succ n ih =>
    rw [Decoder.scan]
    split_ifs
    · exact ⟨Nat.zero_le _, [], b, rfl, .nil⟩
    cases hr : d.read b with
    | short => exact ⟨Nat.zero_le _, [], b, rfl, .nil⟩
    | invalid => exact ⟨Nat.zero_le _, [], b, rfl, .nil⟩
    | item a =>
      obtain ⟨pre, rest, rfl, hf⟩ := hd b a hr
      simp only [List.drop_left' hf.length, List.length_cons]
      obtain ⟨hlen, bs, rest', hrest, hfs⟩ := ih rest
      refine ⟨by omega, pre ++ bs, rest', ?_, .cons hf hfs⟩
      rw [List.append_assoc, ← hrest]

/-- Scanning a beginning of a sequence of frames followed by anything: the
    frames that are wholly there are read, and what follows them once they all
    are. -/
theorem Decoder.Frames.scan {d : Decoder β α} (hd : d.Productive) {as : List α}
    {bs tail r : List β} (h : d.Frames as bs) (hr : r <+: bs ++ tail) {n : ℕ}
    (hn : as.length ≤ n) :
    d.scan n r = if d.total as ≤ r.length then
        (as ++ (d.scan (n - as.length) (r.drop (d.total as))).1,
          (d.scan (n - as.length) (r.drop (d.total as))).2)
      else (d.fit as r.length, true) := by
  induction as generalizing bs r n with
  | nil => simp
  | cons a as ih =>
    obtain ⟨m, rfl⟩ := Nat.exists_eq_add_of_le' (show 1 ≤ n by simp at hn; omega)
    rw [List.length_cons] at hn
    have hpos : 0 < d.size a := by
      cases h with
      | cons hf _ =>
        rw [← hf.length]
        exact List.length_pos_of_ne_nil (hd _ _ hf)
    rw [Decoder.scan, Decoder.total_cons, Decoder.fit]
    rcases h.read_of_isPrefix hr with ⟨hsize, hread, bs', hbs', hr'⟩ | ⟨hsize, hread⟩
    · have hne : r.isEmpty = false := by
        rw [List.isEmpty_eq_false_iff, ← List.length_pos_iff]
        omega
      simp only [hne, Bool.false_eq_true, if_false, hread, if_pos hsize]
      rw [ih hbs' hr' (show as.length ≤ m by omega), List.length_drop]
      by_cases hall : d.total as ≤ r.length - d.size a
      · rw [if_pos hall, if_pos (by omega), List.length_cons, List.drop_drop]
        simp only [List.cons_append, Nat.add_sub_add_right]
      · rw [if_neg hall, if_neg (by omega)]
    · have hshort : ¬d.size a ≤ r.length := by omega
      rw [if_neg (show ¬d.size a + d.total as ≤ r.length by omega), if_neg hshort, hread]
      split_ifs <;> rfl

/-! ## Building lawful decoders -/

/-- Read `n` symbols. -/
def Decoder.take (n : ℕ) : Decoder β (List β) where
  read b := if b.length < n then .short else .item (b.take n)
  size _ := n

theorem Decoder.take_lawful (n : ℕ) : (Decoder.take n : Decoder β (List β)).Lawful := by
  intro b a h
  simp only [Decoder.take] at h
  split_ifs at h with hlt
  cases h
  refine ⟨b.take n, b.drop n, (List.take_append_drop n b).symm, ?_, ?_, ?_⟩
  · simp [Decoder.take]; omega
  · intro rest
    have hlen : (b.take n).length = n := by rw [List.length_take]; omega
    simp only [Decoder.take, List.length_append, hlen]
    rw [if_neg (by omega), List.take_left' hlen]
  · intro q hq hne
    have hlen : q.length < (b.take n).length :=
      lt_of_le_of_ne hq.length_le fun hl => hne (hq.eq_of_length hl)
    rw [List.length_take] at hlen
    simp only [Decoder.take]
    rw [if_pos (by omega)]

theorem Decoder.length_of_take {n : ℕ} {b a : List β} (h : (Decoder.take n).read b = .item a) :
    a.length = n := by
  simp only [Decoder.take] at h
  split_ifs at h with hlt
  cases h
  rw [List.length_take]
  omega

/-- Read an item, then one that may depend on it. -/
def Decoder.bind (d : Decoder β α) (e : α → Decoder β γ) : Decoder β (α × γ) where
  read b :=
    match d.read b with
    | .short => .short
    | .invalid => .invalid
    | .item a =>
      match (e a).read (b.drop (d.size a)) with
      | .short => .short
      | .invalid => .invalid
      | .item c => .item (a, c)
  size p := d.size p.1 + (e p.1).size p.2

theorem Decoder.of_bind_read {d : Decoder β α} {e : α → Decoder β γ} {b : List β} {p : α × γ}
    (h : (d.bind e).read b = .item p) :
    d.read b = .item p.1 ∧ (e p.1).read (b.drop (d.size p.1)) = .item p.2 := by
  simp only [Decoder.bind] at h
  cases hr : d.read b with
  | short => simp [hr] at h
  | invalid => simp [hr] at h
  | item a =>
    simp only [hr] at h
    cases hc : (e a).read (b.drop (d.size a)) with
    | short => simp [hc] at h
    | invalid => simp [hc] at h
    | item c =>
      simp only [hc, Outcome.item.injEq] at h
      subst h
      exact ⟨rfl, hc⟩

theorem Decoder.bind_lawful {d : Decoder β α} {e : α → Decoder β γ} (hd : d.Lawful)
    (he : ∀ a, (e a).Lawful) : (d.bind e).Lawful := by
  intro b p h
  obtain ⟨hr, hc⟩ := Decoder.of_bind_read h
  obtain ⟨pre, rest, rfl, hf⟩ := hd b p.1 hr
  rw [List.drop_left' hf.length] at hc
  obtain ⟨pre', rest', rfl, hf'⟩ := he p.1 rest p.2 hc
  refine ⟨pre ++ pre', rest', by simp, ?_, ?_, ?_⟩
  · simp [Decoder.bind, hf.length, hf'.length]
  · intro r
    simp only [Decoder.bind]
    rw [List.append_assoc, hf.item]
    simp only
    rw [List.drop_left' hf.length, hf'.item]
  · intro q hq hne
    simp only [Decoder.bind]
    rcases strictPrefix_append hq hne with ⟨hq', hne'⟩ | ⟨q', rfl, hq', hne'⟩
    · simp [hf.short q hq' hne']
    · rw [hf.item]
      simp only
      rw [List.drop_left' hf.length, hf'.short q' hq' hne']

/-- Turn the items of a decoder into others, refusing those `f` rejects. -/
def Decoder.map (d : Decoder β α) (f : α → Option γ) (size : γ → ℕ) : Decoder β γ where
  read b :=
    match d.read b with
    | .short => .short
    | .invalid => .invalid
    | .item a =>
      match f a with
      | none => .invalid
      | some c => .item c
  size := size

theorem Decoder.map_lawful {d : Decoder β α} (hd : d.Lawful) {f : α → Option γ} {size : γ → ℕ}
    (hsize : ∀ b a c, d.read b = .item a → f a = some c → size c = d.size a) :
    (d.map f size).Lawful := by
  intro b c h
  simp only [Decoder.map] at h
  cases hr : d.read b with
  | short => simp [hr] at h
  | invalid => simp [hr] at h
  | item a =>
    simp only [hr] at h
    cases hfa : f a with
    | none => simp [hfa] at h
    | some c' =>
      simp only [hfa, Outcome.item.injEq] at h
      subst h
      obtain ⟨pre, rest, rfl, hf⟩ := hd b a hr
      refine ⟨pre, rest, rfl, ?_, ?_, ?_⟩
      · rw [hf.length]
        exact (hsize _ _ _ hr hfa).symm
      · intro r
        simp [Decoder.map, hf.item, hfa]
      · intro q hq hne
        simp [Decoder.map, hf.short q hq hne]

/-- Read `n` items. -/
def Decoder.many (d : Decoder β α) (n : ℕ) : Decoder β (List α) where
  read := d.readMany n
  size := d.total

theorem Decoder.many_lawful {d : Decoder β α} (hd : d.Lawful) (n : ℕ) : (d.many n).Lawful := by
  intro b as h
  obtain ⟨hlen, bs, rest, rfl, hfs⟩ := hd.frames_of_readMany n b as h
  subst hlen
  exact ⟨bs, rest, rfl, hfs.length, hfs.readMany, hfs.readMany_short⟩

end SelfDelimiting
