import ShredStream.Wire.Recovery

/-!
# The codes with one parity shard

What the crate computes for one or two data shards and one parity shard. Its bytes
are elements of GF(2^8) modulo `x^8 + x^4 + x^3 + x^2 + 1`. The parity of one shard is
a copy of it, that of `a` and `b` is `3 a + 2 b`.

* `pairCrate_rebuilds`: any data shards come back from as many of all shards.
-/

namespace ShredStream

namespace PairCode

/-- The product with 2. -/
def double (x : UInt8) : UInt8 := if x < 0x80 then x <<< 1 else (x <<< 1) ^^^ 0x1D

/-- The quotient by 2. -/
def half (x : UInt8) : UInt8 := if x &&& 1 = 0 then x >>> 1 else ((x ^^^ 0x1D) >>> 1) ||| 0x80

/-- The product with 3. -/
def triple (x : UInt8) : UInt8 := x ^^^ double x

/-- The quotient by 3, which is the product with `0xF4`. -/
def third (x : UInt8) : UInt8 :=
  let x4 := double (double x)
  let x16 := double (double x4)
  let x32 := double x16
  let x64 := double x32
  x4 ^^^ x16 ^^^ x32 ^^^ x64 ^^^ double x64

/-- The byte of the parity shard. -/
def pair (a b : UInt8) : UInt8 := triple a ^^^ double b

theorem half_double (x : UInt8) : half (double x) = x := by
  have hall : ∀ n < 256, half (double (.ofNat n)) = .ofNat n := by decide +kernel
  simpa using hall x.toNat x.toNat_lt

theorem third_triple (x : UInt8) : third (triple x) = x := by
  have hall : ∀ n < 256, third (triple (.ofNat n)) = .ofNat n := by decide +kernel
  simpa using hall x.toNat x.toNat_lt

/-- The second byte from the first one and the parity, and the other way around. -/
def second (a c : UInt8) : UInt8 := half (triple a ^^^ c)
def first (b c : UInt8) : UInt8 := third (double b ^^^ c)

theorem second_pair (a b : UInt8) : second a (pair a b) = b := by
  rw [second, pair, ← UInt8.xor_assoc, UInt8.xor_self, UInt8.zero_xor, half_double]

theorem first_pair (b a : UInt8) : first b (pair a b) = a := by
  rw [first, pair, UInt8.xor_comm (triple a), ← UInt8.xor_assoc, UInt8.xor_self, UInt8.zero_xor,
    third_triple]

/-- Shards come back byte by byte. -/
theorem zipWith_zipWith {f g : UInt8 → UInt8 → UInt8} (h : ∀ a b, g a (f a b) = b) :
    ∀ as bs : Bytes, as.length = bs.length → List.zipWith g as (List.zipWith f as bs) = bs := by
  intro as
  induction as with
  | nil => exact fun bs hlen => (List.length_eq_zero_iff.mp hlen.symm).symm
  | cons a as ih =>
    intro bs hlen
    cases bs with
    | nil => cases hlen
    | cons b bs =>
      show g a (f a b) :: _ = _
      rw [h, ih bs (Nat.succ.inj hlen)]

end PairCode

open PairCode

/-- The encoder. -/
def pairParity (_ _ : ℕ) : List Bytes → List Bytes
  | [a, b] => [List.zipWith pair a b]
  | data => data

/-- The crate, for one or two data shards and one parity shard. -/
def pairCrate : ReedSolomonCrate Unit where
  new nd nc := if (nd = 1 ∨ nd = 2) ∧ nc = 1 then some () else none
  reconstructData _ shards :=
    match shards with
    | [some a, t] => some [some a, t]
    | [none, some a] => some [some a, some a]
    | [some a, some b, t] => some [some a, some b, t]
    | [some a, none, some c] =>
      some [some a, some (List.zipWith second a c), some c]
    | [none, some b, some c] =>
      some [some (List.zipWith first b c), some b, some c]
    | _ => none

theorem pairCrate_rebuilds : pairCrate.Rebuilds pairParity := by
  intro nd nc codec hnew data shards len hdata _ hlens hlen hright hcount
  have hgeom : (nd = 1 ∨ nd = 2) ∧ nc = 1 := by
    by_contra h
    simp [pairCrate, h] at hnew
  obtain ⟨rfl | rfl, rfl⟩ := hgeom
  · -- one shard and its copy
    obtain ⟨a, rfl⟩ := List.length_eq_one_iff.mp hdata
    obtain ⟨s, t, rfl⟩ := List.length_eq_two.mp hlen
    have hs : ∀ u, s = some u → a = u := fun u hu => by simpa [hu] using hright 0 u
    have ht : ∀ u, t = some u → a = u := fun u hu => by simpa [hu, pairParity] using hright 1 u
    cases s with
    | some u =>
      obtain rfl := hs u rfl
      exact ⟨_, rfl, by simp⟩
    | none =>
      cases t with
      | some u =>
        obtain rfl := ht u rfl
        exact ⟨_, rfl, by simp⟩
      | none => simp at hcount
  · obtain ⟨a, b, rfl⟩ := List.length_eq_two.mp hdata
    obtain ⟨s, t, u, rfl⟩ := List.length_eq_three.mp hlen
    have hab : a.length = b.length := (hlens a (by simp)).trans (hlens b (by simp)).symm
    have hs : ∀ v, s = some v → a = v := fun v hv => by simpa [hv] using hright 0 v
    have ht : ∀ v, t = some v → b = v := fun v hv => by simpa [hv] using hright 1 v
    have hu : ∀ v, u = some v → List.zipWith pair a b = v := fun v hv => by
      simpa [hv, pairParity] using hright 2 v
    have htwo : ∀ r, pairCrate.reconstructData () [s, t, u] = some r →
        r[0]? = some (some a) → r[1]? = some (some b) →
          ∃ rebuilt, pairCrate.reconstructData () [s, t, u] = some rebuilt ∧
            ∀ i < 2, rebuilt[i]? = some [a, b][i]? := by
      intro r hr h0 h1
      refine ⟨r, hr, fun i hi => ?_⟩
      rcases (show i = 0 ∨ i = 1 by omega) with rfl | rfl
      · exact h0
      · exact h1
    cases s with
    | some v =>
      obtain rfl := hs v rfl
      cases t with
      | some w =>
        obtain rfl := ht w rfl
        exact htwo _ rfl rfl rfl
      | none =>
        cases u with
        | some w =>
          obtain rfl := hu w rfl
          refine htwo _ rfl rfl ?_
          rw [List.getElem?_cons_succ, List.getElem?_cons_zero, zipWith_zipWith second_pair a b hab]
        | none => simp at hcount
    | none =>
      cases t with
      | none =>
        have hfew : ([none, none, u].filter Option.isSome).length ≤ 1 := by
          cases u with
          | none => decide
          | some v => exact le_rfl
        omega
      | some w =>
        obtain rfl := ht w rfl
        cases u with
        | some v =>
          obtain rfl := hu v rfl
          have hswap : List.zipWith pair a b = List.zipWith (fun y x => pair x y) b a :=
            List.zipWith_comm
          refine htwo _ rfl ?_ rfl
          rw [List.getElem?_cons_zero, hswap, zipWith_zipWith first_pair b a hab.symm]
        | none => simp at hcount

end ShredStream
