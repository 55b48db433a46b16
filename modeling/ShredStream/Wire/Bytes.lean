import Mathlib

/-!
# Bytes and machine integers

Byte strings are lists of `UInt8`. Rust's unsigned integers are natural
numbers; where the code can leave the range of a type the model says what
happens there: `saturating_add` is `satAdd32` or `satAdd64`, and a plain `+`
is taken modulo `2^w`, as in a build without overflow checks (the default of
the release profile).
-/

namespace ShredStream

abbrev Bytes := List UInt8

/-- `u32::MAX`. -/
def u32Max : ℕ := 2 ^ 32 - 1

/-- `u64::MAX`. -/
def u64Max : ℕ := 2 ^ 64 - 1

/-- `u32::saturating_add`. -/
def satAdd32 (a b : ℕ) : ℕ := min (a + b) u32Max

/-- `u64::saturating_add`. -/
def satAdd64 (a b : ℕ) : ℕ := min (a + b) u64Max

/-- `+` on `u32`. -/
def wrapAdd32 (a b : ℕ) : ℕ := (a + b) % 2 ^ 32

/-- `+` on `u64`, and `u64::wrapping_add`. -/
def wrapAdd64 (a b : ℕ) : ℕ := (a + b) % 2 ^ 64

theorem satAdd32_of_lt {a : ℕ} (h : a < u32Max) : satAdd32 a 1 = a + 1 := by
  unfold satAdd32; omega

theorem satAdd32_le (a b : ℕ) : satAdd32 a b ≤ u32Max := min_le_right _ _

theorem wrapAdd32_of_lt {a b : ℕ} (h : a + b < 2 ^ 32) : wrapAdd32 a b = a + b :=
  Nat.mod_eq_of_lt h

/-! ## Slices -/

/-- `raw.get(a..b)`. -/
def getRange (raw : Bytes) (a b : ℕ) : Option Bytes :=
  if a ≤ b ∧ b ≤ raw.length then some ((raw.take b).drop a) else none

theorem getRange_eq_some {raw s : Bytes} {a b : ℕ} :
    getRange raw a b = some s ↔ a ≤ b ∧ b ≤ raw.length ∧ (raw.take b).drop a = s := by
  unfold getRange
  split_ifs with h <;> simp [h]
  tauto

theorem getRange_of_le {raw : Bytes} {a b : ℕ} (hab : a ≤ b) (hb : b ≤ raw.length) :
    getRange raw a b = some ((raw.take b).drop a) := if_pos ⟨hab, hb⟩

theorem length_of_getRange {raw s : Bytes} {a b : ℕ} (h : getRange raw a b = some s) :
    s.length = b - a := by
  obtain ⟨h1, h2, rfl⟩ := getRange_eq_some.mp h
  simp; omega

/-! ## Little-endian integers -/

/-- `from_le_bytes`. -/
def leNat : Bytes → ℕ
  | [] => 0
  | b :: bs => b.toNat + 256 * leNat bs

theorem leNat_lt (bs : Bytes) : leNat bs < 256 ^ bs.length := by
  induction bs with
  | nil => simp [leNat]
  | cons b bs ih =>
    have hb := b.toNat_lt
    rw [leNat, List.length_cons, pow_succ]
    omega

/-- The `n` low bytes of `x`, least significant first: `to_le_bytes`. -/
def leBytes : ℕ → ℕ → Bytes
  | 0, _ => []
  | n + 1, x => UInt8.ofNat (x % 256) :: leBytes n (x / 256)

end ShredStream
