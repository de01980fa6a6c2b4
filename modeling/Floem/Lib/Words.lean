import Mathlib

/-!
# Words of bytes

Values of C's scalar types as their bytes, least significant byte first.

* `leNat`, `leBytes` — a word as a number and back.
* `resize` — integer conversions: truncation, and extension with a sign or with zeros.
* `FloatFormat` — the binary floating-point formats, with C's conversions from and to
  unsigned integers.
-/

namespace Floem
namespace Lib

/-! ## Integers -/

/-- The number a word stands for. -/
def leNat : List UInt8 → ℕ
  | [] => 0
  | b :: bs => b.toNat + 256 * leNat bs

/-- The word of `n` bytes that stands for `x` modulo `256 ^ n`. -/
def leBytes : ℕ → ℕ → List UInt8
  | 0, _ => []
  | n + 1, x => UInt8.ofNat x :: leBytes n (x / 256)

@[simp] theorem length_leBytes (n x : ℕ) : (leBytes n x).length = n := by
  induction n generalizing x with
  | zero => rfl
  | succ n ih => simp [leBytes, ih]

/-- **A number comes back** as what the word can hold of it. -/
theorem leNat_leBytes (n x : ℕ) : leNat (leBytes n x) = x % 256 ^ n := by
  induction n generalizing x with
  | zero => simp [leNat, leBytes, Nat.mod_one]
  | succ n ih =>
      have hlow : (UInt8.ofNat x).toNat = x % 256 := by simp
      rw [leBytes, leNat, hlow, ih, Nat.pow_succ', Nat.mod_mul]

/-- Integer conversion to `n` bytes: truncate, or extend with the sign. -/
def resize (n : ℕ) (signed : Bool) (v : List UInt8) : List UInt8 :=
  let sign : UInt8 := if signed && decide (128 ≤ (v.getLast?.getD 0).toNat) then 255 else 0
  v.take n ++ List.replicate (n - v.length) sign

theorem resize_of_length {n : ℕ} {v : List UInt8} (h : v.length = n) (signed : Bool) :
    resize n signed v = v := by
  subst h
  simp [resize]

/-! ## Floating point -/

/-- A binary floating-point format: the widths of the exponent and of the fraction. -/
structure FloatFormat where
  exponent : ℕ
  fraction : ℕ

namespace FloatFormat

variable (F : FloatFormat)

def bias : ℕ := 2 ^ (F.exponent - 1) - 1

/-- Conversion to an unsigned integer of `width` bits, towards zero.  It is undefined for
infinities, for NaNs and for values out of range. -/
def toUnsigned (width bits : ℕ) : Option ℕ :=
  let e := bits / 2 ^ F.fraction % 2 ^ F.exponent
  let significand := 2 ^ F.fraction + bits % 2 ^ F.fraction
  let truncated :=
    if e = 0 then 0
    else if F.bias + F.fraction ≤ e then significand * 2 ^ (e - (F.bias + F.fraction))
    else significand / 2 ^ (F.bias + F.fraction - e)
  if e = 2 ^ F.exponent - 1 then none
  else if bits / 2 ^ (F.exponent + F.fraction) = 0 then
    if truncated < 2 ^ width then some truncated else none
  else if truncated = 0 then some 0 else none

/-- Conversion from an unsigned integer, to nearest, ties to even. -/
def ofUnsigned (x : ℕ) : ℕ :=
  if x = 0 then 0
  else
    let e := Nat.log2 x
    let significand :=
      if e ≤ F.fraction then x * 2 ^ (F.fraction - e)
      else
        let unit := 2 ^ (e - F.fraction)
        let q := x / unit
        let r := x % unit
        if unit < 2 * r ∨ unit = 2 * r ∧ q % 2 = 1 then q + 1 else q
    -- a significand rounded up to the next power of two carries into the exponent
    (F.bias + e) * 2 ^ F.fraction + (significand - 2 ^ F.fraction)

end FloatFormat

/-- `float` -/
def binary32 : FloatFormat := ⟨8, 23⟩

/-- `double` -/
def binary64 : FloatFormat := ⟨11, 52⟩

example : binary32.toUnsigned 32 0x42F6E979 = some 123 := by decide +kernel

example : binary32.ofUnsigned 16777219 = 0x4B800002 := by decide +kernel

end Lib
end Floem
