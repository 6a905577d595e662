import Mathlib.Data.Nat.Bitwise
import Mathlib.Logic.Function.Basic
import Mathlib.Data.Nat.Notation

/-!
# Bit fields in bytes

The bits of an array of bytes, the most significant one of each byte first, so that a field of bits
can go over the ends of bytes.  `putByte` sets bits of a byte, and `setBits` is what it does when
the bytes of a field are set one after the other.
-/

namespace Beirdobot.Library

/-- An array of bytes, with what lies behind it. -/
abbrev Bytes := ℕ → BitVec 8

namespace Bytes

variable {s t : Bytes} {i k : ℕ}

/-- A bit of an array. -/
def bit (s : Bytes) (k : ℕ) : Bool := (s (k / 8)).getLsbD (7 - k % 8)

/-- Some bits of a byte are set. -/
def putByte (s : Bytes) (i b : ℕ) : Bytes := Function.update s i (s i ||| BitVec.ofNat 8 b)

theorem bit_mul_add (s : Bytes) {j : ℕ} (hj : j < 8) :
    s.bit (8 * i + (7 - j)) = (s i).getLsbD j := by
  rw [bit, show (8 * i + (7 - j)) / 8 = i by omega, show 7 - (8 * i + (7 - j)) % 8 = j by omega]

/-- Bytes are the same when their bits are. -/
theorem eq_of_bit (h : ∀ k < 8, s.bit (8 * i + k) = t.bit (8 * i + k)) : s i = t i := by
  apply BitVec.eq_of_getLsbD_eq
  intro j hj
  rw [← s.bit_mul_add hj, ← t.bit_mul_add hj]
  exact h _ (by omega)

theorem bit_congr (h : s (k / 8) = t (k / 8)) : s.bit k = t.bit k := by
  rw [bit, bit, h]

theorem bit_putByte (s : Bytes) (i b k : ℕ) :
    (s.putByte i b).bit k = (s.bit k || (decide (k / 8 = i) && b.testBit (7 - k % 8))) := by
  rw [bit, bit, putByte]
  by_cases hi : k / 8 = i
  · subst hi
    rw [Function.update_self, BitVec.getLsbD_or, BitVec.getLsbD_ofNat, decide_eq_true rfl,
      decide_eq_true (by omega), Bool.true_and]
  · rw [Function.update_of_ne hi, decide_eq_false hi, Bool.false_and, Bool.or_false]

/-- The number that three bytes are, one after the other. -/
theorem testBit_three (s : Bytes) (i : ℕ) {m : ℕ} (hm : m < 24) :
    (((s i).toNat <<< 8 ||| (s (i + 1)).toNat) <<< 8 ||| (s (i + 2)).toNat).testBit m =
      s.bit (8 * i + (23 - m)) := by
  rw [Nat.testBit_or, Nat.testBit_shiftLeft, Nat.testBit_or, Nat.testBit_shiftLeft,
    BitVec.testBit_toNat, BitVec.testBit_toNat, BitVec.testBit_toNat]
  by_cases h₁ : m < 8
  · have hbit := s.bit_mul_add (i := i + 2) h₁
    rw [show 8 * (i + 2) + (7 - m) = 8 * i + (23 - m) by omega] at hbit
    rw [decide_eq_false (by omega), Bool.false_and, Bool.false_or, hbit]
  · rw [decide_eq_true (by omega), BitVec.getLsbD_of_ge _ m (by omega), Bool.true_and,
      Bool.or_false]
    by_cases h₂ : m < 16
    · have hbit := s.bit_mul_add (i := i + 1) (show m - 8 < 8 by omega)
      rw [show 8 * (i + 1) + (7 - (m - 8)) = 8 * i + (23 - m) by omega] at hbit
      rw [decide_eq_false (by omega), Bool.false_and, Bool.false_or, hbit]
    · have hbit := s.bit_mul_add (i := i) (show m - 8 - 8 < 8 by omega)
      rw [show 8 * i + (7 - (m - 8 - 8)) = 8 * i + (23 - m) by omega] at hbit
      rw [decide_eq_true (by omega), BitVec.getLsbD_of_ge _ (m - 8) (by omega), Bool.true_and,
        Bool.or_false, hbit]

end Bytes

end Beirdobot.Library
