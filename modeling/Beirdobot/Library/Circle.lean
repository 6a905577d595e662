import Mathlib.Data.Set.Finite.Basic
import Mathlib.Order.WellFounded
import Mathlib.Order.RelClasses
import Mathlib.Algebra.Group.Nat.Defs
import Mathlib.Algebra.Group.Int.Defs

/-!
# Words on a circle

Two words are compared by the sign of their difference, read as a signed number.
On a set of words this is a strict total order exactly when the set lies in one
half of the circle.
-/

namespace Beirdobot.Library

variable {w : ℕ}

/-- All words of the set are less than half a turn after one of the circle's words. -/
def HalfCircle (S : Set (BitVec w)) : Prop := ∃ c : BitVec w, ∀ a ∈ S, 2 * (a - c).toNat < 2 ^ w

/-- Less than half a turn after a common word, words differ as numbers do. -/
theorem toInt_sub_of_half {a b c : BitVec w} (ha : 2 * (a - c).toNat < 2 ^ w)
    (hb : 2 * (b - c).toNat < 2 ^ w) :
    (a - b).toInt = (a - c).toNat - (b - c).toNat := by
  have hsub : a - b = (a - c) - (b - c) := by
    apply BitVec.eq_of_toInt_eq
    simp only [BitVec.toInt_sub, Int.sub_bmod_bmod, Int.bmod_sub_bmod]
    congr 1
    omega
  have hpow : ((2 ^ w : ℕ) : ℤ) = 2 ^ w := by simp
  rw [hsub, BitVec.toInt_sub, BitVec.toInt_eq_toNat_of_lt ha, BitVec.toInt_eq_toNat_of_lt hb]
  apply Int.bmod_eq_of_le_mul_two <;> omega

/-- A difference that is not negative is less than half a turn. -/
theorem half_of_nonneg {a : BitVec w} (h : 0 ≤ a.toInt) : 2 * a.toNat < 2 ^ w := by
  rw [BitVec.toInt_eq_toNat_cond] at h
  by_contra hlt
  have hpow : ((2 ^ w : ℕ) : ℤ) = 2 ^ w := by simp
  have hbound := a.isLt
  rw [if_neg hlt] at h
  omega

/-- Words that the sign of their difference orders transitively lie in a half
circle: they are all after the least of them. -/
theorem halfCircle_of_trans {S : Set (BitVec w)}
    (htrans : ∀ a ∈ S, ∀ b ∈ S, ∀ c ∈ S,
      (a - b).toInt < 0 → (b - c).toInt < 0 → (a - c).toInt < 0) : HalfCircle S := by
  by_cases hne : S.Nonempty
  · let r : S → S → Prop := fun a b ↦ (a.1 - b.1).toInt < 0
    have : Finite (BitVec w) := Finite.of_injective BitVec.toFin fun a b ↦ BitVec.eq_of_toFin_eq
    have : IsTrans S r := ⟨fun a b c ↦ htrans a.1 a.2 b.1 b.2 c.1 c.2⟩
    have : Std.Irrefl r := ⟨fun a ↦ by simp [r]⟩
    have hwf : WellFounded r := Finite.wellFounded_of_trans_of_irrefl r
    obtain ⟨a₀, ha₀⟩ := hne
    obtain ⟨c, -, hc⟩ := hwf.has_min Set.univ ⟨⟨a₀, ha₀⟩, trivial⟩
    refine ⟨c.1, fun a ha ↦ half_of_nonneg ?_⟩
    exact Int.not_lt.mp (hc ⟨a, ha⟩ trivial)
  · exact ⟨0, fun a ha ↦ absurd ⟨a, ha⟩ hne⟩

end Beirdobot.Library
