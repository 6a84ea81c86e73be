import Mathlib.Data.BitVec

/-!
# Masks and single bits

Two facts carry all the bit twiddling of a program that packs fields into words. A mask of
consecutive ones selects a field, and the field is a remainder and a quotient of the word's value. A
mask of one bit tests, sets or clears that bit and no other.
-/

namespace BitField

variable {w : Nat}

/-- `mask` has exactly the bits from `lo` up to `hi` set. -/
def IsMask (mask : BitVec w) (lo hi : Nat) : Prop :=
  ∀ i, i < w → mask.getLsbD i = (decide (lo ≤ i) && decide (i < hi))

instance (mask : BitVec w) (lo hi : Nat) : Decidable (IsMask mask lo hi) :=
  inferInstanceAs (Decidable (∀ i, i < w → _))

/-- The field a mask selects, as a number. -/
theorem toNat_and_of_isMask {mask : BitVec w} {lo hi : Nat} (hmask : IsMask mask lo hi)
    (word : BitVec w) : (word &&& mask).toNat = word.toNat % 2 ^ hi / 2 ^ lo * 2 ^ lo := by
  rw [← Nat.shiftRight_eq_div_pow, ← Nat.shiftLeft_eq]
  apply Nat.eq_of_testBit_eq
  intro i
  rw [BitVec.testBit_toNat, BitVec.getLsbD_and, Nat.testBit_shiftLeft, Nat.testBit_shiftRight,
    Nat.testBit_mod_two_pow]
  by_cases hi' : i < w
  · rw [hmask i hi']
    by_cases hlo : lo ≤ i
    · have hsum : lo + (i - lo) = i := by omega
      simp [hlo, hsum, BitVec.testBit_toNat, Bool.and_comm]
    · simp [hlo]
  · by_cases hlo : lo ≤ i
    · have hsum : lo + (i - lo) = i := by omega
      simp [hlo, hsum, BitVec.testBit_toNat, BitVec.getLsbD_of_ge _ _ (Nat.le_of_not_lt hi')]
    · simp [hlo, BitVec.getLsbD_of_ge _ _ (Nat.le_of_not_lt hi')]

/-- The low bits of a word are not changed by a mask that has them all. -/
theorem setWidth_and {n : Nat} {mask : BitVec w} (hmask : ∀ i < n, mask.getLsbD i = true)
    (value : BitVec w) : (value &&& mask).setWidth n = value.setWidth n := by
  apply BitVec.eq_of_getLsbD_eq
  intro i hi
  rw [BitVec.getLsbD_setWidth, BitVec.getLsbD_setWidth, BitVec.getLsbD_and, hmask i hi, Bool.and_true]

theorem getLsbD_one_shiftLeft {k i : Nat} :
    (1#w <<< k).getLsbD i = (decide (i < w) && decide (i = k)) := by
  rw [← BitVec.twoPow_eq, BitVec.getLsbD_twoPow]
  by_cases hik : i = k
  · subst hik
    simp
  · simp [hik, Ne.symm hik]

theorem and_one_shiftLeft_eq_zero_iff {word : BitVec w} {k : Nat} (hk : k < w) :
    word &&& (1#w <<< k) = 0#w ↔ word.getLsbD k = false := by
  constructor
  · intro hzero
    have hbit := congrArg (fun x : BitVec w => x.getLsbD k) hzero
    rw [BitVec.getLsbD_and, getLsbD_one_shiftLeft] at hbit
    simpa [hk] using hbit
  · intro hbit
    apply BitVec.eq_of_getLsbD_eq
    intro i hi
    rw [BitVec.getLsbD_and, getLsbD_one_shiftLeft]
    by_cases hik : i = k
    · subst hik
      simp [hbit]
    · simp [hik]

theorem getLsbD_or_one_shiftLeft {word : BitVec w} {k i : Nat} (hk : k < w) :
    (word ||| (1#w <<< k)).getLsbD i = (word.getLsbD i || decide (i = k)) := by
  rw [BitVec.getLsbD_or, getLsbD_one_shiftLeft]
  by_cases hik : i = k
  · subst hik
    simp [hk]
  · simp [hik]

theorem getLsbD_and_not_one_shiftLeft {word : BitVec w} {k i : Nat} :
    (word &&& ~~~(1#w <<< k)).getLsbD i = (word.getLsbD i && !decide (i = k)) := by
  rw [BitVec.getLsbD_and, BitVec.getLsbD_not, getLsbD_one_shiftLeft]
  by_cases hi : i < w
  · simp [hi]
  · simp [hi, BitVec.getLsbD_of_ge _ _ (Nat.le_of_not_lt hi)]

end BitField
