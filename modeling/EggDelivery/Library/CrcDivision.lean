import EggDelivery.Library.Crc
import Mathlib.Algebra.CharP.Two
import Mathlib.Algebra.Polynomial.Div
import Mathlib.Algebra.Field.ZMod
import Mathlib.Tactic.LinearCombination

/-!
# Cyclic redundancy checks are remainders

A register is a polynomial over GF(2) of degree below `w`, and the generator is
completed by its leading term. Feeding a stream of bits computes the remainder of
the stream, times `X ^ w`, by the generator; the start value is a dividend of its
own in front of it.
-/

namespace Crc

open Polynomial

variable {w : Nat}

def coefficient (b : Bool) : ZMod 2 := if b then 1 else 0

theorem coefficient_xor (a b : Bool) :
    coefficient (a ^^ b) = coefficient a + coefficient b := by
  cases a <;> cases b <;> decide

noncomputable def toPoly (v : BitVec w) : (ZMod 2)[X] :=
  ∑ i ∈ Finset.range w, C (coefficient (v.getLsbD i)) * X ^ i

/-- The polynomial of a stream, its first bit at the highest power. -/
noncomputable def message (bits : List Bool) : (ZMod 2)[X] :=
  bits.foldl (fun p b => p * X + C (coefficient b)) 0

/-- The generator with its leading term. -/
noncomputable def divisor (g : BitVec w) : (ZMod 2)[X] := X ^ w + toPoly g

theorem coeff_toPoly (v : BitVec w) (n : Nat) :
    (toPoly v).coeff n = coefficient (v.getLsbD n) := by
  simp only [toPoly, finsetSum_coeff, coeff_C_mul, coeff_X_pow]
  by_cases hn : n < w
  · rw [Finset.sum_eq_single n]
    · simp
    · intro i _ hi
      simp [Ne.symm hi]
    · intro hmem
      exact (hmem (Finset.mem_range.mpr hn)).elim
  · rw [BitVec.getLsbD_of_ge v n (Nat.le_of_not_lt hn)]
    refine Finset.sum_eq_zero fun i hi => ?_
    have hne : n ≠ i := fun heq => hn (heq ▸ Finset.mem_range.mp hi)
    simp [hne]

theorem toPoly_xor (u v : BitVec w) : toPoly (u ^^^ v) = toPoly u + toPoly v := by
  ext n
  rw [coeff_add, coeff_toPoly, coeff_toPoly, coeff_toPoly, BitVec.getLsbD_xor, coefficient_xor]

theorem degree_toPoly_lt (v : BitVec w) : (toPoly v).degree < w := by
  rw [degree_lt_iff_coeff_zero]
  intro n hn
  rw [coeff_toPoly, BitVec.getLsbD_of_ge v n hn]
  rfl

theorem divisor_monic (g : BitVec w) : (divisor g).Monic :=
  monic_X_pow_add (degree_toPoly_lt g)

theorem degree_divisor (g : BitVec w) : (divisor g).degree = w := by
  rw [divisor, degree_add_eq_left_of_degree_lt, degree_X_pow]
  rw [degree_X_pow]
  exact degree_toPoly_lt g

theorem toPoly_mod (g r : BitVec w) : toPoly r %ₘ divisor g = toPoly r := by
  rw [modByMonic_eq_self_iff (divisor_monic g), degree_divisor]
  exact degree_toPoly_lt r

theorem toPoly_mul_X (r : BitVec w) :
    toPoly r * X = toPoly (r <<< 1) + C (coefficient r.msb) * X ^ w := by
  ext n
  rw [coeff_add, coeff_toPoly, coeff_C_mul, coeff_X_pow, BitVec.getLsbD_shiftLeft,
    BitVec.msb_eq_getLsbD_last]
  cases n with
  | zero =>
      rw [coeff_mul_X_zero]
      rcases Nat.eq_zero_or_pos w with rfl | hw
      · simp [coefficient]
      · simp [coefficient, hw.ne]
  | succ n =>
      rw [coeff_mul_X, coeff_toPoly]
      by_cases hlast : n + 1 = w
      · simp [← hlast, coefficient]
      · by_cases hn : n + 1 < w
        · simp [hn, hlast, coefficient]
        · simp [hn, hlast, coefficient, BitVec.getLsbD_of_ge r n (by omega)]

theorem toPoly_shiftIn (g r : BitVec w) (b : Bool) :
    toPoly (shiftIn g r b) =
      (toPoly r * X + C (coefficient b) * X ^ w) %ₘ divisor g := by
  have hselect : toPoly (if r.msb ^^ b then g else 0#w) =
      C (coefficient (r.msb ^^ b)) * toPoly g := by
    cases r.msb ^^ b
    · simp [coefficient, toPoly]
    · simp [coefficient]
  have hdiff : toPoly (shiftIn g r b) + divisor g * C (coefficient (r.msb ^^ b)) =
      toPoly r * X + C (coefficient b) * X ^ w := by
    rw [toPoly_mul_X, shiftIn, toPoly_xor, hselect, divisor, coefficient_xor, C_add]
    have htwice := CharTwo.add_self_eq_zero
      ((C (coefficient r.msb) + C (coefficient b)) * toPoly g : (ZMod 2)[X])
    linear_combination htwice
  have hdegree : (toPoly (shiftIn g r b)).degree < (divisor g).degree := by
    rw [degree_divisor]
    exact degree_toPoly_lt _
  exact (div_modByMonic_unique _ _ (divisor_monic g) ⟨hdiff, hdegree⟩).2.symm

theorem message_concat (bits : List Bool) (b : Bool) :
    message (bits ++ [b]) = message bits * X + C (coefficient b) := by
  simp [message]

/-- Bit by bit, the register holds the remainder of what it has read. -/
theorem toPoly_foldl (g r : BitVec w) (bits : List Bool) :
    toPoly (bits.foldl (shiftIn g) r) =
      (toPoly r * X ^ bits.length + message bits * X ^ w) %ₘ divisor g := by
  induction bits using List.reverseRecOn with
  | nil => simp [message, toPoly_mod]
  | append_singleton bits b ih =>
      rw [List.foldl_append, List.foldl_cons, List.foldl_nil, toPoly_shiftIn, ih]
      apply modByMonic_eq_of_dvd_sub (divisor_monic g)
      have hdiv := modByMonic_add_div
        (toPoly r * X ^ bits.length + message bits * X ^ w) (divisor g)
      refine ⟨-((toPoly r * X ^ bits.length + message bits * X ^ w) /ₘ divisor g) * X, ?_⟩
      rw [message_concat, List.length_append, List.length_singleton]
      linear_combination X * hdiv

/-- The check of a stream, read back in paper order, is a remainder. -/
theorem toPoly_check (p : Parameters w) (bits : List Bool) :
    toPoly (check p bits ^^^ p.complement).reverse =
      (toPoly p.start * X ^ bits.length + message bits * X ^ w) %ₘ divisor p.generator := by
  rw [check, BitVec.xor_assoc, BitVec.xor_self, BitVec.xor_zero, BitVec.reverse_reverse_eq,
    toPoly_foldl]

end Crc
