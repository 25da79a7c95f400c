import EggDelivery.Library.CrcDivision
import Mathlib.Data.List.GetD
import Mathlib.GroupTheory.OrderOfElement
import Mathlib.RingTheory.AdjoinRoot

/-!
# Errors that a cyclic redundancy check does not see

Two streams of one length have the same check exactly if the generator divides their
sum. A pair of flipped bits is then a question about the order of `X` modulo the
generator, which registers can be computed with, and a window of one bit more than
the register has room for the generator itself and nothing else.
-/

namespace Crc

open Polynomial

variable {w : Nat}

/-! ## Streams as polynomials -/

theorem coeff_message (bits : List Bool) (n : Nat) :
    (message bits).coeff n = coefficient (bits.reverse.getD n false) := by
  induction bits using List.reverseRecOn generalizing n with
  | nil => simp [message, coefficient]
  | append_singleton bits b ih =>
      rw [message_concat, List.reverse_append, List.reverse_singleton, List.singleton_append,
        coeff_add]
      cases n with
      | zero => simp
      | succ n => simpa [coeff_C_succ] using ih n

theorem coefficient_injective : Function.Injective coefficient := by decide

theorem toPoly_injective : Function.Injective (toPoly : BitVec w → (ZMod 2)[X]) := by
  intro a b h
  apply BitVec.eq_of_getLsbD_eq
  intro i _
  have hi := congrArg (fun q => q.coeff i) h
  rw [coeff_toPoly, coeff_toPoly] at hi
  exact coefficient_injective hi

theorem message_injective {u v : List Bool} (hlen : u.length = v.length)
    (h : message u = message v) : u = v := by
  have hrev : u.reverse = v.reverse := by
    refine List.ext_getElem (by simpa using hlen) fun i hu hv => ?_
    have hi := congrArg (fun q => q.coeff i) h
    simp only [coeff_message, List.getD_eq_getElem _ _ hu, List.getD_eq_getElem _ _ hv] at hi
    exact coefficient_injective hi
  exact List.reverse_injective hrev

theorem degree_message_lt (bits : List Bool) : (message bits).degree < bits.length := by
  rw [degree_lt_iff_coeff_zero]
  intro n hn
  rw [coeff_message, List.getD_eq_default _ _ (by simpa using hn)]
  rfl

theorem message_append (u v : List Bool) :
    message (u ++ v) = message u * X ^ v.length + message v := by
  induction v using List.reverseRecOn with
  | nil => simp [message]
  | append_singleton v b ih =>
      rw [← List.append_assoc, message_concat, message_concat, ih, List.length_append,
        List.length_singleton]
      ring

theorem message_cons (b : Bool) (bits : List Bool) :
    message (b :: bits) = C (coefficient b) * X ^ bits.length + message bits := by
  rw [← List.singleton_append, message_append]
  simp [message]

theorem message_modify {bits : List Bool} {n : Nat} (hn : n < bits.length) :
    message (bits.modify n not) = message bits + X ^ (bits.length - 1 - n) := by
  induction bits generalizing n with
  | nil => simp at hn
  | cons b bits ih =>
      cases n with
      | zero =>
          have hnot : coefficient (!b) = coefficient b + 1 := by cases b <;> decide
          rw [List.modify_zero_cons, message_cons, message_cons, hnot, C_add, C_1,
            List.length_cons, Nat.add_sub_cancel, Nat.sub_zero]
          ring
      | succ n =>
          rw [List.length_cons, Nat.add_lt_add_iff_right] at hn
          rw [List.modify_succ_cons, message_cons, message_cons, ih hn, List.length_modify,
            List.length_cons, show bits.length + 1 - 1 - (n + 1) = bits.length - 1 - n by omega]
          ring

theorem message_zipWith_xor {u v : List Bool} (hlen : u.length = v.length) :
    message (List.zipWith xor u v) = message u + message v := by
  induction u generalizing v with
  | nil =>
      obtain rfl : v = [] := List.eq_nil_of_length_eq_zero hlen.symm
      simp [message]
  | cons a u ih =>
      cases v with
      | nil => simp at hlen
      | cons b v =>
          have hlen' : u.length = v.length := Nat.succ.inj hlen
          rw [List.zipWith_cons_cons, message_cons, message_cons, message_cons, ih hlen',
            coefficient_xor, C_add, List.length_zipWith, hlen', Nat.min_self]
          ring

def bitsDown (r : BitVec w) : List Bool := (List.range w).map r.getMsbD

def divisorBits (g : BitVec w) : List Bool := true :: bitsDown g

@[simp] theorem bitsDown_length (r : BitVec w) : (bitsDown r).length = w := by
  simp [bitsDown]

theorem message_bitsDown (r : BitVec w) : message (bitsDown r) = toPoly r := by
  ext n
  rw [coeff_message, coeff_toPoly, bitsDown, List.getD_eq_getElem?_getD]
  by_cases hn : n < w
  · rw [List.getElem?_reverse (by simpa using hn), List.getElem?_map, List.length_map,
      List.length_range, List.getElem?_range (by omega), Option.map_some, Option.getD_some,
      BitVec.getMsbD_eq_getLsbD, decide_eq_true (by omega), Bool.true_and,
      show w - 1 - (w - 1 - n) = n by omega]
  · rw [List.getElem?_eq_none (by simpa using hn), Option.getD_none,
      BitVec.getLsbD_of_ge r n (Nat.le_of_not_lt hn)]

theorem message_divisorBits (g : BitVec w) : message (divisorBits g) = divisor g := by
  rw [divisorBits, message_cons, message_bitsDown, bitsDown_length, divisor]
  simp [coefficient]

/-! ## Registers as remainders -/

/-- What a register stands for modulo the generator. -/
noncomputable def value (g r : BitVec w) : AdjoinRoot (divisor g) :=
  AdjoinRoot.mk (divisor g) (toPoly r)

theorem value_injective (g : BitVec w) : Function.Injective (value g) := by
  intro a b h
  apply toPoly_injective
  have hdvd : divisor g ∣ toPoly a - toPoly b := AdjoinRoot.mk_eq_mk.mp h
  refine sub_eq_zero.mp (eq_zero_of_dvd_of_degree_lt hdvd ?_)
  rw [degree_divisor]
  exact lt_of_le_of_lt (degree_sub_le _ _) (max_lt (degree_toPoly_lt a) (degree_toPoly_lt b))

theorem value_xor (g a b : BitVec w) : value g (a ^^^ b) = value g a + value g b := by
  rw [value, toPoly_xor, map_add]
  rfl

theorem value_shiftIn (g r : BitVec w) :
    value g (shiftIn g r false) = value g r * AdjoinRoot.root (divisor g) := by
  have hmod : ∀ q : (ZMod 2)[X], AdjoinRoot.mk (divisor g) (q %ₘ divisor g) =
      AdjoinRoot.mk (divisor g) q := by
    intro q
    conv_rhs => rw [← modByMonic_add_div q (divisor g)]
    rw [map_add, map_mul, AdjoinRoot.mk_self, zero_mul, add_zero]
  rw [value, toPoly_shiftIn, hmod]
  simp [coefficient, value]

def mul (g a b : BitVec w) : BitVec w :=
  (bitsDown b).foldl (fun r bit => shiftIn g r false ^^^ (if bit then a else 0#w)) 0#w

theorem value_mul (g a b : BitVec w) : value g (mul g a b) = value g a * value g b := by
  have hzero : value g 0#w = 0 := by simp [value, toPoly, coefficient]
  have hfold : ∀ bits : List Bool,
      value g (bits.foldl (fun r bit => shiftIn g r false ^^^ (if bit then a else 0#w)) 0#w) =
        value g a * AdjoinRoot.mk (divisor g) (message bits) := by
    intro bits
    induction bits using List.reverseRecOn with
    | nil => simp [hzero, message]
    | append_singleton bits b ih =>
        have hselect : value g (if b then a else 0#w) =
            value g a * AdjoinRoot.mk (divisor g) (C (coefficient b)) := by
          cases b
          · simp [coefficient, hzero]
          · simp [coefficient]
        rw [List.foldl_append, List.foldl_cons, List.foldl_nil, value_xor, value_shiftIn, ih,
          hselect, message_concat, map_add, map_mul, AdjoinRoot.mk_X]
        ring
  rw [mul, hfold, message_bitsDown]
  rfl

/-- A power of `X`, for an exponent below `2 ^ k`, by squaring. -/
def power (g : BitVec w) : Nat → Nat → BitVec w
  | 0, _ => 1#w
  | k + 1, n =>
      let r := power g k (n / 2)
      let s := mul g r r
      if n % 2 = 1 then shiftIn g s false else s

theorem value_power (g : BitVec w) (hw : 0 < w) {k n : Nat} (hn : n < 2 ^ k) :
    value g (power g k n) = AdjoinRoot.root (divisor g) ^ n := by
  induction k generalizing n with
  | zero =>
      obtain rfl : n = 0 := by omega
      have hone : toPoly (1#w) = 1 := by
        ext i
        rw [coeff_toPoly, coeff_one, BitVec.getLsbD_one]
        by_cases hi : i = 0 <;> simp [hi, hw, coefficient]
      rw [power, value, hone, map_one, pow_zero]
  | succ k ih =>
      have hsquare : value g (mul g (power g k (n / 2)) (power g k (n / 2))) =
          AdjoinRoot.root (divisor g) ^ (2 * (n / 2)) := by
        rw [value_mul, ih (by omega), ← pow_add, Nat.two_mul]
      rw [power]
      split
      next hodd =>
        rw [value_shiftIn, hsquare, ← pow_succ]
        congr 1
        omega
      next heven =>
        rw [hsquare]
        congr 1
        omega

theorem value_one {g : BitVec w} (hw : 0 < w) : value g 1#w = 1 :=
  value_power g hw (k := 0) (n := 0) Nat.one_pos

/-- The order of `X`, checked on registers. -/
theorem orderOf_root {g : BitVec w} (hw : 0 < w) {k n : Nat} (hpos : 0 < n) (hn : n < 2 ^ k)
    (hone : power g k n = 1#w)
    (hless : ∀ p : Nat, p.Prime → p ∣ n → power g k (n / p) ≠ 1#w) :
    orderOf (AdjoinRoot.root (divisor g)) = n := by
  refine orderOf_eq_of_pow_and_pow_div_prime hpos ?_ fun p hp hdvd hpow => ?_
  · rw [← value_power g hw hn, hone, value_one hw]
  · have hlt : n / p < 2 ^ k := lt_of_le_of_lt (Nat.div_le_self n p) hn
    rw [← value_power g hw hlt, ← value_one hw] at hpow
    exact hless p hp hdvd (value_injective g hpow)

theorem isUnit_root {g : BitVec w} (hg : g.getLsbD 0 = true) :
    IsUnit (AdjoinRoot.root (divisor g)) := by
  have hw : w ≠ 0 := by
    rintro rfl
    simp at hg
  have hcoeff : (divisor g).coeff 0 = 1 := by
    rw [divisor, coeff_add, coeff_X_pow, coeff_toPoly, hg]
    simp [hw.symm, coefficient]
  have hsplit := divX_mul_X_add (divisor g)
  have hself : AdjoinRoot.mk (divisor g) ((divisor g).divX * X + C 1) = 0 := by
    rw [← hcoeff, hsplit, AdjoinRoot.mk_self]
  rw [map_add, map_mul, C_1, map_one, AdjoinRoot.mk_X] at hself
  exact IsUnit.of_mul_eq_one (-AdjoinRoot.mk (divisor g) (divisor g).divX)
    (by linear_combination -hself)

/-- The generator divides no power of `X`, and so sees through one. -/
theorem divisor_dvd_mul_X_pow {g : BitVec w} (hg : g.getLsbD 0 = true) (q : (ZMod 2)[X]) (n : Nat) :
    divisor g ∣ q * X ^ n ↔ divisor g ∣ q := by
  rw [← AdjoinRoot.mk_eq_zero, ← AdjoinRoot.mk_eq_zero, map_mul, map_pow, AdjoinRoot.mk_X]
  exact ((isUnit_root hg).pow n).mul_left_eq_zero

/-- The multiples of the generator of no larger degree. -/
theorem divisor_dvd_iff {g : BitVec w} {q : (ZMod 2)[X]} (hq : q.degree ≤ w) :
    divisor g ∣ q ↔ q = 0 ∨ q = divisor g := by
  constructor
  · rintro ⟨r, rfl⟩
    have hbit : ∀ a : ZMod 2, a = 0 ∨ a = 1 := by decide
    by_cases hr : r = 0
    · left
      rw [hr, mul_zero]
    · have hdegree : r.degree ≤ 0 := by
        rw [degree_mul, degree_divisor, degree_eq_natDegree hr] at hq
        rw [degree_eq_natDegree hr]
        norm_cast at hq ⊢
        omega
      rw [eq_C_of_degree_le_zero hdegree] at hr ⊢
      rcases hbit (r.coeff 0) with h | h
      · rw [h, C_0] at hr
        exact absurd rfl hr
      · right
        rw [h, C_1, mul_one]
  · rintro (rfl | rfl)
    · exact dvd_zero _
    · exact dvd_rfl

/-! ## Errors -/

section Errors

variable {c : Parameters w} (hg : c.generator.getLsbD 0 = true)
include hg

theorem check_eq_iff {u v : List Bool} (hlen : u.length = v.length) :
    check c u = check c v ↔ divisor c.generator ∣ message u + message v := by
  have hmonic := divisor_monic c.generator
  have hcheck : check c u = check c v ↔
      toPoly (check c u ^^^ c.complement).reverse = toPoly (check c v ^^^ c.complement).reverse := by
    refine ⟨fun h => by rw [h], fun h => ?_⟩
    have hrev := congrArg BitVec.reverse (toPoly_injective h)
    rw [BitVec.reverse_reverse_eq, BitVec.reverse_reverse_eq] at hrev
    exact (BitVec.xor_left_inj c.complement).mp hrev
  rw [hcheck, toPoly_check, toPoly_check, hlen, ← sub_eq_zero, ← sub_modByMonic,
    modByMonic_eq_zero_iff_dvd hmonic, add_sub_add_left_eq_sub, ← sub_mul,
    divisor_dvd_mul_X_pow hg, CharTwo.sub_eq_add]

/-- Two flipped bits keep the check exactly if their distance is a multiple of the order
of `X`. -/
theorem check_two_flips_iff {bits : List Bool} {n m : Nat} (hnm : n < m) (hm : m < bits.length) :
    check c ((bits.modify n not).modify m not) = check c bits ↔
      orderOf (AdjoinRoot.root (divisor c.generator)) ∣ m - n := by
  have hpowers : message ((bits.modify n not).modify m not) + message bits =
      (X ^ (m - n) - 1) * X ^ (bits.length - 1 - m) := by
    have hn : n < bits.length := hnm.trans hm
    have hm' : m < (bits.modify n not).length := by rwa [List.length_modify]
    have hexp : bits.length - 1 - n = (m - n) + (bits.length - 1 - m) := by omega
    have htwice := CharTwo.add_self_eq_zero (message bits + X ^ (bits.length - 1 - m))
    rw [message_modify hm', message_modify hn, List.length_modify, hexp, pow_add]
    linear_combination htwice
  rw [check_eq_iff hg (by simp), hpowers, divisor_dvd_mul_X_pow hg, ← AdjoinRoot.mk_eq_zero, map_sub,
    map_pow, map_one, AdjoinRoot.mk_X, sub_eq_zero, orderOf_dvd_iff_pow_eq_one]

/-- In a window of one bit more than the register, the generator is the only error that
keeps the check. -/
theorem check_window_iff (p s : List Bool) {u v : List Bool} (hlen : u.length = v.length)
    (hle : u.length ≤ w + 1) :
    check c (p ++ u ++ s) = check c (p ++ v ++ s) ↔
      u = v ∨ List.zipWith xor u v = divisorBits c.generator := by
  have hsum : message (p ++ u ++ s) + message (p ++ v ++ s) =
      message (List.zipWith xor u v) * X ^ s.length := by
    have htwice := CharTwo.add_self_eq_zero (message p * X ^ v.length * X ^ s.length + message s)
    rw [message_zipWith_xor hlen, message_append, message_append, message_append, message_append,
      hlen]
    linear_combination htwice
  have hzip : (List.zipWith xor u v).length = u.length := by
    rw [List.length_zipWith, hlen, Nat.min_self]
  have hzero : message (List.zipWith xor u v) = 0 ↔ u = v := by
    rw [message_zipWith_xor hlen, CharTwo.add_eq_zero]
    exact ⟨message_injective hlen, congrArg message⟩
  have hwhole : message (List.zipWith xor u v) = divisor c.generator ↔
      List.zipWith xor u v = divisorBits c.generator := by
    rw [← message_divisorBits]
    refine ⟨fun h => message_injective ?_ h, congrArg message⟩
    -- the degree of the generator needs the whole window
    have hdegree := degree_message_lt (List.zipWith xor u v)
    rw [h, message_divisorBits, degree_divisor, Nat.cast_lt, hzip] at hdegree
    rw [hzip, divisorBits, List.length_cons, bitsDown_length]
    omega
  have hsmall : (message (List.zipWith xor u v)).degree ≤ w := by
    rw [degree_le_iff_coeff_zero]
    intro n hn
    refine coeff_eq_zero_of_degree_lt (lt_of_lt_of_le (degree_message_lt _) ?_)
    rw [hzip]
    norm_cast at hn ⊢
    omega
  rw [check_eq_iff hg (by simp [hlen]), hsum, divisor_dvd_mul_X_pow hg, divisor_dvd_iff hsmall,
    hzero, hwhole]

end Errors

end Crc
