import EggDelivery.Chunk.FileChunk
import EggDelivery.Library.CrcDivision
import EggDelivery.Library.Slices

/-!
# The table-driven CRC-32

`crc32` reads a table by whole bytes. A table entry is eight shifts of its index, a
shift is linear, and the bits above the index only move down; so one turn of the
loop feeds the eight bits of a byte, and the result is the check of the library.
-/

namespace EggDelivery

open Crc Polynomial

def ethernet : Parameters 32 where
  generator := 0x04C11DB7#32
  start := 0xFFFFFFFF#32
  complement := 0xFFFFFFFF#32

def bitsOf (b : UInt8) : List Bool := (List.range 8).map b.toBitVec.getLsbD

def wireBits (data : Bytes) : List Bool := data.flatMap bitsOf

@[simp] theorem bitsOf_length (b : UInt8) : (bitsOf b).length = 8 := rfl

theorem wireBits_cons (b : UInt8) (data : Bytes) :
    wireBits (b :: data) = bitsOf b ++ wireBits data :=
  List.flatMap_cons

theorem wireBits_length (data : Bytes) : (wireBits data).length = 8 * data.length := by
  induction data with
  | nil => rfl
  | cons b data ih =>
      rw [wireBits_cons, List.length_append, ih, bitsOf_length, List.length_cons]
      omega

theorem wireBits_append (u v : Bytes) : wireBits (u ++ v) = wireBits u ++ wireBits v :=
  List.flatMap_append

theorem bitsOf_injective {a b : UInt8} (h : bitsOf a = bitsOf b) : a = b := by
  apply UInt8.toBitVec_inj.mp
  apply BitVec.eq_of_getLsbD_eq
  intro i hi
  exact List.map_inj_left.mp h i (List.mem_range.mpr hi)

theorem wireBits_injective {u v : Bytes} (h : wireBits u = wireBits v) : u = v := by
  induction u generalizing v with
  | nil =>
      have hlen := congrArg List.length h
      rw [wireBits_length, wireBits_length, List.length_nil] at hlen
      exact (List.eq_nil_of_length_eq_zero (by omega)).symm
  | cons a u ih =>
      cases v with
      | nil =>
          have hlen := congrArg List.length h
          rw [wireBits_length, wireBits_length, List.length_cons, List.length_nil] at hlen
          omega
      | cons b v =>
          rw [wireBits_cons, wireBits_cons] at h
          obtain ⟨hbits, hrest⟩ := List.append_inj h rfl
          rw [bitsOf_injective hbits, ih hrest]

/-! ## The table -/

theorem and_one_ne_zero (crc : UInt32) : (crc &&& 1 != 0) = crc.toBitVec.getLsbD 0 := by
  have hnat : (crc &&& 1).toNat = crc.toNat % 2 := by
    rw [UInt32.toNat_and]
    exact Nat.and_one_is_mod _
  have hzero : crc &&& 1 = 0 ↔ crc.toNat % 2 = 0 := by
    rw [← UInt32.toNat_inj, hnat]
    rfl
  have hbit : crc.toBitVec.getLsbD 0 = decide (crc.toNat % 2 = 1) := by
    rw [BitVec.getLsbD, Nat.testBit_zero]
    rfl
  rw [hbit, bne, beq_eq_decide, ← decide_not]
  exact decide_eq_decide.mpr ((not_congr hzero).trans Nat.mod_two_ne_zero)

theorem crc32Shift_toBitVec (crc : UInt32) (n : Nat) :
    (crc32Shift crc n).toBitVec = shifts crc32Poly.toBitVec n crc.toBitVec := by
  induction n generalizing crc with
  | zero => rfl
  | succ n ih =>
      rw [crc32Shift, shifts, ih, shiftOut, and_one_ne_zero]
      cases crc.toBitVec.getLsbD 0 <;> rfl

theorem crc32Table_getD {i : Nat} (hi : i < 256) :
    crc32Table.getD i 0 = crc32Shift (UInt32.ofNat i) 8 := by
  simp [crc32Table, hi]

theorem word_bitsOf (b : UInt8) : (word (bitsOf b) : BitVec 32) = b.toUInt32.toBitVec := by
  apply BitVec.eq_of_getLsbD_eq
  intro i hi
  rw [getLsbD_word, decide_eq_true hi, Bool.true_and, UInt8.toBitVec_toUInt32,
    BitVec.getLsbD_setWidth, decide_eq_true hi, Bool.true_and]
  by_cases h8 : i < 8
  · simp [bitsOf, h8]
  · simp [bitsOf, h8, BitVec.getLsbD_of_ge b.toBitVec i (by omega)]

theorem split_low_byte (x : BitVec 32) : x = (x &&& 0xFF#32) ^^^ ((x >>> 8) <<< 8) := by
  have hmask : ∀ i < 32, (0xFF#32).getLsbD i = decide (i < 8) := by decide
  apply BitVec.eq_of_getLsbD_eq
  intro i hi
  rw [BitVec.getLsbD_xor, BitVec.getLsbD_and, hmask i hi, BitVec.getLsbD_shiftLeft,
    BitVec.getLsbD_ushiftRight]
  by_cases h8 : i < 8
  · simp [h8]
  · simp [h8, hi, show 8 + (i - 8) = i by omega]

/-- One turn of the loop feeds the bits of one byte. -/
theorem crc32Step_toBitVec (crc : UInt32) (byte : UInt8) :
    (crc32Step crc byte).toBitVec = feed crc32Poly.toBitVec crc.toBitVec (bitsOf byte) := by
  have hbyte : byte.toUInt32.toBitVec >>> 8 = 0#32 := by
    apply BitVec.eq_of_toNat_eq
    rw [BitVec.toNat_ushiftRight, UInt32.toNat_toBitVec, UInt8.toNat_toUInt32,
      Nat.shiftRight_eq_div_pow]
    exact Nat.div_eq_of_lt byte.toNat_lt
  have hrest : (crc.toBitVec ^^^ byte.toUInt32.toBitVec) >>> 8 = crc.toBitVec >>> 8 := by
    rw [BitVec.ushiftRight_xor_distrib, hbyte, BitVec.xor_zero]
  have hmoved : shifts crc32Poly.toBitVec 8 ((crc.toBitVec >>> 8) <<< 8) = crc.toBitVec >>> 8 :=
    shifts_shiftLeft _ 8 fun i hi => by
      rw [BitVec.getLsbD_ushiftRight]
      exact BitVec.getLsbD_of_ge _ _ (by omega)
  have hindex : ((crc ^^^ byte.toUInt32) &&& 0xFF).toNat < 256 := by
    rw [UInt32.toNat_and]
    exact lt_of_le_of_lt Nat.and_le_right (by decide)
  calc
    (crc32Step crc byte).toBitVec =
        (crc.toBitVec >>> 8) ^^^ shifts crc32Poly.toBitVec 8
          ((crc.toBitVec ^^^ byte.toUInt32.toBitVec) &&& 0xFF#32) := by
      rw [crc32Step, crc32Table_getD hindex, UInt32.ofNat_toNat, UInt32.toBitVec_xor,
        crc32Shift_toBitVec]
      rfl
    _ = shifts crc32Poly.toBitVec 8 (crc.toBitVec ^^^ byte.toUInt32.toBitVec) := by
      conv_rhs => rw [split_low_byte (crc.toBitVec ^^^ byte.toUInt32.toBitVec)]
      rw [shifts_xor, hrest, hmoved, BitVec.xor_comm]
    _ = feed crc32Poly.toBitVec crc.toBitVec (bitsOf byte) := by
      rw [feed_eq_shifts _ _ (by simp), word_bitsOf, bitsOf_length]

theorem foldl_crc32Step_toBitVec (crc : UInt32) (data : Bytes) :
    (data.foldl crc32Step crc).toBitVec =
      feed crc32Poly.toBitVec crc.toBitVec (wireBits data) := by
  induction data generalizing crc with
  | nil => rfl
  | cons b data ih =>
      rw [List.foldl_cons, ih, crc32Step_toBitVec, wireBits_cons, feed_append]

theorem crc32_toBitVec (data : Bytes) :
    (crc32 data).toBitVec =
      feed crc32Poly.toBitVec 0xFFFFFFFF#32 (wireBits data) ^^^ 0xFFFFFFFF#32 := by
  rw [crc32, UInt32.toBitVec_xor, foldl_crc32Step_toBitVec]
  rfl

/-! ## The standard -/

theorem crc32_eq_check (data : Bytes) : (crc32 data).toBitVec = check ethernet (wireBits data) := by
  have hgenerator : crc32Poly.toBitVec.reverse = ethernet.generator := by decide +kernel
  have hstart : (0xFFFFFFFF#32).reverse = ethernet.start := by decide +kernel
  have hfeed := reverse_feed crc32Poly.toBitVec 0xFFFFFFFF#32 (wireBits data)
  rw [hgenerator, hstart] at hfeed
  rw [crc32_toBitVec, check, ← hfeed, BitVec.reverse_reverse_eq]
  rfl

/-- The loop over the table computes the CRC-32 of Ethernet and gzip: bit by bit,
and as the remainder of the message by the generator over GF(2). -/
theorem crc32_standard (data : Bytes) :
    (crc32 data).toBitVec = check ethernet (wireBits data) ∧
      toPoly ((crc32 data).toBitVec ^^^ ethernet.complement).reverse =
        (toPoly ethernet.start * X ^ (8 * data.length) + message (wireBits data) * X ^ 32) %ₘ
          divisor ethernet.generator := by
  refine ⟨crc32_eq_check data, ?_⟩
  rw [crc32_eq_check, toPoly_check, wireBits_length]

/-! ## Bursts of four bytes -/

/-- A window of up to four bytes determines the rest of the sum. -/
theorem crc32_burst (p s : Bytes) {u v : Bytes} (hlen : u.length = v.length)
    (hle : u.length ≤ 4) (hne : u ≠ v) : crc32 (p ++ u ++ s) ≠ crc32 (p ++ v ++ s) := by
  intro h
  have hbits := congrArg UInt32.toBitVec h
  rw [crc32_toBitVec, crc32_toBitVec, BitVec.xor_left_inj] at hbits
  simp only [wireBits_append, List.append_assoc, feed_append _ _ (wireBits p)] at hbits
  refine feed_burst (by decide) _ (wireBits s) ?_ ?_ (fun heq => hne (wireBits_injective heq)) hbits
  · rw [wireBits_length, wireBits_length, hlen]
  · rw [wireBits_length]
    omega

theorem crc32_ne_of_window {xs ys : Bytes} {k : Nat} (hlen : xs.length = ys.length)
    (hne : xs ≠ ys) (h : ∀ i, xs[i]? ≠ ys[i]? → k ≤ i ∧ i < k + 4) : crc32 xs ≠ crc32 ys := by
  obtain ⟨p, u, v, s, rfl, rfl, huv, hu⟩ := Slices.exists_window hlen h
  refine crc32_burst p s huv hu fun heq => ?_
  rw [heq] at hne
  exact hne rfl

theorem crc32_set_ne {data : Bytes} {j : Nat} (hj : j < data.length) {b : UInt8}
    (hb : data[j]? ≠ some b) : crc32 (data.set j b) ≠ crc32 data := by
  refine crc32_ne_of_window (k := j) (by simp) (fun heq => ?_) fun i hi => ?_
  · exact hb (by rw [← heq, List.getElem?_set_self hj])
  · have hij : j = i := not_not.mp fun hne => hi (List.getElem?_set_ne hne)
    omega

end EggDelivery
