import EggDelivery.Hash.Sha256
import EggDelivery.Library.Fips180

/-!
# The block transform is the FIPS 180-4 compression function

Machine words are read as bit vectors. The constant tables, the message schedule
and the round loop are matched one after the other, and `transform_spec` puts
them together for every chaining state and every block.
-/

namespace EggDelivery.SHA256

open Fips180 BigEndian

def regs (state : Vector UInt32 8) : Registers :=
  ⟨(state.get 0).toBitVec, (state.get 1).toBitVec, (state.get 2).toBitVec, (state.get 3).toBitVec,
    (state.get 4).toBitVec, (state.get 5).toBitVec, (state.get 6).toBitVec,
    (state.get 7).toBitVec⟩

def Working.regs (v : Working) : Registers :=
  ⟨v.a.toBitVec, v.b.toBitVec, v.c.toBitVec, v.d.toBitVec, v.e.toBitVec, v.f.toBitVec,
    v.g.toBitVec, v.h.toBitVec⟩

/-! ## Constants -/

theorem sha256K_spec : ∀ t < 64, (sha256K.getD t 0).toBitVec = roundConstant t := by
  decide +kernel

theorem regs_init : regs init.state = initial := by
  decide +kernel

/-! ## Word functions -/

theorem rotr32_toBitVec (x n : UInt32) (hpos : 0 < n.toNat) (hlt : n.toNat < 32) :
    (rotr32 x n).toBitVec = x.toBitVec.rotateRight n.toNat := by
  have hsub : (32 - n).toNat = 32 - n.toNat := by
    rw [UInt32.toNat_sub_of_le]
    · rfl
    · exact UInt32.le_iff_toNat_le.mpr (by simpa using Nat.le_of_lt hlt)
  have hright : (x >>> n).toBitVec = x.toBitVec >>> n.toNat := by
    apply BitVec.eq_of_toNat_eq
    simp [UInt32.toNat_toBitVec, Nat.mod_eq_of_lt hlt]
  have hleft : (x <<< (32 - n)).toBitVec = x.toBitVec <<< (32 - n.toNat) := by
    apply BitVec.eq_of_toNat_eq
    simp only [UInt32.toNat_toBitVec, UInt32.toNat_shiftLeft, hsub, BitVec.toNat_shiftLeft]
    rw [Nat.mod_eq_of_lt (show 32 - n.toNat < 32 by omega)]
  rw [rotr32, UInt32.toBitVec_or, hright, hleft, BitVec.rotateRight_def, Nat.mod_eq_of_lt hlt]

theorem shaS0_toBitVec (x : UInt32) : (shaS0 x).toBitVec = bigSigma0 x.toBitVec := by
  simp only [shaS0, bigSigma0, UInt32.toBitVec_xor]
  rw [rotr32_toBitVec x 2 (by decide) (by decide), rotr32_toBitVec x 13 (by decide) (by decide),
    rotr32_toBitVec x 22 (by decide) (by decide)]
  rfl

theorem shaS1_toBitVec (x : UInt32) : (shaS1 x).toBitVec = bigSigma1 x.toBitVec := by
  simp only [shaS1, bigSigma1, UInt32.toBitVec_xor]
  rw [rotr32_toBitVec x 6 (by decide) (by decide), rotr32_toBitVec x 11 (by decide) (by decide),
    rotr32_toBitVec x 25 (by decide) (by decide)]
  rfl

theorem shaSmallS0_toBitVec (x : UInt32) : (shaSmallS0 x).toBitVec = smallSigma0 x.toBitVec := by
  simp only [shaSmallS0, smallSigma0, UInt32.toBitVec_xor]
  rw [rotr32_toBitVec x 7 (by decide) (by decide), rotr32_toBitVec x 18 (by decide) (by decide)]
  rfl

theorem shaSmallS1_toBitVec (x : UInt32) : (shaSmallS1 x).toBitVec = smallSigma1 x.toBitVec := by
  simp only [shaSmallS1, smallSigma1, UInt32.toBitVec_xor]
  rw [rotr32_toBitVec x 17 (by decide) (by decide), rotr32_toBitVec x 19 (by decide) (by decide)]
  rfl

theorem shaCh_toBitVec (x y z : UInt32) :
    (shaCh x y z).toBitVec = ch x.toBitVec y.toBitVec z.toBitVec := by
  simp [shaCh, ch]

theorem shaMaj_toBitVec (x y z : UInt32) :
    (shaMaj x y z).toBitVec = maj x.toBitVec y.toBitVec z.toBitVec := by
  simp [shaMaj, maj]

/-! ## Message schedule -/

theorem join_toBitVec (a b c d : UInt8) :
    (join a b c d).toBitVec = a.toBitVec ++ b.toBitVec ++ c.toBitVec ++ d.toBitVec := by
  have hb := b.toNat_lt
  have hc := c.toNat_lt
  have hd := d.toNat_lt
  apply BitVec.eq_of_toNat_eq
  rw [UInt32.toNat_toBitVec, join_toNat]
  simp only [BitVec.toNat_append, UInt8.toNat_toBitVec]
  rw [← Nat.shiftLeft_add_eq_or_of_lt hb, ← Nat.shiftLeft_add_eq_or_of_lt hc,
    ← Nat.shiftLeft_add_eq_or_of_lt hd]
  simp only [Nat.shiftLeft_eq]
  ring

theorem loadWords_getD (block : Bytes) {t : Nat} (ht : t < 16) :
    ((loadWords block).getD t 0).toBitVec = blockWord block t := by
  rw [List.getD_eq_getElem _ _ (by simpa [loadWords] using ht)]
  simp only [loadWords, List.getElem_map, List.getElem_range, join_toBitVec, blockWord,
    Nat.mul_comm t 4]

@[simp] theorem extendWords_length (w : List UInt32) (n : Nat) :
    (extendWords w n).length = w.length + n := by
  induction n with
  | zero => rfl
  | succ n ih => simp [extendWords, ih, Nat.add_assoc]

/-- After `n` turns of the extension loop every entry there is the `W_t` of the
standard. -/
theorem extendWords_getD (block : Bytes) (n t : Nat) (ht : t < 16 + n) :
    ((extendWords (loadWords block) n).getD t 0).toBitVec = schedule (blockWord block) t := by
  induction n generalizing t with
  | zero => rw [extendWords, loadWords_getD block ht, schedule_of_lt _ ht]
  | succ n ih =>
      have hlen : (extendWords (loadWords block) n).length = 16 + n := by
        rw [extendWords_length]
        simp [loadWords]
      rw [extendWords]
      by_cases hlast : t < 16 + n
      · rw [List.getD_append _ _ _ _ (by rw [hlen]; exact hlast), ih t hlast]
      · obtain rfl : t = 16 + n := by omega
        rw [List.getD_append_right _ _ _ _ (by rw [hlen]), hlen, Nat.sub_self,
          schedule_of_le _ (by omega), ← ih (16 + n - 2) (by omega), ← ih (16 + n - 7) (by omega),
          ← ih (16 + n - 15) (by omega), ← ih (16 + n - 16) (by omega), ← shaSmallS0_toBitVec,
          ← shaSmallS1_toBitVec]
        rfl

/-! ## Rounds -/

theorem round_regs (k w : UInt32) (v : Working) :
    (round k w v).regs = Fips180.round k.toBitVec w.toBitVec v.regs := by
  simp [round, Fips180.round, Working.regs, shaS0_toBitVec, shaS1_toBitVec, shaCh_toBitVec,
    shaMaj_toBitVec]

theorem roundLoop_regs (block : Bytes) (v : Working) (n : Nat) (hn : n ≤ 64) :
    (roundLoop n (extendWords (loadWords block) 48) v).regs =
      rounds n (blockWord block) v.regs := by
  induction n with
  | zero => rfl
  | succ n ih =>
      have hstep : roundLoop (n + 1) (extendWords (loadWords block) 48) v =
          round (sha256K.getD n 0) ((extendWords (loadWords block) 48).getD n 0)
            (roundLoop n (extendWords (loadWords block) 48) v) := by
        simp [roundLoop, List.range_succ]
      rw [hstep, round_regs, ih (by omega), rounds_succ, sha256K_spec n (by omega),
        extendWords_getD block 48 n (by omega)]

/-- The transform of one block, for every chaining state. -/
theorem transform_spec (state : Vector UInt32 8) (block : Bytes) :
    regs (transform state block) = compress (regs state) block := by
  have h := roundLoop_regs block
    ⟨state[0], state[1], state[2], state[3], state[4], state[5], state[6], state[7]⟩ 64
    (Nat.le_refl _)
  rw [compress]
  change _ = (regs state).add (rounds 64 (blockWord block) (Working.regs
    ⟨state[0], state[1], state[2], state[3], state[4], state[5], state[6], state[7]⟩))
  rw [← h]
  simp [regs, transform, Working.regs, Registers.add, Vector.get]

end EggDelivery.SHA256
