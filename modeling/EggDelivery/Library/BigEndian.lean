import Mathlib.Data.Nat.Bitwise
import Mathlib.Data.Nat.Digits.Lemmas

/-!
# Big-endian words and hexadecimal text

A 32-bit word is cut into four bytes, most significant first, and put together
again by shifts. Both directions are described by their values as naturals, so
that clients can finish with linear arithmetic. The last section is the padded
lower-case hexadecimal form of a word.
-/

namespace BigEndian

def byteAt (w : UInt32) (k : UInt32) : UInt8 := ((w >>> k) &&& 0xFF).toUInt8

def bytes (w : UInt32) : List UInt8 :=
  [byteAt w 24, byteAt w 16, byteAt w 8, (w &&& 0xFF).toUInt8]

def join (a b c d : UInt8) : UInt32 :=
  (a.toUInt32 <<< 24) ||| (b.toUInt32 <<< 16) ||| (c.toUInt32 <<< 8) ||| d.toUInt32

@[simp] theorem bytes_length (w : UInt32) : (bytes w).length = 4 := rfl

private theorem and_255 (n : Nat) : n &&& 255 = n % 256 :=
  Nat.and_two_pow_sub_one_eq_mod n 8

theorem low_toNat (w : UInt32) : ((w &&& 0xFF).toUInt8).toNat = w.toNat % 256 := by
  simp [UInt32.toNat_toUInt8, and_255]

theorem byteAt_toNat (w k : UInt32) (hk : k.toNat < 32) :
    (byteAt w k).toNat = w.toNat / 2 ^ k.toNat % 256 := by
  rw [byteAt, low_toNat, UInt32.toNat_shiftRight, Nat.mod_eq_of_lt hk, Nat.shiftRight_eq_div_pow]

theorem join_toNat (a b c d : UInt8) :
    (join a b c d).toNat = a.toNat * 2 ^ 24 + b.toNat * 2 ^ 16 + c.toNat * 2 ^ 8 + d.toNat := by
  have ha := a.toNat_lt
  have hb := b.toNat_lt
  have hc := c.toNat_lt
  have hd := d.toNat_lt
  have h24 : (a.toUInt32 <<< 24).toNat = a.toNat <<< 24 := by
    simp [UInt32.toNat_shiftLeft, Nat.shiftLeft_eq]
    omega
  have h16 : (b.toUInt32 <<< 16).toNat = b.toNat <<< 16 := by
    simp [UInt32.toNat_shiftLeft, Nat.shiftLeft_eq]
    omega
  have h8 : (c.toUInt32 <<< 8).toNat = c.toNat <<< 8 := by
    simp [UInt32.toNat_shiftLeft, Nat.shiftLeft_eq]
    omega
  -- the shifted bytes do not overlap, so each `or` is a sum
  have e1 : a.toNat <<< 24 ||| b.toNat <<< 16 = (a.toNat * 256 + b.toNat) <<< 16 := by
    rw [show a.toNat <<< 24 = (a.toNat * 256) <<< 16 by simp [Nat.shiftLeft_eq]; omega,
      ← Nat.shiftLeft_or_distrib, show a.toNat * 256 = a.toNat <<< 8 by simp [Nat.shiftLeft_eq],
      ← Nat.shiftLeft_add_eq_or_of_lt hb]
  have e2 : (a.toNat * 256 + b.toNat) <<< 16 ||| c.toNat <<< 8 =
      ((a.toNat * 256 + b.toNat) * 256 + c.toNat) <<< 8 := by
    rw [show (a.toNat * 256 + b.toNat) <<< 16 = ((a.toNat * 256 + b.toNat) <<< 8) <<< 8 by
        simp [Nat.shiftLeft_eq]; omega,
      ← Nat.shiftLeft_or_distrib, ← Nat.shiftLeft_add_eq_or_of_lt hc]
    simp [Nat.shiftLeft_eq]
  rw [join, UInt32.toNat_or, UInt32.toNat_or, UInt32.toNat_or, h24, h16, h8, e1, e2,
    UInt8.toNat_toUInt32, ← Nat.shiftLeft_add_eq_or_of_lt hd, Nat.shiftLeft_eq]
  ring

@[simp] theorem join_bytes (w : UInt32) :
    join (byteAt w 24) (byteAt w 16) (byteAt w 8) (w &&& 0xFF).toUInt8 = w := by
  apply UInt32.toNat_inj.mp
  have hw := w.toNat_lt
  rw [join_toNat, byteAt_toNat w 24 (by decide), byteAt_toNat w 16 (by decide),
    byteAt_toNat w 8 (by decide), low_toNat]
  simp only [show (24 : UInt32).toNat = 24 from rfl, show (16 : UInt32).toNat = 16 from rfl,
    show (8 : UInt32).toNat = 8 from rfl]
  omega

@[simp] theorem bytes_join (a b c d : UInt8) : bytes (join a b c d) = [a, b, c, d] := by
  have ha := a.toNat_lt
  have hb := b.toNat_lt
  have hc := c.toNat_lt
  have hd := d.toNat_lt
  simp only [bytes, List.cons.injEq, and_true]
  refine ⟨?_, ?_, ?_, ?_⟩ <;> apply UInt8.toNat_inj.mp
  · rw [byteAt_toNat _ 24 (by decide), join_toNat]
    simp only [show (24 : UInt32).toNat = 24 from rfl]
    omega
  · rw [byteAt_toNat _ 16 (by decide), join_toNat]
    simp only [show (16 : UInt32).toNat = 16 from rfl]
    omega
  · rw [byteAt_toNat _ 8 (by decide), join_toNat]
    simp only [show (8 : UInt32).toNat = 8 from rfl]
    omega
  · rw [low_toNat, join_toNat]
    omega

theorem bytes_injective {v w : UInt32} (h : bytes v = bytes w) : v = w := by
  simp only [bytes, List.cons.injEq, and_true] at h
  obtain ⟨h1, h2, h3, h4⟩ := h
  rw [← join_bytes v, h1, h2, h3, h4, join_bytes]

/-! ## Hexadecimal text -/

def hexDigit (d : Nat) : UInt8 := if d < 10 then UInt8.ofNat (48 + d) else UInt8.ofNat (87 + d)

def hexByte (b : UInt8) : List UInt8 := [hexDigit (b.toNat / 16), hexDigit (b.toNat % 16)]

/-- Digits without leading zeros, at least one. -/
def hexText (n : Nat) : List UInt8 :=
  if n = 0 then [hexDigit 0] else (Nat.digits 16 n).reverse.map hexDigit

def hexPadded (width n : Nat) : List UInt8 :=
  List.replicate (width - (hexText n).length) (hexDigit 0) ++ hexText n

theorem hexPadded_of_pos {width n : Nat} (hw : 0 < width) :
    hexPadded width n =
      ((Nat.digits 16 n ++
        List.replicate (width - (Nat.digits 16 n).length) 0).reverse).map hexDigit := by
  rcases Nat.eq_zero_or_pos n with rfl | hn
  · obtain ⟨k, rfl⟩ : ∃ k, width = k + 1 := ⟨width - 1, by omega⟩
    simp [hexPadded, hexText, ← List.replicate_succ', List.replicate_succ]
  · have hne : n ≠ 0 := by omega
    simp [hexPadded, hexText, hne]

private theorem digits_eight (w : UInt32) :
    Nat.digits 16 w.toNat ++ List.replicate (8 - (Nat.digits 16 w.toNat).length) 0 =
      [w.toNat % 16, w.toNat / 16 % 16, w.toNat / 256 % 16, w.toNat / 4096 % 16,
        w.toNat / 65536 % 16, w.toNat / 1048576 % 16, w.toNat / 16777216 % 16,
        w.toNat / 268435456 % 16] := by
  have hw : w.toNat < 16 ^ 8 := w.toNat_lt
  have hlen : (Nat.digits 16 w.toNat).length ≤ 8 := by
    rw [Nat.digits_length_le_iff (by decide)]
    exact hw
  apply Nat.ofDigits_inj_of_len_eq (b := 16) (by decide)
  · simp
    omega
  · intro d hd
    rcases List.mem_append.mp hd with hd | hd
    · exact Nat.digits_lt_base (by decide) hd
    · rw [List.eq_of_mem_replicate hd]
      decide
  · intro d hd
    simp only [List.mem_cons, List.not_mem_nil, or_false] at hd
    rcases hd with rfl | rfl | rfl | rfl | rfl | rfl | rfl | rfl <;> exact Nat.mod_lt _ (by decide)
  · rw [Nat.ofDigits_append_replicate_zero, Nat.ofDigits_digits]
    simp only [Nat.ofDigits_cons, Nat.ofDigits_nil]
    omega

theorem hexPadded_eight (w : UInt32) : hexPadded 8 w.toNat = (bytes w).flatMap hexByte := by
  have hw := w.toNat_lt
  have h24 := byteAt_toNat w 24 (by decide)
  have h16 := byteAt_toNat w 16 (by decide)
  have h8 := byteAt_toNat w 8 (by decide)
  have h0 := low_toNat w
  simp only [show (24 : UInt32).toNat = 24 from rfl] at h24
  simp only [show (16 : UInt32).toNat = 16 from rfl] at h16
  simp only [show (8 : UInt32).toNat = 8 from rfl] at h8
  rw [hexPadded_of_pos (by decide), digits_eight]
  simp only [bytes, hexByte, h24, h16, h8, h0, List.reverse_cons, List.reverse_nil, List.nil_append,
    List.cons_append, List.map_cons, List.map_nil, List.flatMap_cons, List.flatMap_nil,
    List.cons.injEq, and_true]
  refine ⟨?_, ?_, ?_, ?_, ?_, ?_, ?_, ?_⟩ <;> apply congrArg hexDigit <;> omega

end BigEndian
