import EggDelivery.Library.BigEndian
import EggDelivery.Library.Slices

/-!
# SHA-256 after FIPS 180-4

Words are bit vectors with addition modulo `2 ^ 32`. The constants are not a
table: they are the first 32 bits of the fractional parts of the roots of the
first primes, as section 4.2.2 and section 5.3.3 introduce them. Padding is
section 5.1.1 and the hash computation is section 6.2.2.
-/

namespace Fips180

open Slices

abbrev Word := BitVec 32

/-! ## Functions and constants -/

def ch (x y z : Word) : Word := (x &&& y) ^^^ (~~~x &&& z)

def maj (x y z : Word) : Word := (x &&& y) ^^^ (x &&& z) ^^^ (y &&& z)

def bigSigma0 (x : Word) : Word := x.rotateRight 2 ^^^ x.rotateRight 13 ^^^ x.rotateRight 22

def bigSigma1 (x : Word) : Word := x.rotateRight 6 ^^^ x.rotateRight 11 ^^^ x.rotateRight 25

def smallSigma0 (x : Word) : Word := x.rotateRight 7 ^^^ x.rotateRight 18 ^^^ (x >>> 3)

def smallSigma1 (x : Word) : Word := x.rotateRight 17 ^^^ x.rotateRight 19 ^^^ (x >>> 10)

/-- Search the `k`-th root of `n` from bit `i` downward, starting at `r`. -/
def rootBits (k n : Nat) : Nat → Nat → Nat
  | 0, r => r
  | i + 1, r => rootBits k n i (if (r + 2 ^ i) ^ k ≤ n then r + 2 ^ i else r)

/-- The first 32 bits of the fractional part of the `k`-th root of `p`. The
integer part takes at most five more bits for the primes used here. -/
def rootFraction (k p : Nat) : Word := BitVec.ofNat 32 (rootBits k (p * 2 ^ (32 * k)) 37 0)

def primes : List Nat :=
  [2, 3, 5, 7, 11, 13, 17, 19, 23, 29, 31, 37, 41, 43, 47, 53, 59, 61, 67, 71, 73, 79, 83, 89, 97,
    101, 103, 107, 109, 113, 127, 131, 137, 139, 149, 151, 157, 163, 167, 173, 179, 181, 191, 193,
    197, 199, 211, 223, 227, 229, 233, 239, 241, 251, 257, 263, 269, 271, 277, 281, 283, 293, 307,
    311]

/-- They are the numbers from 2 to 311 without a smaller divisor above one. -/
example : primes =
    (List.range' 2 310).filter fun n => (List.range' 2 (n - 2)).all fun d => n % d ≠ 0 := by
  decide +kernel

/-- `K_t`: cube roots. -/
def roundConstant (t : Nat) : Word := rootFraction 3 (primes.getD t 0)

structure Registers where
  a : Word
  b : Word
  c : Word
  d : Word
  e : Word
  f : Word
  g : Word
  h : Word
deriving DecidableEq

/-- `H^(0)`: square roots of the first eight primes. -/
def initial : Registers where
  a := rootFraction 2 2
  b := rootFraction 2 3
  c := rootFraction 2 5
  d := rootFraction 2 7
  e := rootFraction 2 11
  f := rootFraction 2 13
  g := rootFraction 2 17
  h := rootFraction 2 19

/-! ## Padding -/

/-- The smallest number of zero bytes that completes a block of 64. -/
def paddingZeros (size : Nat) : Nat := (119 - size % 64) % 64

def lengthBytes (bits : Nat) : List UInt8 :=
  (List.range 8).map fun i => UInt8.ofNat (bits / 256 ^ (7 - i))

def pad (message : List UInt8) : List UInt8 :=
  message ++ 0x80 :: (List.replicate (paddingZeros message.length) 0 ++
    lengthBytes (8 * message.length))

/-! ## Hash computation -/

def blockWord (block : List UInt8) (t : Nat) : Word :=
  (block.getD (4 * t) 0).toBitVec ++ (block.getD (4 * t + 1) 0).toBitVec ++
    (block.getD (4 * t + 2) 0).toBitVec ++ (block.getD (4 * t + 3) 0).toBitVec

/-- The message schedule `W_t`. -/
def schedule (m : Nat → Word) (t : Nat) : Word :=
  if t < 16 then m t
  else
    smallSigma1 (schedule m (t - 2)) + schedule m (t - 7) + smallSigma0 (schedule m (t - 15)) +
      schedule m (t - 16)
termination_by t

theorem schedule_of_lt (m : Nat → Word) {t : Nat} (ht : t < 16) : schedule m t = m t := by
  rw [schedule, if_pos ht]

theorem schedule_of_le (m : Nat → Word) {t : Nat} (ht : 16 ≤ t) :
    schedule m t =
      smallSigma1 (schedule m (t - 2)) + schedule m (t - 7) + smallSigma0 (schedule m (t - 15)) +
        schedule m (t - 16) := by
  rw [schedule, if_neg (by omega)]

def round (k w : Word) (r : Registers) : Registers :=
  let t1 := r.h + bigSigma1 r.e + ch r.e r.f r.g + k + w
  let t2 := bigSigma0 r.a + maj r.a r.b r.c
  ⟨t1 + t2, r.a, r.b, r.c, r.d + t1, r.e, r.f, r.g⟩

def Registers.add (x y : Registers) : Registers :=
  ⟨x.a + y.a, x.b + y.b, x.c + y.c, x.d + y.d, x.e + y.e, x.f + y.f, x.g + y.g, x.h + y.h⟩

def rounds (n : Nat) (m : Nat → Word) (r : Registers) : Registers :=
  (List.range n).foldl (fun r t => round (roundConstant t) (schedule m t) r) r

def compress (value : Registers) (block : List UInt8) : Registers :=
  value.add (rounds 64 (blockWord block) value)

def hashValue (message : List UInt8) : Registers := absorb 64 compress initial (pad message)

theorem rounds_succ (n : Nat) (m : Nat → Word) (r : Registers) :
    rounds (n + 1) m r = round (roundConstant n) (schedule m n) (rounds n m r) := by
  simp [rounds, List.range_succ]

/-! ## Output -/

def Registers.words (r : Registers) : List Word := [r.a, r.b, r.c, r.d, r.e, r.f, r.g, r.h]

def digest (message : List UInt8) : List UInt8 :=
  (hashValue message).words.flatMap fun w => BigEndian.bytes ⟨w⟩

def hexDigest (message : List UInt8) : List UInt8 :=
  (digest message).flatMap BigEndian.hexByte

@[simp] theorem digest_length (message : List UInt8) : (digest message).length = 32 := by
  simp [digest, Registers.words]

@[simp] theorem hexDigest_length (message : List UInt8) : (hexDigest message).length = 64 := by
  have h : ∀ bs : List UInt8, (bs.flatMap BigEndian.hexByte).length = 2 * bs.length := by
    intro bs
    induction bs with
    | nil => rfl
    | cons b bs ih =>
        rw [List.flatMap_cons, List.length_append, ih, List.length_cons]
        simp [BigEndian.hexByte]
        omega
  rw [hexDigest, h, digest_length]

end Fips180
