import Mathlib.Data.List.Basic

/-!
# Cyclic redundancy checks, bit by bit

A register of `w` bits divides a stream of bits by a generator whose leading term
is left out. `shiftIn` is the division as it is written on paper, highest power
first; `shiftOut` is its mirror image, the form software uses. Mirrored, several
bits can be added to the register at once and shifted out later, and with a
constant term in the generator no burst of up to `w` bits is lost.
-/

namespace Crc

variable {w : Nat}

def shiftIn (g r : BitVec w) (b : Bool) : BitVec w :=
  (r <<< 1) ^^^ (if r.msb ^^ b then g else 0#w)

def shiftOut (g r : BitVec w) : BitVec w :=
  (r >>> 1) ^^^ (if r.getLsbD 0 then g else 0#w)

def shifts (g : BitVec w) : Nat → BitVec w → BitVec w
  | 0, r => r
  | n + 1, r => shifts g n (shiftOut g r)

def low (b : Bool) : BitVec w := (BitVec.ofBool b).setWidth w

/-- Bits side by side, the first one lowest. -/
def word : List Bool → BitVec w
  | [] => 0#w
  | b :: bs => low b ^^^ (word bs <<< 1)

def feed (g r : BitVec w) (bits : List Bool) : BitVec w :=
  bits.foldl (fun r b => shiftOut g (r ^^^ low b)) r

/-- What a check with mirrored input and output is made of, in the order of the
bits on paper. -/
structure Parameters (w : Nat) where
  generator : BitVec w
  start : BitVec w
  complement : BitVec w

/-- The check of a stream, one bit at a time. -/
def check (p : Parameters w) (bits : List Bool) : BitVec w :=
  (bits.foldl (shiftIn p.generator) p.start).reverse ^^^ p.complement

/-! ## Single bits -/

@[simp] theorem getLsbD_low (b : Bool) (i : Nat) :
    (low b : BitVec w).getLsbD i = (decide (i < w) && (decide (i = 0) && b)) := by
  simp [low, BitVec.getLsbD_ofBool]

theorem getLsbD_shiftOut (g r : BitVec w) (i : Nat) :
    (shiftOut g r).getLsbD i = (r.getLsbD (i + 1) ^^ (r.getLsbD 0 && g.getLsbD i)) := by
  rw [shiftOut, BitVec.getLsbD_xor, BitVec.getLsbD_ushiftRight, Nat.add_comm 1 i]
  cases r.getLsbD 0 <;> simp

theorem getLsbD_word (bits : List Bool) (i : Nat) :
    (word bits : BitVec w).getLsbD i = (decide (i < w) && bits.getD i false) := by
  induction bits generalizing i with
  | nil => simp [word]
  | cons b bs ih =>
      rw [word, BitVec.getLsbD_xor, getLsbD_low, BitVec.getLsbD_shiftLeft]
      cases i with
      | zero => simp
      | succ i =>
          rw [Nat.add_sub_cancel, ih]
          by_cases hi : i + 1 < w
          · simp [hi, Nat.lt_of_succ_lt hi]
          · simp [hi]

theorem word_injective {u v : List Bool} (hlen : u.length = v.length) (hw : u.length ≤ w)
    (h : (word u : BitVec w) = word v) : u = v := by
  refine List.ext_getElem hlen fun i hu hv => ?_
  have hi := congrArg (fun x => x.getLsbD i) h
  simp only [getLsbD_word, show i < w by omega, decide_true, Bool.true_and] at hi
  simpa [List.getD_eq_getElem?_getD, List.getElem?_eq_getElem, hu, hv] using hi

/-! ## Mirror images -/

theorem getLsbD_reverse_of_lt (x : BitVec w) {i : Nat} (hi : i < w) :
    x.reverse.getLsbD i = x.getLsbD (w - 1 - i) := by
  rw [BitVec.getLsbD_reverse, BitVec.getMsbD_eq_getLsbD, decide_eq_true hi, Bool.true_and]

theorem getLsbD_shiftIn (g r : BitVec w) (b : Bool) {i : Nat} (hi : i < w) :
    (shiftIn g r b).getLsbD i =
      ((decide (0 < i) && r.getLsbD (i - 1)) ^^ ((r.msb ^^ b) && g.getLsbD i)) := by
  rw [shiftIn, BitVec.getLsbD_xor, BitVec.getLsbD_shiftLeft]
  have hpos : (!decide (i < 1)) = decide (0 < i) := by
    by_cases h : 0 < i
    · simp [h, show ¬i < 1 by omega]
    · simp [h, show i < 1 by omega]
  rw [decide_eq_true hi, Bool.true_and, hpos]
  split
  next h => rw [h, Bool.true_and]
  next h => simp [h]

/-- The two registers do the same, seen from opposite ends. -/
theorem reverse_shiftOut (g r : BitVec w) (b : Bool) :
    (shiftOut g (r ^^^ low b)).reverse = shiftIn g.reverse r.reverse b := by
  apply BitVec.eq_of_getLsbD_eq
  intro i hi
  have hmsb : r.reverse.msb = r.getLsbD 0 := by
    rw [BitVec.msb_eq_getLsbD_last, getLsbD_reverse_of_lt r (by omega), Nat.sub_self]
  rw [getLsbD_reverse_of_lt _ hi, getLsbD_shiftOut, getLsbD_shiftIn _ _ _ hi, hmsb,
    getLsbD_reverse_of_lt g hi]
  simp only [BitVec.getLsbD_xor, getLsbD_low]
  cases i with
  | zero =>
      have hlast : r.getLsbD (w - 1 + 1) = false := BitVec.getLsbD_of_ge _ _ (by omega)
      simp [hlast, hi]
  | succ i =>
      have hprev : r.reverse.getLsbD i = r.getLsbD (w - 1 - (i + 1) + 1) := by
        rw [getLsbD_reverse_of_lt r (by omega)]
        congr 1
        omega
      simp [hprev, show 0 < w by omega]

/-- So a mirrored stream computes the check. -/
theorem reverse_feed (g r : BitVec w) (bits : List Bool) :
    (feed g r bits).reverse = bits.foldl (shiftIn g.reverse) r.reverse := by
  induction bits generalizing r with
  | nil => rfl
  | cons b bs ih => exact (ih _).trans (by rw [reverse_shiftOut]; rfl)

/-! ## Several bits at once -/

theorem shiftOut_xor (g x y : BitVec w) :
    shiftOut g (x ^^^ y) = shiftOut g x ^^^ shiftOut g y := by
  apply BitVec.eq_of_getLsbD_eq
  intro i _
  simp only [getLsbD_shiftOut, BitVec.getLsbD_xor]
  cases x.getLsbD 0 <;> cases y.getLsbD 0 <;> cases g.getLsbD i <;> simp

theorem shifts_xor (g : BitVec w) (n : Nat) (x y : BitVec w) :
    shifts g n (x ^^^ y) = shifts g n x ^^^ shifts g n y := by
  induction n generalizing x y with
  | zero => rfl
  | succ n ih => simp only [shifts, shiftOut_xor, ih]

theorem shiftOut_shiftLeft_one (g : BitVec w) {y : BitVec w} (hy : y.getLsbD (w - 1) = false) :
    shiftOut g (y <<< 1) = y := by
  apply BitVec.eq_of_getLsbD_eq
  intro i hi
  rw [getLsbD_shiftOut, BitVec.getLsbD_shiftLeft, BitVec.getLsbD_shiftLeft]
  by_cases hlast : i + 1 < w
  · simp [hlast]
  · have hlast' : y.getLsbD i = false := by rwa [show i = w - 1 by omega]
    simp [hlast, hlast']

theorem shifts_shiftLeft (g : BitVec w) (n : Nat) {y : BitVec w}
    (hy : ∀ i, w ≤ i + n → y.getLsbD i = false) : shifts g n (y <<< n) = y := by
  induction n generalizing y with
  | zero => rw [shifts, BitVec.shiftLeft_zero]
  | succ n ih =>
      have hlast : (y <<< n).getLsbD (w - 1) = false := by
        rw [BitVec.getLsbD_shiftLeft, hy (w - 1 - n) (by omega), Bool.and_false]
      rw [shifts, BitVec.shiftLeft_add, shiftOut_shiftLeft_one g hlast]
      exact ih fun i hi => hy i (by omega)

/-- A list of bits may be added to the register as one word and shifted out later. -/
theorem feed_eq_shifts (g r : BitVec w) {bits : List Bool} (h : bits.length ≤ w) :
    feed g r bits = shifts g bits.length (r ^^^ word bits) := by
  induction bits generalizing r with
  | nil => simp [feed, shifts, word]
  | cons b bs ih =>
      rw [List.length_cons] at h
      have hlast : (word bs : BitVec w).getLsbD (w - 1) = false := by
        rw [getLsbD_word]
        simp [List.getD_eq_getElem?_getD, show bs.length ≤ w - 1 by omega]
      calc
        feed g r (b :: bs) = feed g (shiftOut g (r ^^^ low b)) bs := rfl
        _ = shifts g bs.length (shiftOut g (r ^^^ low b) ^^^ word bs) := ih _ (by omega)
        _ = shifts g bs.length (shiftOut g (r ^^^ low b ^^^ (word bs <<< 1))) := by
          rw [shiftOut_xor g (r ^^^ low b), shiftOut_shiftLeft_one g hlast]
        _ = shifts g (b :: bs).length (r ^^^ word (b :: bs)) := by
          rw [List.length_cons, shifts, word, BitVec.xor_assoc]

theorem feed_append (g r : BitVec w) (u v : List Bool) :
    feed g r (u ++ v) = feed g (feed g r u) v :=
  List.foldl_append

/-! ## Bursts -/

section Bursts

variable {g : BitVec w} (hg : g.msb = true)
include hg

theorem shiftOut_injective {x y : BitVec w} (h : shiftOut g x = shiftOut g y) : x = y := by
  have hpos : 0 < w := by
    rcases Nat.eq_zero_or_pos w with rfl | hpos
    · simp [BitVec.msb_eq_getLsbD_last] at hg
    · exact hpos
  have hbits : ∀ i, (x.getLsbD (i + 1) ^^ (x.getLsbD 0 && g.getLsbD i)) =
      (y.getLsbD (i + 1) ^^ (y.getLsbD 0 && g.getLsbD i)) := fun i => by
    rw [← getLsbD_shiftOut, ← getLsbD_shiftOut, h]
  -- the top bit of the result is the bit that went out
  have hlow : x.getLsbD 0 = y.getLsbD 0 := by
    have htop := hbits (w - 1)
    rw [BitVec.msb_eq_getLsbD_last] at hg
    rw [hg, BitVec.getLsbD_of_ge x _ (by omega), BitVec.getLsbD_of_ge y _ (by omega)] at htop
    simpa using htop
  apply BitVec.eq_of_getLsbD_eq
  intro i _
  cases i with
  | zero => exact hlow
  | succ i =>
      have hi := hbits i
      rw [hlow] at hi
      simpa using hi

theorem shifts_injective {n : Nat} {x y : BitVec w} (h : shifts g n x = shifts g n y) :
    x = y := by
  induction n generalizing x y with
  | zero => exact h
  | succ n ih => exact shiftOut_injective hg (ih h)

theorem feed_injective {x y : BitVec w} (bits : List Bool) (h : feed g x bits = feed g y bits) :
    x = y := by
  induction bits generalizing x y with
  | nil => exact h
  | cons b bs ih => exact (BitVec.xor_left_inj (low b)).mp (shiftOut_injective hg (ih h))

/-- Streams that differ only within a window no longer than the register end differently. -/
theorem feed_burst (r : BitVec w) {u v : List Bool} (s : List Bool) (hlen : u.length = v.length)
    (hw : u.length ≤ w) (hne : u ≠ v) : feed g r (u ++ s) ≠ feed g r (v ++ s) := by
  intro h
  rw [feed_append, feed_append] at h
  have hwindow := feed_injective hg s h
  rw [feed_eq_shifts g r hw, feed_eq_shifts g r (hlen ▸ hw), hlen] at hwindow
  have hword : (word u : BitVec w) = word v :=
    (BitVec.xor_right_inj r).mp (shifts_injective hg hwindow)
  exact hne (word_injective hlen hw hword)

end Bursts

end Crc
