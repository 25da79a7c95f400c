import Mathlib.Data.List.Basic
import Mathlib.Tactic.Ring

/-!
# Fixed-width slices of a list

`slice n i xs` is the `i`-th window of width `n`; only the last window of a list
may be shorter. `absorb` folds a compression function over the whole windows and
ignores what is left, which is `remainder`. The append laws below let a consumer
process a list piece by piece and still speak about the whole.
-/

namespace Slices

variable {α σ : Type*}

def slice (n i : Nat) (xs : List α) : List α := (xs.drop (i * n)).take n

def slices (n k : Nat) (xs : List α) : List (List α) :=
  (List.range k).map fun i => slice n i xs

def remainder (n : Nat) (xs : List α) : List α := xs.drop (xs.length / n * n)

@[simp] theorem slices_length (n k : Nat) (xs : List α) : (slices n k xs).length = k := by
  simp [slices]

theorem slice_length (n i : Nat) (xs : List α) :
    (slice n i xs).length = min n (xs.length - i * n) := by
  simp [slice]

theorem infix_of_mem_slices {n k : Nat} {xs ys : List α} (h : ys ∈ slices n k xs) :
    ys <:+: xs := by
  obtain ⟨i, -, rfl⟩ := List.mem_map.mp h
  exact (List.take_prefix _ _).isInfix.trans (List.drop_suffix _ _).isInfix

theorem exists_window {xs ys : List α} {k n : Nat} (hlen : xs.length = ys.length)
    (h : ∀ i, xs[i]? ≠ ys[i]? → k ≤ i ∧ i < k + n) :
    ∃ p u v s, xs = p ++ u ++ s ∧ ys = p ++ v ++ s ∧ u.length = v.length ∧ u.length ≤ n := by
  have hbefore : xs.take k = ys.take k := List.ext_getElem? fun i => by
    rw [List.getElem?_take, List.getElem?_take]
    split
    next hi => exact not_not.mp fun hne => Nat.not_le.mpr hi (h i hne).1
    next => rfl
  have hafter : xs.drop (k + n) = ys.drop (k + n) := List.ext_getElem? fun i => by
    rw [List.getElem?_drop, List.getElem?_drop]
    refine not_not.mp fun hne => ?_
    have := (h _ hne).2
    omega
  have hcut : ∀ zs : List α, zs = zs.take k ++ (zs.drop k).take n ++ zs.drop (k + n) := by
    intro zs
    rw [← List.take_add, List.take_append_drop]
  refine ⟨xs.take k, (xs.drop k).take n, (ys.drop k).take n, xs.drop (k + n), hcut xs, ?_, ?_, ?_⟩
  · rw [hbefore, hafter]
    exact hcut ys
  · simp [hlen]
  · simp

theorem slices_zero (n : Nat) (xs : List α) : slices n 0 xs = [] := rfl

theorem slices_succ (n k : Nat) (xs : List α) :
    slices n (k + 1) xs = xs.take n :: slices n k (xs.drop n) := by
  simp only [slices, List.range_succ_eq_map, List.map_cons, List.map_map]
  congr 1
  · simp [slice]
  · apply List.map_congr_left
    intro i _
    simp only [Function.comp, slice, List.drop_drop, Nat.succ_eq_add_one]
    congr 2
    ring

theorem slices_add (n j k : Nat) (xs : List α) :
    slices n (j + k) xs = slices n j xs ++ slices n k (xs.drop (j * n)) := by
  induction j generalizing xs with
  | zero => simp [slices]
  | succ j ih =>
      rw [show j + 1 + k = j + k + 1 by omega, slices_succ, ih, slices_succ, List.cons_append,
        List.drop_drop]
      congr 4
      ring

theorem flatten_slices (n k : Nat) (xs : List α) :
    (slices n k xs).flatten = xs.take (k * n) := by
  induction k generalizing xs with
  | zero => simp [slices]
  | succ k ih =>
      rw [slices_succ, List.flatten_cons, ih, show (k + 1) * n = n + k * n by ring, List.take_add]

theorem slices_append_of_le {n k : Nat} {xs : List α} (ys : List α) (h : k * n ≤ xs.length) :
    slices n k (xs ++ ys) = slices n k xs := by
  induction k generalizing xs with
  | zero => rfl
  | succ k ih =>
      have hn : n + k * n ≤ xs.length := by rwa [show n + k * n = (k + 1) * n by ring]
      rw [slices_succ, slices_succ, List.take_append_of_le_length (by omega),
        List.drop_append_of_le_length (by omega), ih (by rw [List.length_drop]; omega)]

/-! ## Whole windows and the rest -/

theorem remainder_length (n : Nat) (xs : List α) :
    (remainder n xs).length = xs.length % n := by
  rw [remainder, List.length_drop, Nat.mod_eq_sub_div_mul]

theorem remainder_of_length_lt {n : Nat} {xs : List α} (h : xs.length < n) :
    remainder n xs = xs := by
  simp [remainder, Nat.div_eq_of_lt h]

theorem take_append_remainder (n : Nat) (xs : List α) :
    xs.take (xs.length / n * n) ++ remainder n xs = xs :=
  List.take_append_drop _ _

theorem remainder_append_of_dvd {n : Nat} {xs : List α} (ys : List α) (h : n ∣ xs.length) :
    remainder n (xs ++ ys) = remainder n ys := by
  obtain ⟨k, hk⟩ := h
  rcases Nat.eq_zero_or_pos n with rfl | hn
  · have hx : xs = [] := List.eq_nil_of_length_eq_zero (by simpa using hk)
    simp [hx]
  · have hdiv : (xs ++ ys).length / n * n = xs.length + ys.length / n * n := by
      rw [List.length_append, hk, Nat.mul_add_div hn]
      ring
    simp only [remainder]
    rw [hdiv, ← List.drop_drop, List.drop_left]

/-- Fold `f` over the whole windows of width `n`. -/
def absorb (n : Nat) (f : σ → List α → σ) (s : σ) (xs : List α) : σ :=
  (slices n (xs.length / n) xs).foldl f s

theorem absorb_of_length_lt {n : Nat} (f : σ → List α → σ) (s : σ) {xs : List α}
    (h : xs.length < n) : absorb n f s xs = s := by
  simp [absorb, Nat.div_eq_of_lt h, slices]

theorem absorb_append_of_dvd {n : Nat} (f : σ → List α → σ) (s : σ) {xs : List α}
    (ys : List α) (h : n ∣ xs.length) :
    absorb n f s (xs ++ ys) = absorb n f (absorb n f s xs) ys := by
  obtain ⟨k, hk⟩ := h
  rcases Nat.eq_zero_or_pos n with rfl | hn
  · simp [absorb, slices]
  · have hdiv : (xs ++ ys).length / n = xs.length / n + ys.length / n := by
      rw [List.length_append, hk, Nat.mul_add_div hn, Nat.mul_div_cancel_left _ hn]
    have hx : xs.length / n * n = xs.length := by
      rw [hk, Nat.mul_div_cancel_left _ hn, Nat.mul_comm]
    simp only [absorb]
    rw [hdiv, slices_add, List.foldl_append, slices_append_of_le ys (by omega), hx, List.drop_left]

theorem absorb_block {n : Nat} (f : σ → List α → σ) (s : σ) {xs : List α}
    (hn : 0 < n) (h : xs.length = n) : absorb n f s xs = f s xs := by
  rw [absorb, h, Nat.div_self hn, slices_succ, slices_zero, ← h, List.take_length]
  rfl

theorem absorb_block_append {n : Nat} (f : σ → List α → σ) (s : σ) {xs : List α}
    (ys : List α) (hn : 0 < n) (h : xs.length = n) :
    absorb n f s (xs ++ ys) = absorb n f (f s xs) ys := by
  rw [absorb_append_of_dvd f s ys (by rw [h]), absorb_block f s hn h]

/-- Only the part after the last whole window still matters to later input. -/
theorem absorb_append (n : Nat) (f : σ → List α → σ) (s : σ) (xs ys : List α) :
    absorb n f s (xs ++ ys) = absorb n f (absorb n f s xs) (remainder n xs ++ ys) := by
  have hlen : (xs.take (xs.length / n * n)).length = xs.length / n * n := by
    have := Nat.div_mul_le_self xs.length n
    simp only [List.length_take]
    omega
  have hdvd : n ∣ (xs.take (xs.length / n * n)).length := ⟨xs.length / n, by rw [hlen]; ring⟩
  have hself : absorb n f s xs = absorb n f s (xs.take (xs.length / n * n)) := by
    rcases Nat.eq_zero_or_pos n with rfl | hn
    · simp [absorb, slices]
    · have hrem : (remainder n xs).length < n := by
        rw [remainder_length]
        exact Nat.mod_lt _ hn
      calc
        absorb n f s xs = absorb n f s (xs.take (xs.length / n * n) ++ remainder n xs) := by
          rw [take_append_remainder]
        _ = absorb n f s (xs.take (xs.length / n * n)) := by
          rw [absorb_append_of_dvd f s _ hdvd, absorb_of_length_lt f _ hrem]
  calc
    absorb n f s (xs ++ ys) =
        absorb n f s (xs.take (xs.length / n * n) ++ (remainder n xs ++ ys)) := by
      rw [← List.append_assoc, take_append_remainder]
    _ = absorb n f (absorb n f s xs) (remainder n xs ++ ys) := by
      rw [absorb_append_of_dvd f s _ hdvd, ← hself]

theorem remainder_append (n : Nat) (xs ys : List α) :
    remainder n (xs ++ ys) = remainder n (remainder n xs ++ ys) := by
  have hdvd : n ∣ (xs.take (xs.length / n * n)).length := by
    have := Nat.div_mul_le_self xs.length n
    refine ⟨xs.length / n, ?_⟩
    rw [List.length_take, Nat.mul_comm n]
    omega
  calc
    remainder n (xs ++ ys) =
        remainder n (xs.take (xs.length / n * n) ++ (remainder n xs ++ ys)) := by
      rw [← List.append_assoc, take_append_remainder]
    _ = remainder n (remainder n xs ++ ys) := remainder_append_of_dvd _ hdvd

end Slices
