import Mathlib.Data.List.Basic

/-!
# What the program takes from C++ and the operating system

Byte strings, the outcomes the language leaves undefined, `memcpy` into a fixed
array and a binary input stream. `std::string` and `std::vector<uint8_t>` are
both lists of bytes.
-/

namespace EggDelivery

abbrev Bytes := List UInt8

/-- The bytes of an ASCII literal of the source. -/
def ascii (s : String) : Bytes := s.toList.map fun c => UInt8.ofNat c.toNat

/-- Operations without defined behaviour. -/
inductive Ub where
  | outOfBounds
  | divisionByZero
  | signedOverflow
deriving Repr, DecidableEq

theorem ok_bind {α β : Type} (a : α) (f : α → Except Ub β) : (.ok a >>= f) = f a := rfl

theorem error_bind {α β : Type} (e : Ub) (f : α → Except Ub β) :
    (.error e >>= f) = .error e := rfl

/-- `std::memcpy(dst + off, src, |src|)` into an array. -/
def memcpy (dst : Bytes) (off : Nat) (src : Bytes) : Bytes :=
  dst.take off ++ src ++ dst.drop (off + src.length)

@[simp] theorem memcpy_length {dst : Bytes} {off : Nat} {src : Bytes}
    (h : off + src.length ≤ dst.length) : (memcpy dst off src).length = dst.length := by
  simp only [memcpy, List.length_append, List.length_take, List.length_drop]
  omega

theorem take_memcpy {dst : Bytes} {off : Nat} (src : Bytes) (h : off ≤ dst.length) :
    (memcpy dst off src).take (off + src.length) = dst.take off ++ src := by
  have hlen : (dst.take off ++ src).length = off + src.length := by simp [h]
  rw [memcpy, ← hlen, List.take_left]

theorem memcpy_to_end {dst : Bytes} {off : Nat} {src : Bytes}
    (h : off + src.length = dst.length) : memcpy dst off src = dst.take off ++ src := by
  simp [memcpy, h]

/-- The bytes of a `std::string` that a system call sees through `c_str()`. -/
def cStr (s : Bytes) : Bytes := s.takeWhile (· ≠ 0)

theorem cStr_length_lt_iff {s : Bytes} {n : Nat} (h : n ≤ s.length) :
    (cStr s).length < n ↔ 0 ∈ s.take n := by
  induction s generalizing n with
  | nil =>
      obtain rfl : n = 0 := Nat.le_zero.mp h
      simp
  | cons b rest ih =>
      cases n with
      | zero => simp
      | succ n =>
          rw [cStr, List.takeWhile_cons, List.take_succ_cons, List.mem_cons]
          by_cases hb : b = 0
          · simp [hb]
          · have hrest := ih (Nat.le_of_succ_le_succ h)
            rw [cStr] at hrest
            rw [if_pos (by simpa using hb), List.length_cons, Nat.add_lt_add_iff_right, hrest]
            exact (or_iff_right fun heq => hb heq.symm).symm

/-! ## Binary input streams -/

/-- A stream as its reader sees it: the bytes it still delivers before it stops,
at end of file or at an I/O error, whether it is good, and the last `gcount`. -/
structure IfStream where
  content : Bytes
  good : Bool := true
  gcount : Nat := 0
deriving Repr, DecidableEq

namespace IfStream

/-- `file.read(buf, n)`: a short read fails the stream, and a failed stream
delivers nothing more. -/
def read (file : IfStream) (n : Nat) : Bytes × IfStream :=
  if file.good then
    (file.content.take n,
      { content := file.content.drop n
        good := n ≤ file.content.length
        gcount := (file.content.take n).length })
  else ([], { file with gcount := 0 })

theorem read_of_le {file : IfStream} {n : Nat} (hg : file.good) (h : n ≤ file.content.length) :
    file.read n = (file.content.take n, ⟨file.content.drop n, true, n⟩) := by
  simp [read, hg, h]

theorem read_of_lt {file : IfStream} {n : Nat} (hg : file.good) (h : file.content.length < n) :
    file.read n = (file.content, ⟨[], false, file.content.length⟩) := by
  have hle : file.content.length ≤ n := by omega
  simp [read, hg, List.take_of_length_le hle, List.drop_of_length_le hle, h]

theorem read_of_bad {file : IfStream} (n : Nat) (hg : file.good = false) :
    file.read n = ([], { file with gcount := 0 }) := by
  simp [read, hg]

end IfStream

end EggDelivery
