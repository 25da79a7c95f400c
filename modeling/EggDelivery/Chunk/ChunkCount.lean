import EggDelivery.Chunk.ReadAndChunk
import Mathlib.Algebra.Order.Floor.Div

/-!
# The chunk count for every size and chunk size

`(file_size + chunk_size - 1) / chunk_size` is formed in signed 64-bit arithmetic from
whatever `tellg` said, and cut to 32 bits. A chunk size of zero divides by zero, a size
near 2^63 overflows, a failed size query in chunks of one byte counts 2^32 - 1 chunks,
and a count from 2^32 on loses its upper half.
-/

namespace EggDelivery

open Slices Fips180

/-! ## The count -/

/-- How often the loop turns: the ceiling of the quotient in 32 bits. For a size of -1
the quotient is zero, except in chunks of one byte, where it is -1. -/
def turns (fileSize : Int) (chunkSize : UInt32) : Nat :=
  if fileSize = -1 then (if chunkSize = 1 then 2 ^ 32 - 1 else 0)
  else fileSize.toNat ⌈/⌉ chunkSize.toNat % 2 ^ 32

def CountDefined (fileSize : Int) (chunkSize : UInt32) : Prop :=
  0 < chunkSize ∧ fileSize + chunkSize.toNat < 2 ^ 63

theorem turns_natCast (n : Nat) (chunkSize : UInt32) :
    turns n chunkSize = n ⌈/⌉ chunkSize.toNat % 2 ^ 32 := by
  rw [turns, if_neg (by omega), Int.toNat_natCast]

theorem turns_lt (fileSize : Int) (chunkSize : UInt32) : turns fileSize chunkSize < 2 ^ 32 := by
  rw [turns]
  split
  · split <;> decide
  · exact Nat.mod_lt _ (by decide)

theorem streamsize_of_mem {x : Int} (hlow : -2 ^ 63 ≤ x) (hhigh : x < 2 ^ 63) :
    streamsize x = .ok x := by
  rw [streamsize, if_pos ⟨by omega, by omega⟩]

theorem chunkCount_neg_one {chunkSize : UInt32} (hpos : 0 < chunkSize) :
    chunkCount (-1) chunkSize = .ok (UInt32.ofNat (turns (-1) chunkSize)) := by
  have hsize : 0 < chunkSize.toNat := UInt32.lt_iff_toNat_lt.mp hpos
  have hlt := chunkSize.toNat_lt
  have hne : chunkSize ≠ 0 := by
    rintro rfl
    exact absurd hpos (by decide)
  rw [chunkCount, streamsize_of_mem (by omega) (by omega), ok_bind,
    streamsize_of_mem (by omega) (by omega), ok_bind, if_neg hne, turns, if_pos rfl]
  by_cases hone : chunkSize = 1
  · subst hone
    rfl
  · have hnat : chunkSize.toNat ≠ 1 := fun h => hone (UInt32.toNat_inj.mp h)
    rw [if_neg hone, Int.tdiv_eq_zero_of_lt (by omega) (by omega)]
    rfl

theorem chunkCount_eq {fileSize : Int} {chunkSize : UInt32} (hsize : -1 ≤ fileSize)
    (hdefined : CountDefined fileSize chunkSize) :
    chunkCount fileSize chunkSize = .ok (UInt32.ofNat (turns fileSize chunkSize)) := by
  obtain ⟨hpos, hsum⟩ := hdefined
  by_cases hfailed : fileSize = -1
  · subst hfailed
    exact chunkCount_neg_one hpos
  · obtain ⟨n, rfl⟩ : ∃ n : Nat, fileSize = n := ⟨fileSize.toNat, by omega⟩
    have hword : UInt32.ofNat (n ⌈/⌉ chunkSize.toNat % 2 ^ 32) =
        UInt32.ofNat (n ⌈/⌉ chunkSize.toNat) := by
      apply UInt32.toNat_inj.mp
      simp
    rw [chunkCount_of_lt hpos (by omega), turns_natCast, hword, Nat.ceilDiv_eq_add_pred_div]

theorem chunkCount_undefined {fileSize : Int} {chunkSize : UInt32} (hsize : -1 ≤ fileSize)
    (hdefined : ¬CountDefined fileSize chunkSize) (total : UInt32) :
    chunkCount fileSize chunkSize ≠ .ok total := by
  intro hcount
  have hlt := chunkSize.toNat_lt
  by_cases hsum : fileSize + chunkSize.toNat < 2 ^ 63
  · -- the sum has a value, so the divisor is zero
    have hzero : chunkSize = 0 := by
      by_contra hne
      refine hdefined ⟨UInt32.lt_iff_toNat_lt.mpr (Nat.pos_of_ne_zero fun h => hne ?_), hsum⟩
      exact UInt32.toNat_inj.mp h
    rw [chunkCount, streamsize_of_mem (by omega) (by omega), ok_bind,
      streamsize_of_mem (by omega) (by omega), ok_bind, if_pos hzero] at hcount
    cases hcount
  · obtain ⟨n, rfl⟩ : ∃ n : Nat, fileSize = n := ⟨fileSize.toNat, by omega⟩
    rw [chunkCount_overflow (by omega)] at hcount
    cases hcount

/-! ## The call -/

theorem readAndChunkFile_of_defined {file : FileView} {hashed : Bytes}
    (hopen : file.isOpen = true) (hhash : file.hashPass = some hashed) (hsize : -1 ≤ file.tellg)
    {chunkSize : UInt32} (hdefined : CountDefined file.tellg chunkSize) :
    readAndChunkFile file chunkSize =
      .ok (readChunks (hexDigest hashed) chunkSize (turns file.tellg chunkSize)
        file.chunkPass) := by
  rw [readAndChunkFile_opened hopen hhash, chunkCount_eq hsize hdefined, ok_bind,
    UInt32.toNat_ofNat_of_lt' (turns_lt file.tellg chunkSize)]

theorem readAndChunkFile_undefined {file : FileView} {hashed : Bytes} (hopen : file.isOpen = true)
    (hhash : file.hashPass = some hashed) (hsize : -1 ≤ file.tellg) {chunkSize : UInt32}
    (hdefined : ¬CountDefined file.tellg chunkSize) (cs : List FileChunk) :
    readAndChunkFile file chunkSize ≠ .ok cs := by
  intro hread
  rw [readAndChunkFile_opened hopen hhash] at hread
  cases hcount : chunkCount file.tellg chunkSize with
  | ok total => exact chunkCount_undefined hsize hdefined total hcount
  | error e =>
      rw [hcount, error_bind] at hread
      cases hread

/-! ## The count that the result carries -/

/-- The call has a defined result: the empty list, or as many chunks as the size has,
each with their number as its total, which carry a file of this size whole. -/
def SafeCount (file : FileView) (chunkSize : UInt32) : Prop :=
  ∃ cs, readAndChunkFile file chunkSize = .ok cs ∧
    (cs = [] ∨
      (0 ≤ file.tellg ∧ cs.length = file.tellg.toNat ⌈/⌉ chunkSize.toNat ∧
        (∀ c ∈ cs, c.totalChunks.toNat = file.tellg.toNat ⌈/⌉ chunkSize.toNat) ∧
        (file.chunkPass.length ≤ file.tellg.toNat →
          (cs.map FileChunk.data).flatten = file.chunkPass)))

def CountFits (file : FileView) (chunkSize : UInt32) : Prop :=
  file.isOpen = false ∨ file.hashPass = none ∨
    (CountDefined file.tellg chunkSize ∧
      (file.tellg = -1 → chunkSize ≠ 1) ∧
      (0 ≤ file.tellg → file.tellg.toNat ⌈/⌉ chunkSize.toNat < 2 ^ 32 ∨
        2 ^ 32 ∣ file.tellg.toNat ⌈/⌉ chunkSize.toNat))

theorem readChunks_whole {fileHash content : Bytes} {chunkSize : UInt32} {size : Nat}
    (hpos : 0 < chunkSize) (h : content.length ≤ size) :
    ((readChunks fileHash chunkSize (size ⌈/⌉ chunkSize.toNat) content).map
      FileChunk.data).flatten = content := by
  have hsize : 0 < chunkSize.toNat := UInt32.lt_iff_toNat_lt.mp hpos
  rw [readChunks_data, List.take_of_length_le]
  rw [Nat.mul_comm]
  exact h.trans (le_smul_ceilDiv hsize)

theorem safeCount_of_fits {file : FileView} {chunkSize : UInt32} (hsize : -1 ≤ file.tellg)
    (h : CountFits file chunkSize) : SafeCount file chunkSize := by
  rcases h with hclosed | hclosed | ⟨hdefined, hfailed, hcast⟩
  · exact ⟨[], readAndChunkFile_unopened (Or.inl hclosed) chunkSize, Or.inl rfl⟩
  · exact ⟨[], readAndChunkFile_unopened (Or.inr hclosed) chunkSize, Or.inl rfl⟩
  by_cases hopen : file.isOpen = false
  · exact ⟨[], readAndChunkFile_unopened (Or.inl hopen) chunkSize, Or.inl rfl⟩
  cases hhash : file.hashPass with
  | none => exact ⟨[], readAndChunkFile_unopened (Or.inr hhash) chunkSize, Or.inl rfl⟩
  | some hashed =>
      refine ⟨_, readAndChunkFile_of_defined (by simpa using hopen) hhash hsize hdefined, ?_⟩
      rw [readChunks_eq_nil_iff]
      by_cases hneg : file.tellg = -1
      · left
        rw [hneg, turns, if_pos rfl, if_neg (hfailed hneg)]
      · have hnonneg : 0 ≤ file.tellg := by omega
        have hturns : turns file.tellg chunkSize =
            file.tellg.toNat ⌈/⌉ chunkSize.toNat % 2 ^ 32 := by
          rw [turns, if_neg hneg]
        rcases hcast hnonneg with hlt | hdvd
        · right
          rw [hturns, Nat.mod_eq_of_lt hlt]
          refine ⟨hnonneg, readChunks_length .., fun c hc => ?_, readChunks_whole hdefined.1⟩
          rw [(mem_readChunks hc).1, UInt32.toNat_ofNat_of_lt' hlt]
        · left
          rw [hturns, Nat.mod_eq_zero_of_dvd hdvd]

theorem fits_of_safeCount {file : FileView} {chunkSize : UInt32} (hsize : -1 ≤ file.tellg)
    (h : SafeCount file chunkSize) : CountFits file chunkSize := by
  obtain ⟨cs, hread, hcs⟩ := h
  cases hopen : file.isOpen with
  | false => exact Or.inl hopen
  | true =>
      cases hhash : file.hashPass with
      | none => exact Or.inr (Or.inl hhash)
      | some hashed =>
          by_cases hdefined : CountDefined file.tellg chunkSize
          · rw [readAndChunkFile_of_defined hopen hhash hsize hdefined] at hread
            cases hread
            rw [readChunks_eq_nil_iff, readChunks_length] at hcs
            refine Or.inr (Or.inr ⟨hdefined, fun hneg hone => ?_, fun hnonneg => ?_⟩)
            · rw [hneg, hone] at hcs
              rcases hcs with hzero | ⟨hnonneg, -⟩
              · exact absurd hzero (by decide)
              · omega
            · obtain ⟨n, hn⟩ : ∃ n : Nat, file.tellg = n := ⟨file.tellg.toNat, by omega⟩
              rw [hn, turns_natCast, Int.toNat_natCast] at hcs
              rw [hn, Int.toNat_natCast]
              rcases hcs with hzero | ⟨-, hcount, -⟩
              · exact Or.inr (Nat.dvd_of_mod_eq_zero hzero)
              · left
                rw [← hcount]
                exact Nat.mod_lt _ (by decide)
          · exact absurd hread (readAndChunkFile_undefined hopen hhash hsize hdefined cs)

/-- For every value of `tellg` and every chunk size the count is safe exactly if the
divisor is not zero, the sum is a `std::streamsize`, a failed size query does not meet
chunks of one byte, and the ceiling is a 32-bit value or is cut to zero. -/
theorem safeCount_iff (file : FileView) (chunkSize : UInt32)
    (hsize : -1 ≤ file.tellg ∧ file.tellg < 2 ^ 63) :
    SafeCount file chunkSize ↔ CountFits file chunkSize :=
  ⟨fits_of_safeCount hsize.1, safeCount_of_fits hsize.1⟩

theorem safeCount_three_bytes : SafeCount (FileView.ofContent [1, 2, 3]) 2 :=
  (safeCount_iff (FileView.ofContent [1, 2, 3]) 2 (by decide)).mpr
    (Or.inr (Or.inr ⟨⟨by decide, by decide⟩, by decide, fun _ => Or.inl (by decide)⟩))

theorem not_safeCount_zero :
    ¬∀ (file : FileView) (chunkSize : UInt32), -1 ≤ file.tellg ∧ file.tellg < 2 ^ 63 →
      SafeCount file chunkSize := by
  intro h
  obtain ⟨cs, hread, -⟩ := h (FileView.ofContent [1, 2, 3]) 0 (by decide)
  have hzero : ¬CountDefined (FileView.ofContent [1, 2, 3]).tellg 0 :=
    fun hdefined => absurd hdefined.1 (by decide)
  exact readAndChunkFile_undefined rfl rfl (by decide) hzero cs hread

end EggDelivery
