import EggDelivery.Chunk.Corruption
import EggDelivery.Library.CrcErrors
import Mathlib.Tactic.NormNum.Prime

/-!
# What the checksum of the payload lets through

A payload of the right length is accepted exactly if its bits have the check of the
payload that was sent. Modulo the generator of Ethernet, `X` has the order
`2 ^ 32 - 1`, and a window of 33 bits is the shortest that hides an error.
-/

namespace EggDelivery

open Crc

/-! ## Flipped bits -/

/-- The bit that is `n`-th on the wire, flipped. -/
def flipBit (data : Bytes) (n : Nat) : Bytes :=
  data.modify (n / 8) fun b => b ^^^ (1 <<< UInt8.ofNat (n % 8))

@[simp] theorem flipBit_length (data : Bytes) (n : Nat) :
    (flipBit data n).length = data.length :=
  List.length_modify ..

theorem getElem?_wireBits (data : Bytes) (i : Nat) :
    (wireBits data)[i]? = data[i / 8]?.map fun b => b.toBitVec.getLsbD (i % 8) := by
  induction data generalizing i with
  | nil => rfl
  | cons b data ih =>
      rw [wireBits_cons]
      by_cases hi : i < 8
      · rw [List.getElem?_append_left (by simpa using hi), Nat.div_eq_of_lt hi, Nat.mod_eq_of_lt hi]
        simp [bitsOf, hi]
      · obtain ⟨j, rfl⟩ := Nat.exists_eq_add_of_le (Nat.le_of_not_lt hi)
        rw [List.getElem?_append_right (by simp), bitsOf_length, Nat.add_sub_cancel_left, ih,
          Nat.add_div_left j (by decide), Nat.add_mod_left, List.getElem?_cons_succ]

theorem wireBits_flipBit (data : Bytes) (n : Nat) :
    wireBits (flipBit data n) = (wireBits data).modify n not := by
  have hmask : ∀ k < 8, ∀ j < 8,
      ((1 : UInt8) <<< UInt8.ofNat k).toBitVec.getLsbD j = decide (k = j) := by decide
  refine List.ext_getElem? fun i => ?_
  rw [getElem?_wireBits, flipBit, List.getElem?_modify, List.getElem?_modify, getElem?_wireBits]
  cases data[i / 8]? with
  | none => rfl
  | some b =>
      have hbit := hmask (n % 8) (Nat.mod_lt n (by decide)) (i % 8) (Nat.mod_lt i (by decide))
      simp only [Option.map_eq_map, Option.map_some, Option.some.injEq]
      by_cases hbyte : n / 8 = i / 8
      · rw [if_pos hbyte, UInt8.toBitVec_xor, BitVec.getLsbD_xor, hbit]
        by_cases hplace : n % 8 = i % 8
        · simp [show n = i by omega]
        · simp [hplace, show n ≠ i by omega]
      · simp [hbyte, show n ≠ i by omega]

/-! ## The generator of Ethernet -/

theorem prime_dvd_ethernet {p : Nat} (hp : p.Prime) (h : p ∣ 2 ^ 32 - 1) :
    p ∈ [3, 5, 17, 257, 65537] := by
  have hfactors : 2 ^ 32 - 1 = [3, 5, 17, 257, 65537].prod := by decide
  rw [hfactors, hp.prime.dvd_prod_iff] at h
  obtain ⟨q, hq, hdvd⟩ := h
  have hprime : q.Prime := by
    fin_cases hq <;> norm_num
  rwa [(Nat.prime_dvd_prime_iff_eq hp hprime).mp hdvd]

/-- The generator is primitive. -/
theorem orderOf_ethernet :
    orderOf (AdjoinRoot.root (divisor ethernet.generator)) = 2 ^ 32 - 1 := by
  have hpowers : power ethernet.generator 32 (2 ^ 32 - 1) = 1#32 ∧
      ∀ p ∈ [3, 5, 17, 257, 65537],
        power ethernet.generator 32 ((2 ^ 32 - 1) / p) ≠ 1#32 := by decide +kernel
  exact orderOf_root (by decide) (by decide) (by decide) hpowers.1 fun p hp hdvd =>
    hpowers.2 p (prime_dvd_ethernet hp hdvd)

theorem crc32_eq_iff (xs ys : Bytes) :
    crc32 xs = crc32 ys ↔ check ethernet (wireBits xs) = check ethernet (wireBits ys) := by
  rw [← crc32_eq_check, ← crc32_eq_check, UInt32.toBitVec_inj]

theorem crc32_two_flips_iff {data : Bytes} {n m : Nat} (hnm : n < m) (hm : m < 8 * data.length) :
    crc32 (flipBit (flipBit data n) m) = crc32 data ↔ 2 ^ 32 - 1 ∣ m - n := by
  rw [crc32_eq_iff, wireBits_flipBit, wireBits_flipBit,
    check_two_flips_iff (by decide) hnm (by rwa [wireBits_length]), orderOf_ethernet]

structure DifferInWindow (data data' : Bytes) (u v : List Bool) : Prop where
  outside : ∃ p s, wireBits data = p ++ u ++ s ∧ wireBits data' = p ++ v ++ s
  length_eq : u.length = v.length
  length_le : u.length ≤ 33
  ne : data ≠ data'

theorem DifferInWindow.length {data data' : Bytes} {u v : List Bool}
    (h : DifferInWindow data data' u v) : data'.length = data.length := by
  obtain ⟨p, s, hdata, hdata'⟩ := h.outside
  have hbits : (wireBits data').length = (wireBits data).length := by
    rw [hdata, hdata']
    simp [h.length_eq]
  rw [wireBits_length, wireBits_length] at hbits
  omega

theorem DifferInWindow.crc32_eq_iff {data data' : Bytes} {u v : List Bool}
    (h : DifferInWindow data data' u v) :
    crc32 data' = crc32 data ↔ List.zipWith xor u v = divisorBits ethernet.generator := by
  obtain ⟨p, s, hdata, hdata'⟩ := h.outside
  have hdiff : ¬u = v := by
    rintro rfl
    exact h.ne (wireBits_injective (hdata.trans hdata'.symm))
  rw [eq_comm, EggDelivery.crc32_eq_iff, hdata, hdata',
    check_window_iff (by decide) p s h.length_eq h.length_le, or_iff_right hdiff]

namespace FileChunk

theorem deserialize_front (c prior : FileChunk) (hhash : c.fileHash.length < 2 ^ 32)
    (hdata : c.data.length < 2 ^ 32) {data : Bytes} (hlen : data.length = c.data.length) :
    deserialize 64 prior (c.front ++ data) =
      .ok (crc32 data == crc32 c.data,
        { c with
          data := data
          dataSize := UInt32.ofNat data.length }) := by
  rw [front, List.append_assoc, ← hlen]
  exact deserialize_fields prior c.chunkId c.totalChunks (crc32 c.data) hhash
    (hlen ▸ hdata : data.length < 2 ^ 32)

theorem accepted_iff_crc32 (c prior : FileChunk) (hhash : c.fileHash.length < 2 ^ 32)
    (hdata : c.data.length < 2 ^ 32) {data : Bytes} (hlen : data.length = c.data.length) :
    (∃ c', deserialize 64 prior (c.front ++ data) = .ok (true, c')) ↔
      crc32 data = crc32 c.data := by
  rw [deserialize_front c prior hhash hdata hlen, ← beq_iff_eq]
  constructor
  · rintro ⟨c', h⟩
    exact (Prod.mk.inj (Except.ok.inj h)).1
  · intro h
    exact ⟨_, by rw [h]⟩

/-- A packet with two flipped bits in its payload is accepted exactly if their distance is
a multiple of `2 ^ 32 - 1`. -/
theorem two_flips_accepted_iff (c prior : FileChunk) (hhash : c.fileHash.length < 2 ^ 32)
    (hdata : c.data.length < 2 ^ 32) {n m : Nat} (hnm : n < m) (hm : m < 8 * c.data.length) :
    (∃ c', deserialize 64 prior (c.front ++ flipBit (flipBit c.data n) m) = .ok (true, c')) ↔
      2 ^ 32 - 1 ∣ m - n := by
  rw [accepted_iff_crc32 c prior hhash hdata (by simp), crc32_two_flips_iff hnm hm]

theorem two_flips_rejected_in_one_byte :
    ¬∃ c', deserialize 64 {} (front { data := [7] } ++ flipBit (flipBit [7] 0) 5) =
      .ok (true, c') :=
  mt (two_flips_accepted_iff { data := [7] } {} (by decide) (by decide) (by decide)
    (by decide)).mp (by decide)

/-- A packet that is damaged within 33 consecutive bits of its payload is accepted exactly
if the flipped bits are the generator. -/
theorem window_accepted_iff (c prior : FileChunk) (hhash : c.fileHash.length < 2 ^ 32)
    (hdata : c.data.length < 2 ^ 32) {data : Bytes} {u v : List Bool}
    (h : DifferInWindow c.data data u v) :
    (∃ c', deserialize 64 prior (c.front ++ data) = .ok (true, c')) ↔
      List.zipWith xor u v = divisorBits ethernet.generator := by
  rw [accepted_iff_crc32 c prior hhash hdata h.length, h.crc32_eq_iff]

theorem generator_accepted :
    ∃ c', deserialize 64 {}
      (front { data := List.replicate 5 0 } ++ [0x41, 0x06, 0x71, 0xdb, 0x01]) = .ok (true, c') :=
  (window_accepted_iff { data := List.replicate 5 0 } {} (by decide) (by decide)
    (u := List.replicate 33 false) (v := divisorBits ethernet.generator)
    ⟨⟨[], List.replicate 7 false, by decide⟩, by decide, by decide, by decide⟩).mpr (by decide)

/-- Packets of a chunk with two flipped bits in a payload shorter than `2 ^ 29` bytes, or
with any damage within 32 consecutive bits of the payload. -/
inductive Damaged (c : FileChunk) : Bytes → Prop
  | flips {n m : Nat} (hsize : c.data.length < 2 ^ 29) (hnm : n < m) (hm : m < 8 * c.data.length) :
      Damaged c (c.front ++ flipBit (flipBit c.data n) m)
  | burst {data : Bytes} {u v : List Bool} (h : DifferInWindow c.data data u v)
      (hle : u.length ≤ 32) : Damaged c (c.front ++ data)

theorem deserialize_damaged {c : FileChunk} (prior : FileChunk)
    (hhash : c.fileHash.length < 2 ^ 32) (hdata : c.data.length < 2 ^ 32) {pkg : Bytes}
    (h : Damaged c pkg) : ∃ c', deserialize 64 prior pkg = .ok (false, c') := by
  obtain ⟨data, rfl, hlen, hcrc⟩ : ∃ data, pkg = c.front ++ data ∧ data.length = c.data.length ∧
      crc32 data ≠ crc32 c.data := by
    cases h with
    | @flips n m hsize hnm hm =>
        refine ⟨_, rfl, by simp, fun heq => ?_⟩
        have hle := Nat.le_of_dvd (by omega) ((crc32_two_flips_iff hnm hm).mp heq)
        omega
    | @burst data u v hwindow hle =>
        refine ⟨data, rfl, hwindow.length, fun heq => ?_⟩
        -- a window of 32 bits is too short for the generator
        have hbits := congrArg List.length (hwindow.crc32_eq_iff.mp heq)
        rw [List.length_zipWith, ← hwindow.length_eq, Nat.min_self, divisorBits, List.length_cons,
          bitsDown_length] at hbits
        omega
  exact ⟨_, by rw [deserialize_front c prior hhash hdata hlen, beq_eq_false_iff_ne.mpr hcrc]⟩

end FileChunk

end EggDelivery
