import EggDelivery.Chunk.ReadAndChunk

/-!
# The chunks of a file are an exact partition

Chunk `i` carries the `i`-th window of the content. As many chunks as the ceiling of
the quotient says leave no window empty and no byte out, provided that the sum in
front of the division is a `std::streamsize`.
-/

namespace EggDelivery

open Slices Fips180

def ceilChunks (m : Bytes) (chunkSize : UInt32) : Nat :=
  (m.length + chunkSize.toNat - 1) / chunkSize.toNat

def bytesBetween (m : Bytes) (first last : Nat) : Bytes := (m.take last).drop first

structure ExactPartition (m : Bytes) (chunkSize : UInt32) (cs : List FileChunk) : Prop where
  count : cs.length = ceilChunks m chunkSize
  chunk : ∀ i c, cs[i]? = some c →
    c.chunkId.toNat = i ∧ c.totalChunks.toNat = ceilChunks m chunkSize ∧
      c.fileHash = hexDigest m ∧
      c.data = bytesBetween m (i * chunkSize.toNat) (min ((i + 1) * chunkSize.toNat) m.length) ∧
      c.dataSize.toNat = c.data.length
  full : ∀ i c, cs[i]? = some c → i + 1 < cs.length → c.data.length = chunkSize.toNat
  last : ∀ i c, cs[i]? = some c → i + 1 = cs.length →
    1 ≤ c.data.length ∧ c.data.length ≤ chunkSize.toNat
  whole : (cs.map FileChunk.data).flatten = m

theorem slice_eq_bytesBetween (m : Bytes) (n i : Nat) :
    slice n i m = bytesBetween m (i * n) (min ((i + 1) * n) m.length) := by
  refine List.ext_getElem? fun j => ?_
  have hnext : (i + 1) * n = i * n + n := Nat.succ_mul i n
  simp only [slice, bytesBetween, List.getElem?_take, List.getElem?_drop]
  by_cases hj : j < n
  · by_cases hm : i * n + j < m.length
    · rw [if_pos hj, if_pos (by omega)]
    · rw [List.getElem?_eq_none (by omega)]
      simp
  · rw [if_neg hj, if_neg (by omega)]

theorem mul_lt_of_lt_ceilChunks {m : Bytes} {chunkSize : UInt32} {i : Nat}
    (hi : i < ceilChunks m chunkSize) : (i + 1) * chunkSize.toNat < m.length + chunkSize.toNat := by
  have hle : (i + 1) * chunkSize.toNat ≤ ceilChunks m chunkSize * chunkSize.toNat :=
    Nat.mul_le_mul_right _ hi
  have hdiv : ceilChunks m chunkSize * chunkSize.toNat ≤ m.length + chunkSize.toNat - 1 :=
    Nat.div_mul_le_self _ _
  have hpos : 0 < chunkSize.toNat := by
    refine Nat.pos_of_ne_zero fun hzero => ?_
    rw [ceilChunks, hzero, Nat.div_zero] at hi
    exact Nat.not_lt_zero i hi
  omega

theorem getElem?_chunked_payloads {m : Bytes} {chunkSize : UInt32} {hash : Bytes} {i : Nat}
    {c : FileChunk} (hcount : ceilChunks m chunkSize < 2 ^ 32)
    (h : (chunked hash (payloads m chunkSize))[i]? = some c) :
    i < ceilChunks m chunkSize ∧
      c = chunkAt hash (payloads m chunkSize) i (slice chunkSize.toNat i m) := by
  rw [ceilChunks] at hcount
  simp only [chunked, payloads, slices, Nat.mod_eq_of_lt hcount, List.getElem?_mapIdx,
    List.getElem?_map, Option.map_eq_some_iff] at h
  obtain ⟨part, ⟨k, hk, rfl⟩, rfl⟩ := h
  obtain ⟨hlt, rfl⟩ := List.getElem?_eq_some_iff.mp hk
  rw [List.length_range] at hlt
  rw [List.getElem_range, payloads, Nat.mod_eq_of_lt hcount]
  exact ⟨hlt, rfl⟩

theorem exactPartition_chunked {m : Bytes} {chunkSize : UInt32} (hpos : 0 < chunkSize)
    (hcount : ceilChunks m chunkSize < 2 ^ 32) :
    ExactPartition m chunkSize (chunked (hexDigest m) (payloads m chunkSize)) := by
  have hlength : (payloads m chunkSize).length = ceilChunks m chunkSize := by
    rw [payloads, slices_length]
    exact Nat.mod_eq_of_lt hcount
  refine ⟨by rw [chunked_length, hlength], fun i c hc => ?_, fun i c hc hi => ?_,
    fun i c hc hi => ?_, ?_⟩
  · obtain ⟨hi, rfl⟩ := getElem?_chunked_payloads hcount hc
    have hdata : (slice chunkSize.toNat i m).length < 2 ^ 32 := by
      rw [slice_length]
      exact (Nat.min_le_left _ _).trans_lt chunkSize.toNat_lt
    refine ⟨UInt32.toNat_ofNat_of_lt' (hi.trans hcount), ?_, rfl, slice_eq_bytesBetween _ _ _,
      UInt32.toNat_ofNat_of_lt' hdata⟩
    simp only [chunkAt]
    rw [hlength, UInt32.toNat_ofNat_of_lt' hcount]
  · obtain ⟨-, rfl⟩ := getElem?_chunked_payloads hcount hc
    rw [chunked_length, hlength] at hi
    have hnext := mul_lt_of_lt_ceilChunks hi
    rw [Nat.succ_mul, Nat.succ_mul] at hnext
    simp only [chunkAt]
    rw [slice_length]
    omega
  · obtain ⟨hi, rfl⟩ := getElem?_chunked_payloads hcount hc
    have hstart := mul_lt_of_lt_ceilChunks hi
    have hsize : 0 < chunkSize.toNat := UInt32.lt_iff_toNat_lt.mp hpos
    rw [Nat.succ_mul] at hstart
    simp only [chunkAt]
    rw [slice_length]
    omega
  · have hdata : (chunked (hexDigest m) (payloads m chunkSize)).map FileChunk.data =
        payloads m chunkSize := by
      refine List.ext_getElem? fun i => ?_
      simp [chunked, chunkAt, List.getElem?_mapIdx, Function.comp_def]
    rw [hdata]
    exact payloads_flatten hpos hcount

/-- The call cuts a file into an exact partition exactly when the size plus the chunk
size is a value of `std::streamsize`. -/
theorem partitions_iff (m : Bytes) (chunkSize : UInt32) (hpos : 0 < chunkSize)
    (hcount : ceilChunks m chunkSize < 2 ^ 32) :
    (∃ cs, readAndChunkFile (FileView.ofContent m) chunkSize = .ok cs ∧
      ExactPartition m chunkSize cs) ↔ m.length + chunkSize.toNat < 2 ^ 63 := by
  constructor
  · rintro ⟨cs, hread, hpart⟩
    by_contra hlarge
    have hsum : 2 ^ 63 ≤ m.length + chunkSize.toNat := Nat.not_lt.mp hlarge
    by_cases hopen : m.length < 2 ^ 63
    · rw [readAndChunkFile_overflow hopen hsum] at hread
      cases hread
    · -- the file does not open, and no chunks are no partition of it
      rw [readAndChunkFile_too_long (Nat.not_lt.mp hopen)] at hread
      cases hread
      have hm := congrArg List.length hpart.whole
      rw [List.map_nil, List.flatten_nil, List.length_nil] at hm
      omega
  · intro hsmall
    exact ⟨_, readAndChunkFile_of_lt hpos hsmall, exactPartition_chunked hpos hcount⟩

theorem partitions_three_bytes :
    ∃ cs, readAndChunkFile (FileView.ofContent [1, 2, 3]) 2 = .ok cs ∧
      ExactPartition [1, 2, 3] 2 cs :=
  (partitions_iff [1, 2, 3] 2 (by decide) (by decide)).mpr (by decide)

/-- The largest file there can be, in chunks of `2 ^ 31 + 1` bytes. -/
theorem not_partitions_largest :
    ¬∀ (m : Bytes) (chunkSize : UInt32), 0 < chunkSize → ceilChunks m chunkSize < 2 ^ 32 →
      ∃ cs, readAndChunkFile (FileView.ofContent m) chunkSize = .ok cs ∧
        ExactPartition m chunkSize cs := by
  intro h
  obtain ⟨cs, hread, -⟩ := h (List.replicate (2 ^ 63 - 1) 0) (2 ^ 31 + 1) (by decide)
    (by rw [ceilChunks, List.length_replicate]; decide)
  rw [readAndChunkFile_overflow (by rw [List.length_replicate]; decide)
    (by rw [List.length_replicate]; decide)] at hread
  cases hread

end EggDelivery
