import EggDelivery.Chunk.Codec
import EggDelivery.Hash.Streaming

/-!
# Cutting a file into chunks

`FileManager::readAndChunkFile`. The size comes from `tellg`, the hash and the
payloads from two readings of their own. The chunk count is formed in signed
64-bit arithmetic and cut to 32 bits, so the spec has three cases: the sum fits,
it overflows, or the size already does.
-/

namespace EggDelivery

open Slices Fips180

/-- A path as `readAndChunkFile` meets it: whether the stream opens at the end,
what `tellg` says, and the bytes that `hashFile` and the loop get to read. -/
structure FileView where
  isOpen : Bool
  tellg : Int
  hashPass : Option Bytes
  chunkPass : Bytes
deriving Repr, DecidableEq

/-- A readable file that does not change. A size beyond `off_t` fails the seek to
the end, and with it the open. -/
def FileView.ofContent (m : Bytes) : FileView where
  isOpen := m.length < 2 ^ 63
  tellg := m.length
  hashPass := some m
  chunkPass := m

/-- The result of an operation on `std::streamsize`. -/
def streamsize (x : Int) : Except Ub Int :=
  if -0x8000000000000000 ≤ x ∧ x < 0x8000000000000000 then .ok x else .error .signedOverflow

/-- `static_cast<uint32_t>((file_size + chunk_size - 1) / chunk_size)`. -/
def chunkCount (fileSize : Int) (chunkSize : UInt32) : Except Ub UInt32 := do
  let sum ← streamsize (fileSize + chunkSize.toNat)
  let top ← streamsize (sum - 1)
  if chunkSize = 0 then .error .divisionByZero
  else pure (UInt32.ofInt (top.tdiv chunkSize.toNat))

/-- The loop over the chunks, `n` of which are still to come. -/
def chunkLoop (chunkSize totalChunks : UInt32) (fileHash : Bytes) :
    Nat → UInt32 → IfStream → List FileChunk
  | 0, _, _ => []
  | n + 1, i, file =>
      let r := file.read chunkSize.toNat
      { chunkId := i
        totalChunks := totalChunks
        fileHash := fileHash
        data := r.1
        dataSize := UInt32.ofNat r.2.gcount } ::
        chunkLoop chunkSize totalChunks fileHash n (i + 1) r.2

def readAndChunkFile (file : FileView) (chunkSize : UInt32) : Except Ub (List FileChunk) :=
  if !file.isOpen then .ok []
  else
    let fileHash := SHA256.hashFile file.hashPass
    if fileHash = [] then .ok []
    else do
      let totalChunks ← chunkCount file.tellg chunkSize
      pure (chunkLoop chunkSize totalChunks fileHash totalChunks.toNat 0 { content := file.chunkPass })

/-! ## The chunks of a list of payloads -/

def chunkAt (hash : Bytes) (parts : List Bytes) (i : Nat) (part : Bytes) : FileChunk where
  chunkId := UInt32.ofNat i
  totalChunks := UInt32.ofNat parts.length
  fileHash := hash
  data := part
  dataSize := UInt32.ofNat part.length

def chunked (hash : Bytes) (parts : List Bytes) : List FileChunk :=
  parts.mapIdx (chunkAt hash parts)

@[simp] theorem chunked_length (hash : Bytes) (parts : List Bytes) :
    (chunked hash parts).length = parts.length := by
  simp [chunked]

theorem mem_chunked {hash : Bytes} {parts : List Bytes} {c : FileChunk} :
    c ∈ chunked hash parts ↔ ∃ i part, parts[i]? = some part ∧ c = chunkAt hash parts i part := by
  simp only [chunked, List.mem_iff_getElem?, List.getElem?_mapIdx, Option.map_eq_some_iff]
  constructor
  · rintro ⟨i, part, hpart, rfl⟩
    exact ⟨i, part, hpart, rfl⟩
  · rintro ⟨i, part, hpart, rfl⟩
    exact ⟨i, part, hpart, rfl⟩

theorem deserialize_chunkAt (target : FileChunk) {hash : Bytes} (hhash : hash.length < 2 ^ 32)
    (parts : List Bytes) (i : Nat) {part : Bytes} (hpart : part.length < 2 ^ 32) :
    target.deserialize 64 (chunkAt hash parts i part).serialize =
      .ok (true, chunkAt hash parts i part) := by
  have h := FileChunk.deserialize_serialize_append (w := 64) (by decide) target
    (c := chunkAt hash parts i part) hhash hpart []
  rwa [List.append_nil] at h

/-! ## What the loop reads -/

private theorem chunkLoop_bad (chunkSize total : UInt32) (hash : Bytes) (n : Nat) (i : UInt32)
    {file : IfStream} (hbad : file.good = false) :
    chunkLoop chunkSize total hash n i file =
      (List.range n).map fun k =>
        { chunkId := i + UInt32.ofNat k
          totalChunks := total
          fileHash := hash
          data := []
          dataSize := 0 } := by
  induction n generalizing i file with
  | zero => rfl
  | succ n ih =>
      rw [chunkLoop, IfStream.read_of_bad _ hbad, ih _ (by exact hbad), List.range_succ_eq_map]
      simp [Function.comp_def, UInt32.add_assoc, UInt32.add_comm]

/-- Each turn delivers the next window of what is left. -/
theorem chunkLoop_eq (chunkSize total : UInt32) (hash : Bytes) (n : Nat) (i : UInt32)
    {file : IfStream} (hgood : file.good = true) :
    chunkLoop chunkSize total hash n i file =
      (List.range n).map fun k =>
        { chunkId := i + UInt32.ofNat k
          totalChunks := total
          fileHash := hash
          data := slice chunkSize.toNat k file.content
          dataSize := UInt32.ofNat (slice chunkSize.toNat k file.content).length } := by
  induction n generalizing i file with
  | zero => rfl
  | succ n ih =>
      rw [chunkLoop, List.range_succ_eq_map]
      by_cases hle : chunkSize.toNat ≤ file.content.length
      · rw [IfStream.read_of_le hgood hle, ih _ rfl]
        simp [Function.comp_def, UInt32.add_assoc, UInt32.add_comm, slice, hle,
          Nat.add_mul, Nat.add_comm]
      · have hlt : file.content.length < chunkSize.toNat := Nat.lt_of_not_le hle
        have hempty : ∀ k, slice chunkSize.toNat (k + 1) file.content = [] := by
          intro k
          apply List.eq_nil_of_length_eq_zero
          have : chunkSize.toNat ≤ (k + 1) * chunkSize.toNat := Nat.le_mul_of_pos_left _ (by omega)
          rw [slice_length]
          omega
        rw [IfStream.read_of_lt hgood hlt, chunkLoop_bad _ _ _ _ _ rfl]
        have hfirst : slice chunkSize.toNat 0 file.content = file.content := by
          simp [slice, List.take_of_length_le hlt.le]
        simp [Function.comp_def, UInt32.add_assoc, UInt32.add_comm, hempty, hfirst]

def readChunks (fileHash : Bytes) (chunkSize : UInt32) (n : Nat) (content : Bytes) :
    List FileChunk :=
  (List.range n).map fun k =>
    { chunkId := UInt32.ofNat k
      totalChunks := UInt32.ofNat n
      fileHash := fileHash
      data := slice chunkSize.toNat k content
      dataSize := UInt32.ofNat (slice chunkSize.toNat k content).length }

@[simp] theorem readChunks_length (fileHash : Bytes) (chunkSize : UInt32) (n : Nat)
    (content : Bytes) : (readChunks fileHash chunkSize n content).length = n := by
  simp [readChunks]

theorem readChunks_eq_nil_iff {fileHash content : Bytes} {chunkSize : UInt32} {n : Nat} :
    readChunks fileHash chunkSize n content = [] ↔ n = 0 := by
  rw [← List.length_eq_zero_iff, readChunks_length]

theorem mem_readChunks {fileHash content : Bytes} {chunkSize : UInt32} {n : Nat} {c : FileChunk}
    (h : c ∈ readChunks fileHash chunkSize n content) :
    c.totalChunks = UInt32.ofNat n ∧ c.fileHash = fileHash ∧
      c.data.length ≤ chunkSize.toNat := by
  obtain ⟨k, -, rfl⟩ := List.mem_map.mp h
  refine ⟨rfl, rfl, ?_⟩
  rw [slice_length]
  exact Nat.min_le_left _ _

theorem readChunks_data (fileHash : Bytes) (chunkSize : UInt32) (n : Nat) (content : Bytes) :
    ((readChunks fileHash chunkSize n content).map FileChunk.data).flatten =
      content.take (n * chunkSize.toNat) := by
  rw [← flatten_slices, slices, readChunks, List.map_map]
  rfl

theorem readChunks_eq_chunked (fileHash : Bytes) (chunkSize : UInt32) (n : Nat)
    (content : Bytes) :
    readChunks fileHash chunkSize n content =
      chunked fileHash (slices chunkSize.toNat n content) := by
  refine List.ext_getElem? fun i => ?_
  simp only [readChunks, chunked, slices, List.getElem?_mapIdx, List.getElem?_map]
  cases hi : (List.range n)[i]? with
  | none => rfl
  | some k =>
      obtain ⟨hlt, rfl⟩ := List.getElem?_eq_some_iff.mp hi
      simp only [Option.map_some, chunkAt, List.length_map, List.length_range,
        List.getElem_range]

/-! ## What the call returns -/

theorem hashFile_ne_nil (m : Bytes) : SHA256.hashFile (some m) ≠ [] := by
  intro h
  have := hexDigest_length m
  rw [← SHA256.hashFile_spec, h] at this
  exact absurd this (by decide)

/-- The file does not open, or does not open again for its hash. -/
theorem readAndChunkFile_unopened {file : FileView}
    (h : file.isOpen = false ∨ file.hashPass = none) (chunkSize : UInt32) :
    readAndChunkFile file chunkSize = .ok [] := by
  rw [readAndChunkFile]
  rcases h with h | h
  · rw [h]
    rfl
  · rw [h]
    split <;> rfl

theorem readAndChunkFile_opened {file : FileView} {hashed : Bytes} (hopen : file.isOpen = true)
    (hhash : file.hashPass = some hashed) (chunkSize : UInt32) :
    readAndChunkFile file chunkSize =
      chunkCount file.tellg chunkSize >>= fun total =>
        .ok (readChunks (hexDigest hashed) chunkSize total.toNat file.chunkPass) := by
  simp only [readAndChunkFile, hopen, hhash, Bool.not_true, Bool.false_eq_true, if_false,
    if_neg (hashFile_ne_nil hashed)]
  cases chunkCount file.tellg chunkSize with
  | error e => rfl
  | ok total =>
      rw [ok_bind, ok_bind, chunkLoop_eq _ _ _ _ _ rfl, SHA256.hashFile_spec, readChunks]
      simp only [UInt32.zero_add, UInt32.ofNat_toNat]
      rfl

theorem sizes_of_readAndChunkFile {file : FileView} {chunkSize : UInt32} {cs : List FileChunk}
    (h : readAndChunkFile file chunkSize = .ok cs) {c : FileChunk} (hc : c ∈ cs) :
    c.fileHash.length = 64 ∧ c.data.length ≤ chunkSize.toNat := by
  by_cases hunopened : file.isOpen = false ∨ file.hashPass = none
  · rw [readAndChunkFile_unopened hunopened] at h
    cases h
    exact absurd hc List.not_mem_nil
  rw [not_or, Bool.not_eq_false] at hunopened
  obtain ⟨hopen, hnone⟩ := hunopened
  obtain ⟨hashed, hhash⟩ := Option.ne_none_iff_exists'.mp hnone
  rw [readAndChunkFile_opened hopen hhash] at h
  cases hcount : chunkCount file.tellg chunkSize with
  | error e =>
      rw [hcount, error_bind] at h
      cases h
  | ok total =>
      rw [hcount, ok_bind] at h
      cases h
      obtain ⟨-, hdigest, hdata⟩ := mem_readChunks hc
      rw [hdigest]
      exact ⟨hexDigest_length hashed, hdata⟩

theorem streamsize_of_lt {n : Nat} (h : n < 2 ^ 63) : streamsize n = .ok n := by
  unfold streamsize
  exact if_pos ⟨by omega, by omega⟩

theorem streamsize_overflow {n : Nat} (h : 2 ^ 63 ≤ n) :
    streamsize n = .error .signedOverflow := by
  unfold streamsize
  exact if_neg fun hn => by omega

theorem ofInt_natCast (n : Nat) : UInt32.ofInt n = UInt32.ofNat n := by
  apply UInt32.toNat_inj.mp
  rw [UInt32.ofInt, UInt32.toNat_ofNat', UInt32.toNat_ofNat']
  omega

theorem chunkCount_of_lt {n : Nat} {chunkSize : UInt32} (hpos : 0 < chunkSize)
    (h : n + chunkSize.toNat < 2 ^ 63) :
    chunkCount n chunkSize =
      .ok (UInt32.ofNat ((n + chunkSize.toNat - 1) / chunkSize.toNat)) := by
  have hsize : 0 < chunkSize.toNat := UInt32.lt_iff_toNat_lt.mp hpos
  have hsum : streamsize ((n : Int) + chunkSize.toNat) =
      .ok ((n + chunkSize.toNat : Nat) : Int) := by
    rw [← Int.natCast_add]
    exact streamsize_of_lt h
  have htop : streamsize (((n + chunkSize.toNat : Nat) : Int) - 1) =
      .ok ((n + chunkSize.toNat - 1 : Nat) : Int) := by
    rw [← streamsize_of_lt (n := n + chunkSize.toNat - 1) (by omega)]
    exact congrArg streamsize (by omega)
  have hne : chunkSize ≠ 0 := by
    rintro rfl
    exact absurd hpos (by decide)
  unfold chunkCount
  rw [hsum, ok_bind, htop, ok_bind, if_neg hne, ← Int.ofNat_tdiv, ofInt_natCast]
  rfl

/-- The sum of the size and the chunk size is formed first, and may not fit. -/
theorem chunkCount_overflow {n : Nat} {chunkSize : UInt32} (h : 2 ^ 63 ≤ n + chunkSize.toNat) :
    chunkCount n chunkSize = .error .signedOverflow := by
  have hsum : streamsize ((n : Int) + chunkSize.toNat) = .error .signedOverflow := by
    rw [← Int.natCast_add]
    exact streamsize_overflow h
  unfold chunkCount
  rw [hsum, error_bind]

/-- The payloads that the call cuts a content into: as many windows as the 32-bit
count says. -/
def payloads (m : Bytes) (chunkSize : UInt32) : List Bytes :=
  slices chunkSize.toNat ((m.length + chunkSize.toNat - 1) / chunkSize.toNat % 2 ^ 32) m

theorem readAndChunkFile_of_lt {m : Bytes} {chunkSize : UInt32} (hpos : 0 < chunkSize)
    (h : m.length + chunkSize.toNat < 2 ^ 63) :
    readAndChunkFile (FileView.ofContent m) chunkSize =
      .ok (chunked (hexDigest m) (payloads m chunkSize)) := by
  have hopen : (FileView.ofContent m).isOpen = true :=
    decide_eq_true (show m.length < 2 ^ 63 by omega)
  have hcount : chunkCount (FileView.ofContent m).tellg chunkSize =
      .ok (UInt32.ofNat ((m.length + chunkSize.toNat - 1) / chunkSize.toNat)) :=
    chunkCount_of_lt hpos h
  rw [readAndChunkFile_opened hopen rfl, hcount, ok_bind, readChunks_eq_chunked, payloads,
    UInt32.toNat_ofNat']
  rfl

theorem readAndChunkFile_overflow {m : Bytes} {chunkSize : UInt32} (hopen : m.length < 2 ^ 63)
    (h : 2 ^ 63 ≤ m.length + chunkSize.toNat) :
    readAndChunkFile (FileView.ofContent m) chunkSize = .error .signedOverflow := by
  have hcount : chunkCount (FileView.ofContent m).tellg chunkSize = .error .signedOverflow :=
    chunkCount_overflow h
  rw [readAndChunkFile_opened (decide_eq_true hopen) rfl, hcount, error_bind]

theorem readAndChunkFile_too_long {m : Bytes} (h : 2 ^ 63 ≤ m.length) (chunkSize : UInt32) :
    readAndChunkFile (FileView.ofContent m) chunkSize = .ok [] :=
  readAndChunkFile_unopened (Or.inl (decide_eq_false (Nat.not_lt.mpr h))) chunkSize

theorem payloads_flatten {m : Bytes} {chunkSize : UInt32} (hpos : 0 < chunkSize)
    (h : (m.length + chunkSize.toNat - 1) / chunkSize.toNat < 2 ^ 32) :
    (payloads m chunkSize).flatten = m := by
  have hsize : 0 < chunkSize.toNat := UInt32.lt_iff_toNat_lt.mp hpos
  rw [payloads, flatten_slices, Nat.mod_eq_of_lt h]
  apply List.take_of_length_le
  have hdiv := Nat.div_add_mod (m.length + chunkSize.toNat - 1) chunkSize.toNat
  have hmod := Nat.mod_lt (m.length + chunkSize.toNat - 1) hsize
  rw [Nat.mul_comm]
  omega

theorem payloads_length_lt (m : Bytes) (chunkSize : UInt32) :
    (payloads m chunkSize).length < 2 ^ 32 := by
  rw [payloads, slices_length]
  exact Nat.mod_lt _ (by decide)

theorem length_le_of_mem_payloads {m part : Bytes} {chunkSize : UInt32}
    (h : part ∈ payloads m chunkSize) : part.length ≤ chunkSize.toNat := by
  simp only [payloads, slices, List.mem_map] at h
  obtain ⟨k, -, rfl⟩ := h
  rw [slice_length]
  exact Nat.min_le_left _ _

end EggDelivery
