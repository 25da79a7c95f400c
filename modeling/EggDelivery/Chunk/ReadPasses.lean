import EggDelivery.Chunk.ChunkCount

/-!
# Two readings of one file

`readAndChunkFile` asks for the size, lets `hashFile` read the file through a stream of
its own, and reads it again for the chunks. Both loops end where their stream stops and
do not ask why it stopped. A file that changes in between, or a read error, gives chunks
whose data is not what the hash in them was computed from.
-/

namespace EggDelivery

open Slices Fips180

/-- The accesses of one call: what the call sees, and for each of the two readings
whether it is an I/O error that ends its stream. -/
structure FileAccess where
  view : FileView
  hashFails : Bool
  chunkFails : Bool
deriving Repr, DecidableEq

def loopStream (chunkSize : UInt32) : Nat → IfStream → IfStream
  | 0, file => file
  | n + 1, file => loopStream chunkSize n (file.read chunkSize.toNat).2

/-! ## When the loop runs into the end of its stream -/

theorem loopStream_bad (chunkSize : UInt32) (n : Nat) {file : IfStream} (hbad : file.good = false) :
    (loopStream chunkSize n file).good = false := by
  induction n generalizing file with
  | zero => exact hbad
  | succ n ih =>
      rw [loopStream, IfStream.read_of_bad _ hbad]
      exact ih hbad

theorem loopStream_good_iff {chunkSize : UInt32} (hpos : 0 < chunkSize) (n : Nat)
    {file : IfStream} (hgood : file.good = true) :
    (loopStream chunkSize n file).good = true ↔ n * chunkSize.toNat ≤ file.content.length := by
  have hsize : 0 < chunkSize.toNat := UInt32.lt_iff_toNat_lt.mp hpos
  induction n generalizing file with
  | zero => simpa [loopStream] using hgood
  | succ n ih =>
      rw [loopStream, Nat.succ_mul]
      by_cases hle : chunkSize.toNat ≤ file.content.length
      · rw [IfStream.read_of_le hgood hle]
        refine (ih rfl).trans ?_
        rw [List.length_drop]
        omega
      · rw [IfStream.read_of_lt hgood (Nat.lt_of_not_le hle), loopStream_bad _ _ rfl]
        exact iff_of_false (by decide) (by omega)

/-! ## Consistent results -/

/-- The loop over the chunks meets the I/O error in its reading. -/
def ChunkError (a : FileAccess) (chunkSize : UInt32) : Prop :=
  a.chunkFails = true ∧ ∃ total, chunkCount a.view.tellg chunkSize = .ok total ∧
    (loopStream chunkSize total.toNat { content := a.view.chunkPass }).good = false

/-- The call has a defined result, which is empty after an I/O error and in which every
chunk carries the hash of the data of all of them. -/
def OffersConsistently (a : FileAccess) (chunkSize : UInt32) : Prop :=
  ∃ cs, readAndChunkFile a.view chunkSize = .ok cs ∧
    (a.hashFails = true ∨ ChunkError a chunkSize → cs = []) ∧
    ∀ c ∈ cs, c.fileHash = hexDigest (cs.map FileChunk.data).flatten

def askedFor (a : FileAccess) (chunkSize : UInt32) : Nat :=
  turns a.view.tellg chunkSize * chunkSize.toNat

def PassesAgree (a : FileAccess) (chunkSize : UInt32) (hashed : Bytes) : Prop :=
  a.hashFails = false ∧
    (a.chunkFails = true → askedFor a chunkSize ≤ a.view.chunkPass.length) ∧
    hexDigest hashed = hexDigest (a.view.chunkPass.take (askedFor a chunkSize))

def AccessesAgree (a : FileAccess) (chunkSize : UInt32) : Prop :=
  a.view.isOpen = false ∨ a.view.hashPass = none ∨
    (CountDefined a.view.tellg chunkSize ∧
      (turns a.view.tellg chunkSize = 0 ∨ ∃ hashed, a.view.hashPass = some hashed ∧
        PassesAgree a chunkSize hashed))

theorem chunkError_iff {a : FileAccess} {chunkSize : UInt32} (hsize : -1 ≤ a.view.tellg)
    (hdefined : CountDefined a.view.tellg chunkSize) :
    ChunkError a chunkSize ↔
      a.chunkFails = true ∧ a.view.chunkPass.length < askedFor a chunkSize := by
  have htoNat : (UInt32.ofNat (turns a.view.tellg chunkSize)).toNat =
      turns a.view.tellg chunkSize :=
    UInt32.toNat_ofNat_of_lt' (turns_lt a.view.tellg chunkSize)
  have hgood := @loopStream_good_iff chunkSize hdefined.1 (turns a.view.tellg chunkSize)
    { content := a.view.chunkPass } rfl
  rw [ChunkError, chunkCount_eq hsize hdefined, askedFor, ← Nat.not_le, ← hgood]
  simp [htoNat]

theorem readChunks_consistent_iff {a : FileAccess} {chunkSize : UInt32} (hashed : Bytes)
    (hsize : -1 ≤ a.view.tellg) (hdefined : CountDefined a.view.tellg chunkSize) :
    ((a.hashFails = true ∨ ChunkError a chunkSize →
        readChunks (hexDigest hashed) chunkSize (turns a.view.tellg chunkSize)
          a.view.chunkPass = []) ∧
      ∀ c ∈ readChunks (hexDigest hashed) chunkSize (turns a.view.tellg chunkSize)
          a.view.chunkPass,
        c.fileHash = hexDigest ((readChunks (hexDigest hashed) chunkSize
          (turns a.view.tellg chunkSize) a.view.chunkPass).map FileChunk.data).flatten) ↔
      turns a.view.tellg chunkSize = 0 ∨ PassesAgree a chunkSize hashed := by
  rw [readChunks_eq_nil_iff, chunkError_iff hsize hdefined, readChunks_data, ← askedFor]
  by_cases hzero : turns a.view.tellg chunkSize = 0
  · refine iff_of_true ⟨fun _ => hzero, fun c hc => ?_⟩ (Or.inl hzero)
    rw [readChunks_eq_nil_iff.mpr hzero] at hc
    exact absurd hc List.not_mem_nil
  · rw [or_iff_right hzero, PassesAgree]
    constructor
    · rintro ⟨herror, hhash⟩
      obtain ⟨c, hc⟩ := List.exists_mem_of_ne_nil _ (mt readChunks_eq_nil_iff.mp hzero)
      refine ⟨?_, fun hfails => ?_, ?_⟩
      · exact Bool.eq_false_iff.mpr fun hfails => hzero (herror (Or.inl hfails))
      · exact Nat.le_of_not_lt fun hlt => hzero (herror (Or.inr ⟨hfails, hlt⟩))
      · rw [← hhash c hc, (mem_readChunks hc).2.1]
    · rintro ⟨hnohash, hnochunk, hsame⟩
      refine ⟨?_, fun c hc => ?_⟩
      · rintro (hfails | ⟨hfails, hlt⟩)
        · rw [hnohash] at hfails
          cases hfails
        · exact absurd (hnochunk hfails) (Nat.not_le.mpr hlt)
      · rw [(mem_readChunks hc).2.1, hsame]

/-- For every outcome of the file accesses the result is consistent exactly if the call
has nothing to offer, or no reading meets an error and the bytes of the chunks have the
hash of the bytes that were hashed. -/
theorem offersConsistently_iff (a : FileAccess) (chunkSize : UInt32)
    (hsize : -1 ≤ a.view.tellg ∧ a.view.tellg < 2 ^ 63) :
    OffersConsistently a chunkSize ↔ AccessesAgree a chunkSize := by
  rw [OffersConsistently, AccessesAgree]
  cases hopen : a.view.isOpen with
  | false =>
      refine iff_of_true ⟨[], readAndChunkFile_unopened (Or.inl hopen) chunkSize, ?_⟩ (Or.inl rfl)
      exact ⟨fun _ => rfl, fun c hc => absurd hc List.not_mem_nil⟩
  | true =>
      cases hhash : a.view.hashPass with
      | none =>
          refine iff_of_true ⟨[], readAndChunkFile_unopened (Or.inr hhash) chunkSize, ?_⟩
            (Or.inr (Or.inl rfl))
          exact ⟨fun _ => rfl, fun c hc => absurd hc List.not_mem_nil⟩
      | some hashed =>
          by_cases hdefined : CountDefined a.view.tellg chunkSize
          · have hconsistent := readChunks_consistent_iff hashed hsize.1 hdefined
            have hread := readAndChunkFile_of_defined hopen hhash hsize.1 hdefined
            simpa [hread, hdefined] using hconsistent
          · refine iff_of_false ?_ ?_
            · rintro ⟨cs, hread, -⟩
              exact readAndChunkFile_undefined hopen hhash hsize.1 hdefined cs hread
            · simp [hdefined]

theorem offersConsistently_three_bytes :
    OffersConsistently ⟨FileView.ofContent [1, 2, 3], false, false⟩ 2 :=
  (offersConsistently_iff ⟨FileView.ofContent [1, 2, 3], false, false⟩ 2 (by decide)).mpr
    (Or.inr (Or.inr ⟨⟨by decide, by decide⟩, Or.inr ⟨[1, 2, 3], rfl, rfl, by decide, rfl⟩⟩))

/-- The hash pass stops at once with an error, and the chunk is offered. -/
theorem not_offersConsistently_hash_error :
    ¬∀ (a : FileAccess) (chunkSize : UInt32), -1 ≤ a.view.tellg ∧ a.view.tellg < 2 ^ 63 →
      OffersConsistently a chunkSize := by
  intro h
  obtain ⟨cs, hread, hempty, -⟩ := h ⟨⟨true, 1, some [], [7]⟩, true, false⟩ 1 (by decide)
  rw [readAndChunkFile_of_defined rfl rfl (by decide) ⟨by decide, by decide⟩] at hread
  cases hread
  exact absurd (readChunks_eq_nil_iff.mp (hempty (Or.inl rfl))) (by decide)

end EggDelivery
