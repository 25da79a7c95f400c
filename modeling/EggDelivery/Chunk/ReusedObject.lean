import EggDelivery.Chunk.WordSize
import EggDelivery.Library.Run

/-!
# A chunk object that is decoded into several times

`FileChunk::deserialize` assigns the fields of the object while it reads, so each of
its exits leaves the fields assigned so far. The program takes a fresh object for every
packet; here one object is used for a whole sequence of packets.
-/

namespace EggDelivery.FileChunk

/-! ## What a rejected packet leaves behind -/

def Foreign (buf : Bytes) : Prop :=
  buf.length < 25 ∨ wordAt buf 0 ≠ protocolMagic.toNat ∨ buf[4]? ≠ some protocolVersion

/-- A packet of this protocol whose length words point behind its end. -/
def Overdeclared (buf : Bytes) : Prop :=
  ¬Foreign buf ∧ buf.length < 25 + wordAt buf 21 + wordAt buf 13

/-- The rejected packets, and the object each of them leaves: one case for each exit
behind the checks of the header. -/
inductive Rejected (prior : FileChunk) : Bytes → FileChunk → Prop
  | foreign {buf : Bytes} (h : Foreign buf) : Rejected prior buf prior
  | hashOverdeclared {chunkId totalChunks dataSize crc hashLen : UInt32} {rest : Bytes}
      (h : rest.length < hashLen.toNat) :
      Rejected prior
        (header protocolMagic protocolVersion chunkId totalChunks dataSize crc hashLen ++ rest)
        { prior with chunkId, totalChunks, dataSize }
  | dataOverdeclared {chunkId totalChunks dataSize crc hashLen : UInt32} {fileHash rest : Bytes}
      (hhash : fileHash.length = hashLen.toNat) (h : rest.length < dataSize.toNat) :
      Rejected prior
        (header protocolMagic protocolVersion chunkId totalChunks dataSize crc hashLen ++
          (fileHash ++ rest))
        { prior with chunkId, totalChunks, dataSize, fileHash }
  | crcMismatch {chunkId totalChunks dataSize crc hashLen : UInt32} {fileHash data rest : Bytes}
      (hhash : fileHash.length = hashLen.toNat) (hdata : data.length = dataSize.toNat)
      (h : crc32 data ≠ crc) :
      Rejected prior
        (header protocolMagic protocolVersion chunkId totalChunks dataSize crc hashLen ++
          (fileHash ++ (data ++ rest)))
        { chunkId, totalChunks, dataSize, fileHash, data }

theorem foreign_header_iff (magic : UInt32) (version : UInt8)
    (chunkId totalChunks dataSize crc hashLen : UInt32) (rest : Bytes) :
    Foreign (header magic version chunkId totalChunks dataSize crc hashLen ++ rest) ↔
      magic ≠ protocolMagic ∨ version ≠ protocolVersion := by
  have hversion : (header magic version chunkId totalChunks dataSize crc hashLen ++ rest)[4]? =
      some version := rfl
  rw [Foreign, (wordAt_header ..).1, hversion, ne_eq, ne_eq, UInt32.toNat_inj,
    Option.some.injEq, List.length_append, header_length]
  exact or_iff_right (Nat.not_lt.mpr (Nat.le_add_right _ _))

theorem deserialize_of_foreign (prior : FileChunk) {buf : Bytes} (h : Foreign buf) :
    deserialize 64 prior buf = .ok (false, prior) := by
  by_cases hshort : buf.length < 25
  · exact deserialize_short 64 prior hshort
  obtain ⟨magic, version, chunkId, totalChunks, dataSize, crc, hashLen, rest, rfl⟩ :=
    exists_header (Nat.not_lt.mp hshort)
  rw [foreign_header_iff] at h
  exact deserialize_foreign h prior ..

theorem deserialize_of_rejected {prior c : FileChunk} {buf : Bytes} (h : Rejected prior buf c) :
    deserialize 64 prior buf = .ok (false, c) := by
  cases h with
  | foreign h => exact deserialize_of_foreign prior h
  | hashOverdeclared h =>
      rw [deserialize_header (by decide), decodeRest, if_neg (by simp), if_neg (by simp), if_pos h]
  | dataOverdeclared hhash h =>
      rw [deserialize_header (by decide), decodeRest, if_neg (by simp), if_neg (by simp),
        List.length_append, if_neg (by omega), if_pos (by omega), ← hhash, List.take_left]
  | crcMismatch hhash hdata h =>
      rw [deserialize_body (by decide) prior _ _ _ hhash hdata, beq_eq_false_iff_ne.mpr h]

theorem exists_split {bytes : Bytes} {n : Nat} (h : n ≤ bytes.length) :
    ∃ front back, bytes = front ++ back ∧ front.length = n :=
  ⟨bytes.take n, bytes.drop n, (List.take_append_drop n bytes).symm, List.length_take_of_le h⟩

/-- The decoder gives one result, so what it leaves is what `Rejected` says. -/
theorem Rejected.of_deserialize {prior c c' : FileChunk} {buf : Bytes}
    (hrejected : Rejected prior buf c') (h : deserialize 64 prior buf = .ok (false, c)) :
    Rejected prior buf c := by
  rw [deserialize_of_rejected hrejected] at h
  cases h
  exact hrejected

theorem rejected_of_deserialize {prior c : FileChunk} {buf : Bytes}
    (h : deserialize 64 prior buf = .ok (false, c)) : Rejected prior buf c := by
  by_cases hforeign : Foreign buf
  · exact (Rejected.foreign hforeign).of_deserialize h
  have hlong : 25 ≤ buf.length := Nat.not_lt.mp fun hshort => hforeign (Or.inl hshort)
  obtain ⟨magic, version, chunkId, totalChunks, dataSize, crc, hashLen, rest, rfl⟩ :=
    exists_header hlong
  rw [foreign_header_iff, not_or, not_not, not_not] at hforeign
  obtain ⟨rfl, rfl⟩ := hforeign
  by_cases hhash : rest.length < hashLen.toNat
  · exact (Rejected.hashOverdeclared hhash).of_deserialize h
  obtain ⟨fileHash, rest, rfl, hfileHash⟩ := exists_split (Nat.le_of_not_lt hhash)
  by_cases hdata : rest.length < dataSize.toNat
  · exact (Rejected.dataOverdeclared hfileHash hdata).of_deserialize h
  obtain ⟨data, rest, rfl, hsize⟩ := exists_split (Nat.le_of_not_lt hdata)
  by_cases hcrc : crc32 data = crc
  · -- with the right checksum the packet is accepted
    rw [deserialize_body (by decide) prior _ _ _ hfileHash hsize, beq_iff_eq.mpr hcrc] at h
    cases h
  · exact (Rejected.crcMismatch hfileHash hsize hcrc).of_deserialize h

/-! ## One object for a sequence of packets -/

def reuse (chunk : FileChunk) (buf : Bytes) : FileChunk × Except Ub Bool :=
  match deserialize 64 chunk buf with
  | .ok (accepted, chunk) => (chunk, .ok accepted)
  | .error e => (chunk, .error e)

def Sized (c : FileChunk) : Prop := c.dataSize.toNat = c.data.length

theorem reuse_of_ok {chunk c : FileChunk} {buf : Bytes} {accepted : Bool}
    (h : deserialize 64 chunk buf = .ok (accepted, c)) : reuse chunk buf = (c, .ok accepted) := by
  rw [reuse, h]

theorem overdeclared_header_iff (chunkId totalChunks dataSize crc hashLen : UInt32)
    (rest : Bytes) :
    Overdeclared
        (header protocolMagic protocolVersion chunkId totalChunks dataSize crc hashLen ++ rest) ↔
      rest.length < hashLen.toNat + dataSize.toNat := by
  rw [Overdeclared, foreign_header_iff, (wordAt_header ..).2.1, (wordAt_header ..).2.2,
    List.length_append, header_length, Nat.add_assoc, Nat.add_lt_add_iff_left]
  exact and_iff_right (by simp)

theorem sized_of_accepted {prior c : FileChunk} {buf : Bytes}
    (h : deserialize 64 prior buf = .ok (true, c)) : Sized c :=
  (of_deserialize_true (by decide) h).1

theorem sized_of_rejected {prior c : FileChunk} {buf : Bytes} (h : Rejected prior buf c)
    (hover : ¬Overdeclared buf) (hprior : Sized prior) : Sized c := by
  cases h with
  | foreign h => exact hprior
  | hashOverdeclared h =>
      rw [overdeclared_header_iff] at hover
      omega
  | dataOverdeclared hhash h =>
      rw [overdeclared_header_iff, List.length_append] at hover
      omega
  | crcMismatch hhash hdata h => exact hdata.symm

theorem sized_reuse {chunk : FileChunk} {buf : Bytes} (hover : ¬Overdeclared buf)
    (hchunk : Sized chunk) : Sized (reuse chunk buf).1 := by
  obtain ⟨⟨accepted, c⟩, hr⟩ := deserialize_defined (w := 64) (by decide) chunk buf
  rw [reuse_of_ok hr]
  cases accepted with
  | true => exact sized_of_accepted hr
  | false => exact sized_of_rejected (rejected_of_deserialize hr) hover hchunk

theorem final_reuse_of_foreign {chunk : FileChunk} {later : List Bytes}
    (h : ∀ buf ∈ later, Foreign buf) : Run.final reuse chunk later = chunk := by
  refine Run.log_invariant reuse (A := Foreign) (P := fun _ c => c = chunk) rfl ?_ later h
  rintro - c buf hforeign rfl
  rw [reuse_of_ok (deserialize_of_foreign c hforeign)]

theorem sized_final_reuse {chunk : FileChunk} (hchunk : Sized chunk) {later : List Bytes}
    (h : ∀ buf ∈ later, ¬Overdeclared buf) : Sized (Run.final reuse chunk later) :=
  Run.log_invariant reuse (A := fun buf => ¬Overdeclared buf) (P := fun _ c => Sized c) hchunk
    (fun _ _ _ hover hprior => sized_reuse hover hprior) later h

/-- A call that rejects its packet leaves the object that `Rejected` says, so an object
that accepted a packet holds its chunk as long as all that comes later is too short or
not of this protocol, and its `data_size` is right as long as no later packet points
behind its end. -/
theorem rejected_object_and_runs :
    (∀ (prior : FileChunk) (buf : Bytes) (c : FileChunk),
      deserialize 64 prior buf = .ok (false, c) ↔ Rejected prior buf c) ∧
    (∀ (start : FileChunk) (past : List Bytes) (buf : Bytes) (later : List Bytes) (c : FileChunk),
      deserialize 64 (Run.final reuse start past) buf = .ok (true, c) →
        ((∀ b ∈ later, Foreign b) → Run.final reuse start (past ++ buf :: later) = c) ∧
        ((∀ b ∈ later, ¬Overdeclared b) → Sized (Run.final reuse start (past ++ buf :: later))) ∧
        Sized c ∧ ∃ t, buf = c.serialize ++ t) := by
  refine ⟨fun prior buf c => ⟨rejected_of_deserialize, deserialize_of_rejected⟩,
    fun start past buf later c haccept => ?_⟩
  have hsized := sized_of_accepted haccept
  rw [Run.final_append, Run.final_cons, reuse_of_ok haccept]
  exact ⟨final_reuse_of_foreign, sized_final_reuse hsized, hsized,
    (of_deserialize_true (by decide) haccept).2.2.2⟩

/-- A header that declares a byte of hash and ends there is rejected, and its chunk number
stays in the object. -/
theorem rejected_packet_leaves_its_number :
    ¬∀ (prior : FileChunk) (buf : Bytes) (c : FileChunk),
      deserialize 64 prior buf = .ok (false, c) → c = prior := by
  intro h
  have hkept := h {} (header protocolMagic protocolVersion 7 9 0 0 1)
    { chunkId := 7, totalChunks := 9 } (by decide)
  exact absurd hkept (by decide)

end EggDelivery.FileChunk
