import EggDelivery.Chunk.FileChunk

/-!
# The chunk codec, both directions

A buffer of at least 25 bytes is a header of seven fields followed by a rest.
`deserialize_header` computes the decoder on such a buffer once; every fact about
the decoder is read off that equation. `serialize` is the header built from the
chunk's own containers.
-/

namespace EggDelivery.FileChunk

open BigEndian

/-! ## The header -/

def header (magic : UInt32) (version : UInt8) (chunkId totalChunks dataSize crc hashLen : UInt32) :
    Bytes :=
  bytes magic ++ version :: (bytes chunkId ++ (bytes totalChunks ++ (bytes dataSize ++
    (bytes crc ++ bytes hashLen))))

@[simp] theorem header_length (magic : UInt32) (version : UInt8)
    (chunkId totalChunks dataSize crc hashLen : UInt32) :
    (header magic version chunkId totalChunks dataSize crc hashLen).length = 25 := rfl

theorem serialize_eq (c : FileChunk) :
    c.serialize = header protocolMagic protocolVersion c.chunkId c.totalChunks
      (UInt32.ofNat c.data.length) (crc32 c.data) (UInt32.ofNat c.fileHash.length) ++
        (c.fileHash ++ c.data) := by
  simp [serialize, writeU32, header]

@[simp] theorem serialize_length (c : FileChunk) :
    c.serialize.length = 25 + c.fileHash.length + c.data.length := by
  rw [serialize_eq, List.length_append, header_length, List.length_append]
  omega

theorem serialize_ne_nil (c : FileChunk) : c.serialize ≠ [] := by
  intro hnil
  have hlen := congrArg List.length hnil
  rw [serialize_length, List.length_nil] at hlen
  omega

private theorem four_bytes {xs : Bytes} (h : 4 ≤ xs.length) :
    ∃ v rest, xs = bytes v ++ rest := by
  match xs, h with
  | a :: b :: c :: d :: rest, _ => exact ⟨join a b c d, rest, by rw [bytes_join]; rfl⟩

theorem exists_header {buf : Bytes} (h : 25 ≤ buf.length) :
    ∃ magic version chunkId totalChunks dataSize crc hashLen rest,
      buf = header magic version chunkId totalChunks dataSize crc hashLen ++ rest := by
  obtain ⟨magic, r, rfl⟩ := four_bytes (show 4 ≤ buf.length by omega)
  rw [List.length_append, bytes_length] at h
  match r, h with
  | version :: r, h =>
      rw [List.length_cons] at h
      obtain ⟨chunkId, r, rfl⟩ := four_bytes (show 4 ≤ r.length by omega)
      rw [List.length_append, bytes_length] at h
      obtain ⟨totalChunks, r, rfl⟩ := four_bytes (show 4 ≤ r.length by omega)
      rw [List.length_append, bytes_length] at h
      obtain ⟨dataSize, r, rfl⟩ := four_bytes (show 4 ≤ r.length by omega)
      rw [List.length_append, bytes_length] at h
      obtain ⟨crc, r, rfl⟩ := four_bytes (show 4 ≤ r.length by omega)
      rw [List.length_append, bytes_length] at h
      obtain ⟨hashLen, r, rfl⟩ := four_bytes (show 4 ≤ r.length by omega)
      exact ⟨magic, version, chunkId, totalChunks, dataSize, crc, hashLen, r, by simp [header]⟩

/-! ## The decoder on a header -/

theorem at_append (pre : Bytes) (b : UInt8) (rest : Bytes) {i : Nat} (hi : i = pre.length) :
    at? (pre ++ b :: rest) i = .ok b := by
  simp [at?, hi]

theorem readU32_append (pre : Bytes) (v : UInt32) (rest : Bytes) {o : Nat}
    (ho : o = pre.length) : readU32 (pre ++ (bytes v ++ rest)) o = .ok (v, o + 4) := by
  have h0 : at? (pre ++ (bytes v ++ rest)) o = .ok (byteAt v 24) :=
    at_append pre _ _ ho
  have h1 : at? (pre ++ (bytes v ++ rest)) (o + 1) = .ok (byteAt v 16) := by
    simpa [bytes] using at_append (pre ++ [byteAt v 24]) (byteAt v 16)
      (byteAt v 8 :: (v &&& 0xFF).toUInt8 :: rest) (i := o + 1) (by simp [ho])
  have h2 : at? (pre ++ (bytes v ++ rest)) (o + 2) = .ok (byteAt v 8) := by
    simpa [bytes] using at_append (pre ++ [byteAt v 24, byteAt v 16]) (byteAt v 8)
      ((v &&& 0xFF).toUInt8 :: rest) (i := o + 2) (by simp [ho])
  have h3 : at? (pre ++ (bytes v ++ rest)) (o + 3) = .ok (v &&& 0xFF).toUInt8 := by
    simpa [bytes] using at_append (pre ++ [byteAt v 24, byteAt v 16, byteAt v 8])
      (v &&& 0xFF).toUInt8 rest (i := o + 3) (by simp [ho])
  rw [readU32, h0, h1, h2, h3]
  change Except.ok (join (byteAt v 24) (byteAt v 16) (byteAt v 8) (v &&& 0xFF).toUInt8, o + 4) = _
  rw [join_bytes]

theorem addSize_of_lt {w a b : Nat} (hw : 34 ≤ w) (h : a + b < 2 ^ 34) : addSize w a b = a + b :=
  Nat.mod_eq_of_lt (Nat.lt_of_lt_of_le h (Nat.pow_le_pow_right (by decide) hw))

theorem assignRange_of_le {buf : Bytes} {first count : Nat} (h : first + count ≤ buf.length) :
    assignRange buf first count = .ok ((buf.drop first).take count) := by
  rw [assignRange, if_pos h]

theorem assignRange_of_lt {buf : Bytes} {first count : Nat} (h : buf.length < first + count) :
    assignRange buf first count = .error .outOfBounds := by
  rw [assignRange, if_neg (Nat.not_le.mpr h)]

/-- The decoder from the point where the seven fields of the header are read. -/
def decodeFields (w : Nat) (chunk : FileChunk) (magic : UInt32) (version : UInt8)
    (chunkId totalChunks dataSize crc hashLen : UInt32) (buf : Bytes) :
    Except Ub (Bool × FileChunk) :=
  if magic ≠ protocolMagic then .ok (false, chunk)
  else if version ≠ protocolVersion then .ok (false, chunk)
  else if buf.length < addSize w 25 hashLen.toNat then
    .ok (false, { chunk with chunkId, totalChunks, dataSize })
  else do
    let fileHash ← assignRange buf 25 hashLen.toNat
    if buf.length < addSize w (addSize w 25 hashLen.toNat) dataSize.toNat then
      pure (false, { chunk with chunkId, totalChunks, dataSize, fileHash })
    else
      let data ← assignRange buf (addSize w 25 hashLen.toNat) dataSize.toNat
      pure (crc32 data == crc, { chunkId, totalChunks, dataSize, fileHash, data })

/-- The header is read without `size_t` sums that could wrap. -/
theorem deserialize_eq_decodeFields (w : Nat) (chunk : FileChunk) (magic : UInt32)
    (version : UInt8) (chunkId totalChunks dataSize crc hashLen : UInt32) (rest : Bytes) :
    deserialize w chunk
        (header magic version chunkId totalChunks dataSize crc hashLen ++ rest) =
      decodeFields w chunk magic version chunkId totalChunks dataSize crc hashLen
        (header magic version chunkId totalChunks dataSize crc hashLen ++ rest) := by
  have hlen : ¬(header magic version chunkId totalChunks dataSize crc hashLen ++ rest).length <
      25 := by simp
  have hmagic : readU32 (header magic version chunkId totalChunks dataSize crc hashLen ++ rest) 0 =
      .ok (magic, 4) := by
    simpa [header] using readU32_append [] magic (version :: (bytes chunkId ++ (bytes totalChunks ++
      (bytes dataSize ++ (bytes crc ++ (bytes hashLen ++ rest)))))) (o := 0) rfl
  have hversion : at? (header magic version chunkId totalChunks dataSize crc hashLen ++ rest) 4 =
      .ok version := by
    simpa [header] using at_append (bytes magic) version (bytes chunkId ++ (bytes totalChunks ++
      (bytes dataSize ++ (bytes crc ++ (bytes hashLen ++ rest))))) (i := 4) rfl
  have hid : readU32 (header magic version chunkId totalChunks dataSize crc hashLen ++ rest) 5 =
      .ok (chunkId, 9) := by
    simpa [header] using readU32_append (bytes magic ++ [version]) chunkId (bytes totalChunks ++
      (bytes dataSize ++ (bytes crc ++ (bytes hashLen ++ rest)))) (o := 5) rfl
  have htotal : readU32 (header magic version chunkId totalChunks dataSize crc hashLen ++ rest) 9 =
      .ok (totalChunks, 13) := by
    simpa [header] using readU32_append (bytes magic ++ [version] ++ bytes chunkId) totalChunks
      (bytes dataSize ++ (bytes crc ++ (bytes hashLen ++ rest))) (o := 9) rfl
  have hdata : readU32 (header magic version chunkId totalChunks dataSize crc hashLen ++ rest) 13 =
      .ok (dataSize, 17) := by
    simpa [header] using readU32_append (bytes magic ++ [version] ++ bytes chunkId ++
      bytes totalChunks) dataSize (bytes crc ++ (bytes hashLen ++ rest)) (o := 13) rfl
  have hcrc : readU32 (header magic version chunkId totalChunks dataSize crc hashLen ++ rest) 17 =
      .ok (crc, 21) := by
    simpa [header] using readU32_append (bytes magic ++ [version] ++ bytes chunkId ++
      bytes totalChunks ++ bytes dataSize) crc (bytes hashLen ++ rest) (o := 17) rfl
  have hhlen : readU32 (header magic version chunkId totalChunks dataSize crc hashLen ++ rest) 21 =
      .ok (hashLen, 25) := by
    simpa [header] using readU32_append (bytes magic ++ [version] ++ bytes chunkId ++
      bytes totalChunks ++ bytes dataSize ++ bytes crc) hashLen rest (o := 21) rfl
  rw [deserialize, if_neg hlen, decodeFields]
  simp only [hmagic, hversion, hid, htotal, hdata, hcrc, hhlen, bind, Except.bind, pure,
    Except.pure]

/-- What the decoder does with a header and a rest, as a plain case distinction. -/
def decodeRest (chunk : FileChunk) (magic : UInt32) (version : UInt8)
    (chunkId totalChunks dataSize crc hashLen : UInt32) (rest : Bytes) : Bool × FileChunk :=
  if magic ≠ protocolMagic then (false, chunk)
  else if version ≠ protocolVersion then (false, chunk)
  else if rest.length < hashLen.toNat then
    (false, { chunk with chunkId, totalChunks, dataSize })
  else if rest.length < hashLen.toNat + dataSize.toNat then
    (false, { chunk with
      chunkId, totalChunks, dataSize
      fileHash := rest.take hashLen.toNat })
  else
    (crc32 ((rest.drop hashLen.toNat).take dataSize.toNat) == crc,
      { chunkId, totalChunks, dataSize
        fileHash := rest.take hashLen.toNat
        data := (rest.drop hashLen.toNat).take dataSize.toNat })

/-- With a `size_t` in which two length words cannot wrap, every access is in
bounds and the result is `decodeRest`. -/
theorem deserialize_header {w : Nat} (hw : 34 ≤ w) (chunk : FileChunk) (magic : UInt32)
    (version : UInt8) (chunkId totalChunks dataSize crc hashLen : UInt32) (rest : Bytes) :
    deserialize w chunk
        (header magic version chunkId totalChunks dataSize crc hashLen ++ rest) =
      .ok (decodeRest chunk magic version chunkId totalChunks dataSize crc hashLen rest) := by
  have hhash := hashLen.toNat_lt
  have hsize := dataSize.toNat_lt
  have hlen : (header magic version chunkId totalChunks dataSize crc hashLen ++ rest).length =
      25 + rest.length := by simp
  have hdrop : ∀ n, (header magic version chunkId totalChunks dataSize crc hashLen ++ rest).drop
      (25 + n) = rest.drop n := by
    intro n
    rw [← List.drop_drop, ← header_length magic version chunkId totalChunks dataSize crc hashLen,
      List.drop_left]
  have hoff : addSize w 25 hashLen.toNat = 25 + hashLen.toNat := addSize_of_lt hw (by omega)
  have hend : addSize w (25 + hashLen.toNat) dataSize.toNat =
      25 + hashLen.toNat + dataSize.toNat := addSize_of_lt hw (by omega)
  rw [deserialize_eq_decodeFields, decodeFields, decodeRest, hoff, hend]
  split
  next => rfl
  next =>
    split
    next => rfl
    next =>
      by_cases hh : rest.length < hashLen.toNat
      · rw [if_pos (by omega), if_pos hh]
      · rw [if_neg (by omega), if_neg hh, assignRange_of_le (by omega), hdrop 0, ok_bind]
        by_cases hd : rest.length < hashLen.toNat + dataSize.toNat
        · rw [if_pos (by omega), if_pos hd]
          rfl
        · rw [if_neg (by omega), if_neg hd, assignRange_of_le (by omega), hdrop]
          rfl

theorem deserialize_short (w : Nat) (chunk : FileChunk) {buf : Bytes} (h : buf.length < 25) :
    deserialize w chunk buf = .ok (false, chunk) := by
  rw [deserialize, if_pos h]

/-! ## Both directions -/

section Wide

variable {w : Nat} (hw : 34 ≤ w)
include hw

/-- No access leaves the buffer. -/
theorem deserialize_defined (chunk : FileChunk) (buf : Bytes) :
    ∃ r, deserialize w chunk buf = .ok r := by
  by_cases h : buf.length < 25
  · exact ⟨_, deserialize_short w chunk h⟩
  · obtain ⟨magic, version, chunkId, totalChunks, dataSize, crc, hashLen, rest, rfl⟩ :=
      exists_header (Nat.not_lt.mp h)
    exact ⟨_, deserialize_header hw chunk magic version chunkId totalChunks dataSize crc hashLen rest⟩

/-- A packet whose hash and data are all there is read, and its checksum decides. -/
theorem deserialize_body (prior : FileChunk) (chunkId totalChunks crc : UInt32)
    {dataSize hashLen : UInt32} {fileHash data : Bytes} (hhash : fileHash.length = hashLen.toNat)
    (hdata : data.length = dataSize.toNat) (rest : Bytes) :
    deserialize w prior (header protocolMagic protocolVersion chunkId totalChunks dataSize crc
        hashLen ++ (fileHash ++ (data ++ rest))) =
      .ok (crc32 data == crc, { chunkId, totalChunks, dataSize, fileHash, data }) := by
  rw [deserialize_header hw, decodeRest, if_neg (by simp), if_neg (by simp), List.length_append,
    List.length_append, if_neg (by omega), if_neg (by omega), ← hhash, List.take_left,
    List.drop_left, ← hdata, List.take_left]

/-- Completeness: a serialized chunk is accepted, whatever follows it. -/
theorem deserialize_serialize_append (prior : FileChunk) {c : FileChunk}
    (hhash : c.fileHash.length < 2 ^ 32) (hdata : c.data.length < 2 ^ 32) (t : Bytes) :
    deserialize w prior (c.serialize ++ t) =
      .ok (true, { c with dataSize := UInt32.ofNat c.data.length }) := by
  have hh : c.fileHash.length = (UInt32.ofNat c.fileHash.length).toNat :=
    (UInt32.toNat_ofNat_of_lt' hhash).symm
  have hd : c.data.length = (UInt32.ofNat c.data.length).toNat :=
    (UInt32.toNat_ofNat_of_lt' hdata).symm
  rw [serialize_eq, List.append_assoc, List.append_assoc, deserialize_body hw prior _ _ _ hh hd,
    beq_self_eq_true]

/-- Soundness: an accepted buffer starts with the serialization of the result. -/
theorem of_deserialize_true {prior c : FileChunk} {buf : Bytes}
    (h : deserialize w prior buf = .ok (true, c)) :
    c.dataSize.toNat = c.data.length ∧ c.fileHash.length < 2 ^ 32 ∧ c.data.length < 2 ^ 32 ∧
      ∃ t, buf = c.serialize ++ t := by
  by_cases hshort : buf.length < 25
  · rw [deserialize_short w prior hshort] at h
    cases h
  obtain ⟨magic, version, chunkId, totalChunks, dataSize, crc, hashLen, rest, rfl⟩ :=
    exists_header (Nat.not_lt.mp hshort)
  rw [deserialize_header hw, decodeRest] at h
  split at h
  next => cases h
  next hmagic =>
    split at h
    next => cases h
    next hversion =>
      split at h
      next => cases h
      next hhash =>
        split at h
        next => cases h
        next hdata =>
          simp only [Except.ok.injEq, Prod.mk.injEq, beq_iff_eq] at h
          obtain ⟨hcrc, rfl⟩ := h
          have hlh : (rest.take hashLen.toNat).length = hashLen.toNat := by
            rw [List.length_take]
            omega
          have hld : ((rest.drop hashLen.toNat).take dataSize.toNat).length = dataSize.toNat := by
            rw [List.length_take, List.length_drop]
            omega
          refine ⟨hld.symm, hlh.trans_lt hashLen.toNat_lt, hld.trans_lt dataSize.toNat_lt,
            (rest.drop hashLen.toNat).drop dataSize.toNat, ?_⟩
          rw [serialize_eq, hlh, hld, hcrc, UInt32.ofNat_toNat, UInt32.ofNat_toNat,
            List.append_assoc, List.append_assoc, List.take_append_drop, List.take_append_drop,
            not_ne_iff.mp hmagic, not_ne_iff.mp hversion]

theorem deserialize_true_iff (prior c : FileChunk) (buf : Bytes) :
    deserialize w prior buf = .ok (true, c) ↔
      c.dataSize.toNat = c.data.length ∧ c.fileHash.length < 2 ^ 32 ∧ c.data.length < 2 ^ 32 ∧
        ∃ t, buf = c.serialize ++ t := by
  constructor
  · exact of_deserialize_true hw
  · rintro ⟨hsize, hhash, hdata, t, rfl⟩
    rw [deserialize_serialize_append hw prior hhash hdata, ← hsize, UInt32.ofNat_toNat]

theorem deserialize_true_unique {prior prior' c c' : FileChunk} {buf : Bytes}
    (h : deserialize w prior buf = .ok (true, c))
    (h' : deserialize w prior' buf = .ok (true, c')) : c = c' := by
  have h2 := (deserialize_true_iff hw prior c' buf).mpr ((deserialize_true_iff hw prior' c' buf).mp h')
  rw [h] at h2
  simpa using h2

theorem deserialize_strict_prefix (prior : FileChunk) {c : FileChunk} {p : Bytes}
    (hhash : c.fileHash.length < 2 ^ 32) (hdata : c.data.length < 2 ^ 32)
    (hp : p <+: c.serialize) (hne : p ≠ c.serialize) :
    ∃ c', deserialize w prior p = .ok (false, c') := by
  obtain ⟨⟨accepted, c'⟩, hr⟩ := deserialize_defined hw prior p
  cases accepted with
  | false => exact ⟨c', hr⟩
  | true =>
      -- an accepted prefix would decode the whole buffer to the same chunk
      obtain ⟨hsize, hh', hd', t, rfl⟩ := of_deserialize_true hw hr
      obtain ⟨q, hq⟩ := hp
      have hwhole := deserialize_serialize_append hw prior hhash hdata []
      rw [List.append_nil, ← hq, List.append_assoc] at hwhole
      have hfirst := deserialize_serialize_append hw prior hh' hd' (t ++ q)
      have heq := deserialize_true_unique hw hwhole hfirst
      simp only [FileChunk.mk.injEq] at heq
      have hlen := congrArg List.length hq
      simp only [List.length_append, serialize_length, heq.2.2.1, heq.2.2.2.1] at hlen
      have hq0 : q = [] := List.eq_nil_of_length_eq_zero (by omega)
      rw [hq0, List.append_nil] at hq
      exact (hne hq).elim

end Wide

/-- The codec on a 64-bit `size_t`: acceptance is exactly "a serialized chunk
with 32-bit lengths, then anything". -/
theorem codec_characterisation :
    (∀ (prior c : FileChunk) (buf : Bytes),
      deserialize 64 prior buf = .ok (true, c) ↔
        c.dataSize.toNat = c.data.length ∧ c.fileHash.length < 2 ^ 32 ∧
          c.data.length < 2 ^ 32 ∧ ∃ t, buf = c.serialize ++ t) ∧
    (∀ prior c : FileChunk, c.fileHash.length < 2 ^ 32 → c.data.length < 2 ^ 32 →
      deserialize 64 prior c.serialize =
        .ok (true, { c with dataSize := UInt32.ofNat c.data.length })) ∧
    (∀ (prior c : FileChunk) (p : Bytes), c.fileHash.length < 2 ^ 32 → c.data.length < 2 ^ 32 →
      p <+: c.serialize → p ≠ c.serialize → ∃ c', deserialize 64 prior p = .ok (false, c')) ∧
    (∀ (prior : FileChunk) (buf : Bytes), ∃ r, deserialize 64 prior buf = .ok r) := by
  refine ⟨deserialize_true_iff (by decide), fun prior c hhash hdata => ?_,
    fun prior c p hhash hdata hp hne =>
      deserialize_strict_prefix (by decide) prior hhash hdata hp hne,
    deserialize_defined (by decide)⟩
  simpa using deserialize_serialize_append (w := 64) (by decide) prior hhash hdata []

end EggDelivery.FileChunk
