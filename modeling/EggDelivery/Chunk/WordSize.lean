import EggDelivery.Chunk.Corruption

/-!
# The decoder and the width of `size_t`

Both guards of `FileChunk::deserialize` add a length word of the packet to an offset
and compare the sum with the size of the buffer. In 64 bits the sum cannot wrap. In 32
bits it can, the guard then passes on a small number, and `assign` is called with a
range that leaves the buffer.
-/

namespace EggDelivery.FileChunk

/-! ## The sum of an offset and a length word -/

theorem addSize_of_lt_pow {w a b : Nat} (h : a + b < 2 ^ w) : addSize w a b = a + b :=
  Nat.mod_eq_of_lt h

theorem addSize_lt_of_wrap {w a b : Nat} (ha : a < 2 ^ w) (hb : b < 2 ^ w) (h : 2 ^ w ≤ a + b) :
    addSize w a b < a := by
  rw [addSize, Nat.mod_eq_sub_mod h, Nat.mod_eq_of_lt (by omega)]
  omega

/-! ## When a guard is passed on a wrapped sum -/

/-- A packet of this protocol in which the end of the hash wraps, or the hash fits
and the end of the data wraps. -/
def LengthsWrap (w : Nat) (buf : Bytes) : Prop :=
  25 ≤ buf.length ∧ wordAt buf 0 = protocolMagic.toNat ∧ buf[4]? = some protocolVersion ∧
    (2 ^ w ≤ 25 + wordAt buf 21 ∨
      (25 + wordAt buf 21 ≤ buf.length ∧ 2 ^ w ≤ 25 + wordAt buf 21 + wordAt buf 13))

section Header

variable (magic : UInt32) (version : UInt8)
  (chunkId totalChunks dataSize crc hashLen : UInt32) (rest : Bytes)

theorem lengthsWrap_header_iff (w : Nat) :
    LengthsWrap w (header magic version chunkId totalChunks dataSize crc hashLen ++ rest) ↔
      magic = protocolMagic ∧ version = protocolVersion ∧
        (2 ^ w ≤ 25 + hashLen.toNat ∨
          (hashLen.toNat ≤ rest.length ∧ 2 ^ w ≤ 25 + hashLen.toNat + dataSize.toNat)) := by
  have hversion : (header magic version chunkId totalChunks dataSize crc hashLen ++ rest)[4]? =
      some version := rfl
  rw [LengthsWrap, (wordAt_header ..).1, (wordAt_header ..).2.1, (wordAt_header ..).2.2, hversion,
    List.length_append, header_length, UInt32.toNat_inj, Option.some.injEq,
    Nat.add_le_add_iff_left]
  exact and_iff_right (Nat.le_add_right _ _)

/-! ## The decoder on a header -/

/-- A wrapped sum passes its guard, and the range behind it leaves the buffer. -/
theorem deserialize_of_lengthsWrap {w : Nat} (hw : 32 ≤ w) (chunk : FileChunk)
    (hlen : (header magic version chunkId totalChunks dataSize crc hashLen ++ rest).length < 2 ^ w)
    (h : LengthsWrap w
      (header magic version chunkId totalChunks dataSize crc hashLen ++ rest)) :
    deserialize w chunk
        (header magic version chunkId totalChunks dataSize crc hashLen ++ rest) =
      .error .outOfBounds := by
  have hword : 2 ^ 32 ≤ 2 ^ w := Nat.pow_le_pow_right (by decide) hw
  have hhash := hashLen.toNat_lt
  have hsize := dataSize.toNat_lt
  have hbuf : (header magic version chunkId totalChunks dataSize crc hashLen ++ rest).length =
      25 + rest.length := by simp
  obtain ⟨hmagic, hversion, hwrap⟩ := (lengthsWrap_header_iff ..).mp h
  rw [deserialize_eq_decodeFields, decodeFields, if_neg (not_not.mpr hmagic),
    if_neg (not_not.mpr hversion)]
  by_cases hfirst : 2 ^ w ≤ 25 + hashLen.toNat
  · -- the end of the hash wraps
    have hoff : addSize w 25 hashLen.toNat < 25 :=
      addSize_lt_of_wrap (by omega) (by omega) hfirst
    rw [if_neg (by omega), assignRange_of_lt (by omega)]
    rfl
  · -- the end of the data wraps
    obtain ⟨hfit, hsecond⟩ := hwrap.resolve_left hfirst
    have hoff : addSize w 25 hashLen.toNat = 25 + hashLen.toNat :=
      addSize_of_lt_pow (by omega)
    have hend : addSize w (25 + hashLen.toNat) dataSize.toNat < 25 + hashLen.toNat :=
      addSize_lt_of_wrap (by omega) (by omega) hsecond
    rw [hoff, if_neg (by omega), assignRange_of_le (by omega), ok_bind, if_neg (by omega),
      assignRange_of_lt (by omega)]
    rfl

theorem deserialize_of_not_lengthsWrap {w : Nat} (chunk : FileChunk)
    (h : ¬LengthsWrap w
      (header magic version chunkId totalChunks dataSize crc hashLen ++ rest)) :
    ∃ r, deserialize w chunk
      (header magic version chunkId totalChunks dataSize crc hashLen ++ rest) = .ok r := by
  have hbuf : (header magic version chunkId totalChunks dataSize crc hashLen ++ rest).length =
      25 + rest.length := by simp
  rw [lengthsWrap_header_iff] at h
  rw [deserialize_eq_decodeFields, decodeFields]
  split
  next => exact ⟨_, rfl⟩
  next hmagic =>
    split
    next => exact ⟨_, rfl⟩
    next hversion =>
      have hwrap := fun hw => h ⟨not_not.mp hmagic, not_not.mp hversion, hw⟩
      have hoff : addSize w 25 hashLen.toNat = 25 + hashLen.toNat :=
        addSize_of_lt_pow (Nat.lt_of_not_le fun hw => hwrap (Or.inl hw))
      rw [hoff]
      split
      next => exact ⟨_, rfl⟩
      next hfit =>
        have hend : addSize w (25 + hashLen.toNat) dataSize.toNat =
            25 + hashLen.toNat + dataSize.toNat :=
          addSize_of_lt_pow (Nat.lt_of_not_le fun hw => hwrap (Or.inr ⟨by omega, hw⟩))
        rw [assignRange_of_le (by omega), ok_bind, hend]
        split
        next => exact ⟨_, rfl⟩
        next =>
          rw [assignRange_of_le (by omega), ok_bind]
          exact ⟨_, rfl⟩

end Header

/-! ## The decoder on any buffer -/

theorem deserialize_defined_iff {w : Nat} (hw : 32 ≤ w) (chunk : FileChunk) {buf : Bytes}
    (hlen : buf.length < 2 ^ w) :
    (∃ r, deserialize w chunk buf = .ok r) ↔ ¬LengthsWrap w buf := by
  by_cases hshort : buf.length < 25
  · exact iff_of_true ⟨_, deserialize_short w chunk hshort⟩ fun h => Nat.not_le.mpr hshort h.1
  obtain ⟨magic, version, chunkId, totalChunks, dataSize, crc, hashLen, rest, rfl⟩ :=
    exists_header (Nat.not_lt.mp hshort)
  constructor
  · rintro ⟨r, hr⟩ hwrap
    rw [deserialize_of_lengthsWrap _ _ _ _ _ _ _ _ hw chunk hlen hwrap] at hr
    cases hr
  · exact deserialize_of_not_lengthsWrap _ _ _ _ _ _ _ _ chunk

/-- In 64 bits the decoder stays in the buffer. In 32 bits, where a buffer has less than
2^32 bytes, it does so exactly if no guard is passed on a wrapped sum. -/
theorem bounds_on_both_word_sizes (chunk : FileChunk) (buf : Bytes) :
    (∃ r, deserialize 64 chunk buf = .ok r) ∧
      (buf.length < 2 ^ 32 →
        ((∃ r, deserialize 32 chunk buf = .ok r) ↔ ¬LengthsWrap 32 buf)) := by
  constructor
  · exact deserialize_defined (by decide) chunk buf
  · exact fun hlen => deserialize_defined_iff (Nat.le_refl 32) chunk hlen

/-- A header alone with the largest hash length: 25 + 0xFFFFFFFF is 24 in 32 bits. -/
theorem hash_length_wraps :
    ¬∀ (w : Nat), w = 64 ∨ w = 32 → ∀ (chunk : FileChunk) (buf : Bytes), buf.length < 2 ^ w →
      ∃ r, deserialize w chunk buf = .ok r := by
  intro h
  obtain ⟨r, hr⟩ := h 32 (Or.inr rfl) {} (header protocolMagic protocolVersion 0 0 0 0 0xFFFFFFFF)
    (by decide)
  have herror : deserialize 32 {} (header protocolMagic protocolVersion 0 0 0 0 0xFFFFFFFF) =
      .error .outOfBounds := by decide
  rw [herror] at hr
  cases hr

end EggDelivery.FileChunk
