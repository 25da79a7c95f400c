import EggDelivery.Chunk.Codec
import EggDelivery.Chunk.Crc32

/-!
# Packets that are damaged on the way

The checksum of a packet covers the payload alone. Damage to the payload, the magic
number, the version or the checksum itself is noticed. The number, the total and
the hash are not checked by anything, and a length word that is made smaller points
at other payload bytes, which may happen to have the same sum.
-/

namespace EggDelivery.FileChunk

open BigEndian

/-! ## One changed byte in a header -/

private theorem window_set {l : Bytes} {i k n : Nat} (h : i < k ∨ k + n ≤ i) (b : UInt8) :
    ((l.set i b).drop k).take n = (l.drop k).take n := by
  refine List.ext_getElem? fun j => ?_
  simp only [List.getElem?_take, List.getElem?_drop]
  split
  next => rw [List.getElem?_set_ne (by omega)]
  next => rfl

/-- A changed byte in a header gives a header in which at most the field around that
byte is another. -/
theorem set_header (magic : UInt32) (version : UInt8)
    (chunkId totalChunks dataSize crc hashLen : UInt32) (i : Nat) (b : UInt8) :
    ∃ magic' version' chunkId' totalChunks' dataSize' crc' hashLen',
      (header magic version chunkId totalChunks dataSize crc hashLen).set i b =
        header magic' version' chunkId' totalChunks' dataSize' crc' hashLen' ∧
      (4 ≤ i → magic' = magic) ∧ (i ≠ 4 → version' = version) ∧
      (i < 5 ∨ 9 ≤ i → chunkId' = chunkId) ∧ (i < 9 ∨ 13 ≤ i → totalChunks' = totalChunks) ∧
      (i < 13 ∨ 17 ≤ i → dataSize' = dataSize) ∧ (i < 17 ∨ 21 ≤ i → crc' = crc) ∧
      (i < 21 ∨ 25 ≤ i → hashLen' = hashLen) := by
  have hlong :
      25 ≤ ((header magic version chunkId totalChunks dataSize crc hashLen).set i b).length := by
    rw [List.length_set, header_length]
  obtain ⟨magic', version', chunkId', totalChunks', dataSize', crc', hashLen', rest, hset⟩ :=
    exists_header hlong
  have hrest : rest = [] := by
    have hlen := congrArg List.length hset
    rw [List.length_set, List.length_append, header_length, header_length] at hlen
    exact List.eq_nil_of_length_eq_zero (by omega)
  rw [hrest, List.append_nil] at hset
  have hwindow : ∀ k n, i < k ∨ k + n ≤ i →
      ((header magic' version' chunkId' totalChunks' dataSize' crc' hashLen').drop k).take n =
        ((header magic version chunkId totalChunks dataSize crc hashLen).drop k).take n := by
    intro k n h
    rw [← hset, window_set h]
  refine ⟨magic', version', chunkId', totalChunks', dataSize', crc', hashLen', hset,
    fun h => ?_, fun h => ?_, fun h => ?_, fun h => ?_, fun h => ?_, fun h => ?_, fun h => ?_⟩
  · exact bytes_injective (hwindow 0 4 (by omega))
  · exact (List.cons.inj (hwindow 4 1 (by omega))).1
  · exact bytes_injective (hwindow 5 4 (by omega))
  · exact bytes_injective (hwindow 9 4 (by omega))
  · exact bytes_injective (hwindow 13 4 (by omega))
  · exact bytes_injective (hwindow 17 4 (by omega))
  · exact bytes_injective (hwindow 21 4 (by omega))

section Field

variable (magic : UInt32) (version : UInt8)
  (chunkId totalChunks dataSize crc hashLen : UInt32)

/-- The headers that one changed byte at `i` can make of a header: another value in the
field around it. -/
inductive FieldChanged (i : Nat) : Bytes → Prop
  | magic (h : i < 4) (new : UInt32) (hne : new ≠ magic) :
      FieldChanged i (header new version chunkId totalChunks dataSize crc hashLen)
  | version (h : i = 4) (new : UInt8) (hne : new ≠ version) :
      FieldChanged i (header magic new chunkId totalChunks dataSize crc hashLen)
  | chunkId (h : 5 ≤ i ∧ i < 9) (new : UInt32) (hne : new ≠ chunkId) :
      FieldChanged i (header magic version new totalChunks dataSize crc hashLen)
  | totalChunks (h : 9 ≤ i ∧ i < 13) (new : UInt32) (hne : new ≠ totalChunks) :
      FieldChanged i (header magic version chunkId new dataSize crc hashLen)
  | dataSize (h : 13 ≤ i ∧ i < 17) (new : UInt32) (hne : new ≠ dataSize) :
      FieldChanged i (header magic version chunkId totalChunks new crc hashLen)
  | crc (h : 17 ≤ i ∧ i < 21) (new : UInt32) (hne : new ≠ crc) :
      FieldChanged i (header magic version chunkId totalChunks dataSize new hashLen)
  | hashLen (h : 21 ≤ i ∧ i < 25) (new : UInt32) (hne : new ≠ hashLen) :
      FieldChanged i (header magic version chunkId totalChunks dataSize crc new)

theorem fieldChanged_set {i : Nat} (hi : i < 25) {b : UInt8}
    (hb : (header magic version chunkId totalChunks dataSize crc hashLen)[i]? ≠ some b) :
    FieldChanged magic version chunkId totalChunks dataSize crc hashLen i
      ((header magic version chunkId totalChunks dataSize crc hashLen).set i b) := by
  obtain ⟨magic', version', chunkId', totalChunks', dataSize', crc', hashLen', hset, hmagic,
    hversion, hid, htotal, hsize, hcrc, hlen⟩ :=
      set_header magic version chunkId totalChunks dataSize crc hashLen i b
  have hchanged : header magic' version' chunkId' totalChunks' dataSize' crc' hashLen' ≠
      header magic version chunkId totalChunks dataSize crc hashLen := by
    intro heq
    rw [heq] at hset
    exact hb (by rw [← hset, List.getElem?_set_self (by rw [header_length]; exact hi)])
  rw [hset]
  have hregion : i < 4 ∨ i = 4 ∨ (5 ≤ i ∧ i < 9) ∨ (9 ≤ i ∧ i < 13) ∨ (13 ≤ i ∧ i < 17) ∨
      (17 ≤ i ∧ i < 21) ∨ (21 ≤ i ∧ i < 25) := by omega
  rcases hregion with h | h | h | h | h | h | h
  · rw [hversion (by omega), hid (by omega), htotal (by omega), hsize (by omega),
      hcrc (by omega), hlen (by omega)] at hchanged ⊢
    exact .magic h _ fun heq => hchanged (by rw [heq])
  · rw [hmagic (by omega), hid (by omega), htotal (by omega), hsize (by omega),
      hcrc (by omega), hlen (by omega)] at hchanged ⊢
    exact .version h _ fun heq => hchanged (by rw [heq])
  · rw [hmagic (by omega), hversion (by omega), htotal (by omega), hsize (by omega),
      hcrc (by omega), hlen (by omega)] at hchanged ⊢
    exact .chunkId h _ fun heq => hchanged (by rw [heq])
  · rw [hmagic (by omega), hversion (by omega), hid (by omega), hsize (by omega),
      hcrc (by omega), hlen (by omega)] at hchanged ⊢
    exact .totalChunks h _ fun heq => hchanged (by rw [heq])
  · rw [hmagic (by omega), hversion (by omega), hid (by omega), htotal (by omega),
      hcrc (by omega), hlen (by omega)] at hchanged ⊢
    exact .dataSize h _ fun heq => hchanged (by rw [heq])
  · rw [hmagic (by omega), hversion (by omega), hid (by omega), htotal (by omega),
      hsize (by omega), hlen (by omega)] at hchanged ⊢
    exact .crc h _ fun heq => hchanged (by rw [heq])
  · rw [hmagic (by omega), hversion (by omega), hid (by omega), htotal (by omega),
      hsize (by omega), hcrc (by omega)] at hchanged ⊢
    exact .hashLen h _ fun heq => hchanged (by rw [heq])

end Field

/-! ## What the decoder makes of a damaged packet -/

/-- The bytes that these length words point at have the checksum of the payload. -/
def Collides (c : FileChunk) (hashLen dataSize : Nat) : Prop :=
  hashLen + dataSize ≤ c.fileHash.length + c.data.length ∧
    crc32 (((c.fileHash ++ c.data).drop hashLen).take dataSize) = crc32 c.data

theorem deserialize_foreign {magic : UInt32} {version : UInt8}
    (h : magic ≠ protocolMagic ∨ version ≠ protocolVersion) (prior : FileChunk)
    (chunkId totalChunks dataSize crc hashLen : UInt32) (rest : Bytes) :
    deserialize 64 prior
        (header magic version chunkId totalChunks dataSize crc hashLen ++ rest) =
      .ok (false, prior) := by
  rw [deserialize_header (by decide), decodeRest]
  by_cases hmagic : magic = protocolMagic
  · rw [if_neg (not_not.mpr hmagic), if_pos (h.resolve_left (not_not.mpr hmagic))]
  · rw [if_pos hmagic]

theorem deserialize_lengths (c prior : FileChunk) (hashLen dataSize : UInt32) :
    (Collides c hashLen.toNat dataSize.toNat →
      deserialize 64 prior (header protocolMagic protocolVersion c.chunkId c.totalChunks dataSize
          (crc32 c.data) hashLen ++ (c.fileHash ++ c.data)) =
        .ok (true,
          { chunkId := c.chunkId
            totalChunks := c.totalChunks
            fileHash := (c.fileHash ++ c.data).take hashLen.toNat
            data := ((c.fileHash ++ c.data).drop hashLen.toNat).take dataSize.toNat
            dataSize := dataSize })) ∧
      (¬Collides c hashLen.toNat dataSize.toNat →
        ∃ c', deserialize 64 prior (header protocolMagic protocolVersion c.chunkId c.totalChunks
          dataSize (crc32 c.data) hashLen ++ (c.fileHash ++ c.data)) = .ok (false, c')) := by
  rw [deserialize_header (by decide), decodeRest, if_neg (by simp), if_neg (by simp),
    List.length_append]
  constructor
  · rintro ⟨hle, hcrc⟩
    rw [if_neg (by omega), if_neg (by omega), hcrc, beq_self_eq_true]
  · intro hno
    split
    next => exact ⟨_, rfl⟩
    next =>
      split
      next => exact ⟨_, rfl⟩
      next h =>
        have hcrc : (crc32 (((c.fileHash ++ c.data).drop hashLen.toNat).take dataSize.toNat) ==
            crc32 c.data) = false :=
          beq_eq_false_iff_ne.mpr fun heq => hno ⟨Nat.le_of_not_lt h, heq⟩
        exact ⟨_, by rw [hcrc]⟩

theorem deserialize_fields (prior : FileChunk) (chunkId totalChunks crc : UInt32)
    {hash data : Bytes} (hhash : hash.length < 2 ^ 32) (hdata : data.length < 2 ^ 32) :
    deserialize 64 prior (header protocolMagic protocolVersion chunkId totalChunks
        (UInt32.ofNat data.length) crc (UInt32.ofNat hash.length) ++ (hash ++ data)) =
      .ok (crc32 data == crc,
        { chunkId, totalChunks
          fileHash := hash
          data := data
          dataSize := UInt32.ofNat data.length }) := by
  have hh : hash.length = (UInt32.ofNat hash.length).toNat :=
    (UInt32.toNat_ofNat_of_lt' hhash).symm
  have hd : data.length = (UInt32.ofNat data.length).toNat :=
    (UInt32.toNat_ofNat_of_lt' hdata).symm
  have hbody := deserialize_body (w := 64) (by decide) prior chunkId totalChunks crc hh hd []
  rwa [List.append_nil] at hbody

def wordAt (buf : Bytes) (off : Nat) : Nat :=
  match readU32 buf off with
  | .ok (v, _) => v.toNat
  | .error _ => 0

theorem wordAt_append (pre : Bytes) (v : UInt32) (rest : Bytes) :
    wordAt (pre ++ (bytes v ++ rest)) pre.length = v.toNat := by
  rw [wordAt, readU32_append pre v rest rfl]

theorem wordAt_header (magic : UInt32) (version : UInt8)
    (chunkId totalChunks dataSize crc hashLen : UInt32) (rest : Bytes) :
    wordAt (header magic version chunkId totalChunks dataSize crc hashLen ++ rest) 0 =
        magic.toNat ∧
      wordAt (header magic version chunkId totalChunks dataSize crc hashLen ++ rest) 13 =
        dataSize.toNat ∧
      wordAt (header magic version chunkId totalChunks dataSize crc hashLen ++ rest) 21 =
        hashLen.toNat := by
  refine ⟨?_, ?_, ?_⟩
  · have h := wordAt_append [] magic (version :: (bytes chunkId ++ (bytes totalChunks ++
      (bytes dataSize ++ (bytes crc ++ (bytes hashLen ++ rest))))))
    simpa [header] using h
  · have h := wordAt_append
      (bytes magic ++ [version] ++ bytes chunkId ++ bytes totalChunks) dataSize
      (bytes crc ++ (bytes hashLen ++ rest))
    simpa [header] using h
  · have h := wordAt_append
      (bytes magic ++ [version] ++ bytes chunkId ++ bytes totalChunks ++ bytes dataSize ++
        bytes crc) hashLen rest
    simpa [header] using h

/-! ## One changed byte -/

/-- The decoder rejects the packet, or reads the fields of `c` from it. -/
def TakenRight (c : FileChunk) (buf : Bytes) : Prop :=
  ∀ prior, (∃ c', deserialize 64 prior buf = .ok (false, c')) ∨
    ∃ c', deserialize 64 prior buf = .ok (true, c') ∧ c'.chunkId = c.chunkId ∧
      c'.totalChunks = c.totalChunks ∧ c'.fileHash = c.fileHash ∧ c'.data = c.data

/-- Byte `i` of the packet `buf` is one that nothing checks, or one of a length word
that now points at a payload with the old checksum. -/
def Unnoticed (c : FileChunk) (i : Nat) (buf : Bytes) : Prop :=
  (5 ≤ i ∧ i < 13) ∨ (25 ≤ i ∧ i < 25 + c.fileHash.length) ∨
    (13 ≤ i ∧ i < 17 ∧ Collides c c.fileHash.length (wordAt buf 13)) ∨
    (21 ≤ i ∧ i < 25 ∧ Collides c (wordAt buf 21) c.data.length)

theorem not_unnoticed (c : FileChunk) {i : Nat} (buf : Bytes)
    (h : i < 5 ∨ (17 ≤ i ∧ i < 21) ∨ 25 + c.fileHash.length ≤ i) : ¬Unnoticed c i buf := by
  rintro (hn | hn | ⟨hn, hn', -⟩ | ⟨hn, hn', -⟩) <;> omega

theorem unnoticed_dataSize (c : FileChunk) {i : Nat} (buf : Bytes) (h : 13 ≤ i ∧ i < 17) :
    Unnoticed c i buf ↔ Collides c c.fileHash.length (wordAt buf 13) := by
  constructor
  · rintro (hn | hn | ⟨-, -, hcol⟩ | ⟨hn, -⟩)
    · omega
    · omega
    · exact hcol
    · omega
  · intro hcol
    exact Or.inr (Or.inr (Or.inl ⟨h.1, h.2, hcol⟩))

theorem unnoticed_hashLen (c : FileChunk) {i : Nat} (buf : Bytes) (h : 21 ≤ i ∧ i < 25) :
    Unnoticed c i buf ↔ Collides c (wordAt buf 21) c.data.length := by
  constructor
  · rintro (hn | hn | ⟨-, hn, -⟩ | ⟨-, -, hcol⟩)
    · omega
    · omega
    · omega
    · exact hcol
  · intro hcol
    exact Or.inr (Or.inr (Or.inr ⟨h.1, h.2, hcol⟩))

/-! ## When a damaged packet is taken right -/

theorem takenRight_of_foreign (c : FileChunk) {magic : UInt32} {version : UInt8}
    (h : magic ≠ protocolMagic ∨ version ≠ protocolVersion)
    (chunkId totalChunks dataSize crc hashLen : UInt32) (rest : Bytes) :
    TakenRight c (header magic version chunkId totalChunks dataSize crc hashLen ++ rest) :=
  fun prior => Or.inl ⟨prior, deserialize_foreign h prior ..⟩

theorem takenRight_fields_iff (c : FileChunk) (chunkId totalChunks crc : UInt32)
    {hash data : Bytes} (hhash : hash.length < 2 ^ 32) (hdata : data.length < 2 ^ 32) :
    TakenRight c (header protocolMagic protocolVersion chunkId totalChunks
        (UInt32.ofNat data.length) crc (UInt32.ofNat hash.length) ++ (hash ++ data)) ↔
      crc32 data ≠ crc ∨ (chunkId = c.chunkId ∧ totalChunks = c.totalChunks ∧
        hash = c.fileHash ∧ data = c.data) := by
  have hdec := fun prior => deserialize_fields prior chunkId totalChunks crc hhash hdata
  by_cases hcrc : crc32 data = crc
  · rw [beq_iff_eq.mpr hcrc] at hdec
    refine Iff.trans ⟨fun h => ?_, fun h prior => ?_⟩ (or_iff_right (not_not.mpr hcrc)).symm
    · rcases h {} with ⟨t, ht⟩ | ⟨t, ht, hsame⟩
      · rw [hdec] at ht
        cases ht
      · rw [hdec] at ht
        cases ht
        exact hsame
    · exact Or.inr ⟨_, hdec prior, h⟩
  · rw [beq_eq_false_iff_ne.mpr hcrc] at hdec
    exact iff_of_true (fun prior => Or.inl ⟨_, hdec prior⟩) (Or.inl hcrc)

/-- A wrong length word is noticed unless the words collide. -/
theorem takenRight_lengths_iff (c : FileChunk) {hashLen dataSize : UInt32}
    (hne : hashLen.toNat ≠ c.fileHash.length ∨ dataSize.toNat ≠ c.data.length) :
    TakenRight c (header protocolMagic protocolVersion c.chunkId c.totalChunks dataSize
        (crc32 c.data) hashLen ++ (c.fileHash ++ c.data)) ↔
      ¬Collides c hashLen.toNat dataSize.toNat := by
  constructor
  · intro h hcollides
    have hdec := (deserialize_lengths c {} hashLen dataSize).1 hcollides
    rcases h {} with ⟨t, ht⟩ | ⟨t, ht, -, -, hsame, hsame'⟩
    · rw [hdec] at ht
      cases ht
    · rw [hdec] at ht
      cases ht
      have hle := hcollides.1
      have hlen := congrArg List.length hsame
      have hlen' := congrArg List.length hsame'
      simp only [List.length_take, List.length_drop, List.length_append] at hlen hlen'
      omega
  · intro hno prior
    exact Or.inl ((deserialize_lengths c prior hashLen dataSize).2 hno)

section Changed

variable {c : FileChunk} (hhash : c.fileHash.length < 2 ^ 32) (hdata : c.data.length < 2 ^ 32)
include hhash hdata

theorem takenRight_header_iff {i : Nat} (hi : i < 25) {b : UInt8}
    (hb : c.serialize[i]? ≠ some b) :
    TakenRight c (c.serialize.set i b) ↔ ¬Unnoticed c i (c.serialize.set i b) := by
  have hh : (UInt32.ofNat c.fileHash.length).toNat = c.fileHash.length :=
    UInt32.toNat_ofNat_of_lt' hhash
  have hd : (UInt32.ofNat c.data.length).toNat = c.data.length := UInt32.toNat_ofNat_of_lt' hdata
  rw [serialize_eq, List.getElem?_append_left (by simpa using hi)] at hb
  rw [serialize_eq, List.set_append_left _ _ (by simpa using hi)]
  have hchanged := fieldChanged_set _ _ _ _ _ _ _ hi hb
  generalize (header protocolMagic protocolVersion c.chunkId c.totalChunks
    (UInt32.ofNat c.data.length) (crc32 c.data) (UInt32.ofNat c.fileHash.length)).set i b =
      damaged at hchanged ⊢
  cases hchanged with
  | magic h new hne =>
      exact iff_of_true (takenRight_of_foreign c (Or.inl hne) _ _ _ _ _ _)
        (not_unnoticed c _ (Or.inl (by omega)))
  | version h new hne =>
      exact iff_of_true (takenRight_of_foreign c (Or.inr hne) _ _ _ _ _ _)
        (not_unnoticed c _ (Or.inl (by omega)))
  | chunkId h new hne =>
      rw [takenRight_fields_iff c _ _ _ hhash hdata]
      exact iff_of_false (by simp [hne]) (not_not.mpr (Or.inl (by omega)))
  | totalChunks h new hne =>
      rw [takenRight_fields_iff c _ _ _ hhash hdata]
      exact iff_of_false (by simp [hne]) (not_not.mpr (Or.inl (by omega)))
  | dataSize h new hne =>
      have hother : new.toNat ≠ c.data.length := by
        rw [← hd]
        exact fun heq => hne (UInt32.toNat_inj.mp heq)
      rw [takenRight_lengths_iff c (Or.inr hother), hh, unnoticed_dataSize c _ h,
        (wordAt_header ..).2.1]
  | crc h new hne =>
      rw [takenRight_fields_iff c _ _ _ hhash hdata]
      exact iff_of_true (Or.inl (Ne.symm hne)) (not_unnoticed c _ (Or.inr (Or.inl h)))
  | hashLen h new hne =>
      have hother : new.toNat ≠ c.fileHash.length := by
        rw [← hh]
        exact fun heq => hne (UInt32.toNat_inj.mp heq)
      rw [takenRight_lengths_iff c (Or.inl hother), hd, unnoticed_hashLen c _ h,
        (wordAt_header ..).2.2]

theorem takenRight_body_iff {i : Nat} (hi : 25 ≤ i) (hlt : i < c.serialize.length) {b : UInt8}
    (hb : c.serialize[i]? ≠ some b) :
    TakenRight c (c.serialize.set i b) ↔ ¬Unnoticed c i (c.serialize.set i b) := by
  rw [serialize_length] at hlt
  rw [serialize_eq, List.getElem?_append_right (by simpa using hi), header_length] at hb
  rw [serialize_eq, List.set_append_right _ _ (by simpa using hi), header_length]
  by_cases hin : i - 25 < c.fileHash.length
  · -- the hash
    rw [List.getElem?_append_left hin] at hb
    have hne : c.fileHash.set (i - 25) b ≠ c.fileHash := by
      intro heq
      exact hb (by rw [← heq, List.getElem?_set_self hin])
    rw [List.set_append_left _ _ hin]
    have hlen : (c.fileHash.set (i - 25) b).length < 2 ^ 32 := by simpa using hhash
    have hfields := takenRight_fields_iff c c.chunkId c.totalChunks (crc32 c.data) hlen hdata
    rw [List.length_set] at hfields
    rw [hfields]
    exact iff_of_false (by simp [hne]) (not_not.mpr (Or.inr (Or.inl (by omega))))
  · -- the payload
    have hout : c.fileHash.length ≤ i - 25 := Nat.le_of_not_lt hin
    rw [List.getElem?_append_right hout] at hb
    have hne : crc32 (c.data.set (i - 25 - c.fileHash.length) b) ≠ crc32 c.data :=
      crc32_set_ne (by omega) hb
    rw [List.set_append_right _ _ hout]
    have hlen : (c.data.set (i - 25 - c.fileHash.length) b).length < 2 ^ 32 := by
      simpa using hdata
    have hfields := takenRight_fields_iff c c.chunkId c.totalChunks (crc32 c.data) hhash hlen
    rw [List.length_set] at hfields
    rw [hfields]
    exact iff_of_true (Or.inl hne) (not_unnoticed c _ (Or.inr (Or.inr (by omega))))

/-- One changed byte is noticed, or the chunk is read all the same, exactly if the byte
is not one of the number, the total or the hash, and is not one of a length word
that now points at a payload with the old checksum. -/
theorem one_changed_byte_iff {i : Nat} (hi : i < c.serialize.length) {b : UInt8}
    (hb : c.serialize[i]? ≠ some b) :
    TakenRight c (c.serialize.set i b) ↔ ¬Unnoticed c i (c.serialize.set i b) := by
  rcases Nat.lt_or_ge i 25 with h | h
  · exact takenRight_header_iff hhash hdata h hb
  · exact takenRight_body_iff hhash hdata h hi hb

end Changed

theorem first_byte_noticed :
    TakenRight { data := [1, 2] } (FileChunk.serialize { data := [1, 2] } |>.set 0 0) :=
  (one_changed_byte_iff (by decide) (by decide) (by decide) (by decide)).mpr (by
    rintro (h | h | h | h) <;> exact absurd h.1 (by decide))

/-- A changed chunk number is believed. -/
theorem chunkId_not_noticed :
    ¬∀ (c : FileChunk) (i : Nat) (b : UInt8), c.fileHash.length < 2 ^ 32 →
      c.data.length < 2 ^ 32 → i < c.serialize.length → c.serialize[i]? ≠ some b →
        TakenRight c (c.serialize.set i b) := by
  intro h
  have hdec : deserialize 64 {} (FileChunk.serialize {} |>.set 8 1) =
      .ok (true, { chunkId := 1 }) := by decide
  rcases h {} 8 1 (by decide) (by decide) (by decide) (by decide) {} with ⟨t, ht⟩ | ⟨t, ht, hid, -⟩
  · rw [hdec] at ht
    cases ht
  · rw [hdec] at ht
    cases ht
    exact absurd hid (by decide)

/-! ## Bursts in the payload -/

def front (c : FileChunk) : Bytes :=
  header protocolMagic protocolVersion c.chunkId c.totalChunks (UInt32.ofNat c.data.length)
    (crc32 c.data) (UInt32.ofNat c.fileHash.length) ++ c.fileHash

theorem serialize_eq_front (c : FileChunk) : c.serialize = c.front ++ c.data := by
  rw [serialize_eq, front, List.append_assoc]

theorem front_length (c : FileChunk) : c.front.length = 25 + c.fileHash.length := by
  rw [front, List.length_append, header_length]

theorem exists_payload {c : FileChunk} {buf : Bytes} (hlen : buf.length = c.serialize.length)
    (h : ∀ i, buf[i]? ≠ c.serialize[i]? → 25 + c.fileHash.length ≤ i) :
    ∃ data, buf = c.front ++ data ∧ data.length = c.data.length := by
  have hsame : buf.take c.front.length = c.front := by
    have htake : c.serialize.take c.front.length = c.front := by
      rw [serialize_eq_front, List.take_left]
    refine Eq.trans (List.ext_getElem? fun i => ?_) htake
    rw [List.getElem?_take, List.getElem?_take, front_length]
    split
    next hi => exact not_not.mp fun hn => Nat.not_le.mpr hi (h i hn)
    next => rfl
  have hbuf : buf = c.front ++ buf.drop c.front.length := by
    conv_lhs => rw [← List.take_append_drop c.front.length buf, hsame]
  refine ⟨buf.drop c.front.length, hbuf, ?_⟩
  have hsum := congrArg List.length hbuf
  rw [hlen, serialize_eq_front, List.length_append, List.length_append] at hsum
  omega

/-- A packet that is damaged within four consecutive bytes of its payload, and nowhere
else, is rejected: no such damage keeps the checksum. -/
theorem payload_burst_rejected :
    (∀ (c prior : FileChunk) (buf : Bytes) (k : Nat), c.fileHash.length < 2 ^ 32 →
      c.data.length < 2 ^ 32 → buf.length = c.serialize.length → buf ≠ c.serialize →
      (∀ i, buf[i]? ≠ c.serialize[i]? → 25 + c.fileHash.length ≤ i ∧ k ≤ i ∧ i < k + 4) →
        ∃ c', deserialize 64 prior buf = .ok (false, c')) ∧
    (∀ p u v s : Bytes, u.length = v.length → u.length ≤ 4 → u ≠ v →
      crc32 (p ++ u ++ s) ≠ crc32 (p ++ v ++ s)) := by
  refine ⟨fun c prior buf k hhash hdata hlen hne hwindow => ?_,
    fun p u v s huv hu hne => crc32_burst p s huv hu hne⟩
  obtain ⟨data, rfl, hsize⟩ := exists_payload hlen fun i hi => (hwindow i hi).1
  rw [serialize_eq_front] at hne hwindow
  have hcrc : crc32 data ≠ crc32 c.data := by
    refine crc32_ne_of_window (k := k - c.front.length) hsize (fun heq => hne (by rw [heq]))
      fun i hi => ?_
    have hshift : ∀ d : Bytes, (c.front ++ d)[c.front.length + i]? = d[i]? := fun d => by
      rw [List.getElem?_append_right (Nat.le_add_right _ _), Nat.add_sub_cancel_left]
    rw [← hshift data, ← hshift c.data] at hi
    have hin := hwindow _ hi
    omega
  rw [front, List.append_assoc, ← hsize, deserialize_fields prior _ _ _ hhash (hsize ▸ hdata),
    beq_eq_false_iff_ne.mpr hcrc]
  exact ⟨_, rfl⟩

end EggDelivery.FileChunk
