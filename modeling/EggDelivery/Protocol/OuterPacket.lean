import EggDelivery.Library.BigEndian
import EggDelivery.Platform

/-!
# The outer packet

`encode_outer_packet` and `decode_outer_packet` move the first `OUTER_HEAD_LEN`
bytes of an `OuterHeader` object. The object has the type at offset 0, three bytes
of padding, and the length word at offset 4, so the five bytes that are moved hold
one byte of the length. The host is little-endian.
-/

namespace EggDelivery

open BigEndian

/-- `enum class PacketType : uint8_t`. Every byte is a value of the type. -/
structure PacketType where
  value : UInt8
deriving Repr, DecidableEq

namespace PacketType

def fileData : PacketType := ⟨0⟩

def chatMsg : PacketType := ⟨1⟩

def devOnline : PacketType := ⟨2⟩

def devOffline : PacketType := ⟨3⟩

def heartbeat : PacketType := ⟨4⟩

end PacketType

def outerHeadLen : Nat := 5

/-! ## The host's memory -/

/-- The bytes of a `uint32_t` object, least significant first. -/
def hostBytes (v : UInt32) : Bytes := (bytes v).reverse

def hostWord (a b c d : UInt8) : UInt32 := join d c b a

/-- `htonl`: the object of the result has the bytes of `v` most significant first. -/
def netHtonl (v : UInt32) : UInt32 :=
  hostWord (byteAt v 24) (byteAt v 16) (byteAt v 8) (v &&& 0xFF).toUInt8

/-- `ntohl`: the bytes of the object, read most significant first. -/
def netNtohl (v : UInt32) : UInt32 :=
  join (v &&& 0xFF).toUInt8 (byteAt v 8) (byteAt v 16) (byteAt v 24)

structure OuterHeader where
  pkgType : UInt8 := 0
  bodyLen : UInt32 := 0
deriving Repr, DecidableEq

/-- The object representation. `OuterHeader head{}` clears the padding too. -/
def OuterHeader.object (head : OuterHeader) : Bytes :=
  head.pkgType :: 0 :: 0 :: 0 :: hostBytes head.bodyLen

/-- The fields of the object at these bytes. -/
def OuterHeader.ofObject (object : Bytes) : OuterHeader where
  pkgType := object.getD 0 0
  bodyLen := hostWord (object.getD 4 0) (object.getD 5 0) (object.getD 6 0) (object.getD 7 0)

/-! ## The two functions -/

def encodeOuterPacket (type : PacketType) (body : Bytes) : Bytes :=
  let head : OuterHeader :=
    { pkgType := type.value
      bodyLen := netHtonl (UInt32.ofNat body.length) }
  head.object.take outerHeadLen ++ body

/-- The returned flag and the two outputs. The type is assigned before the length
is checked. -/
def decodeOuterPacket (pkg : Bytes) (outType : PacketType) (outBody : Bytes) :
    Bool × PacketType × Bytes :=
  if pkg.length < outerHeadLen then (false, outType, outBody)
  else
    let object := memcpy (OuterHeader.object {}) 0 (pkg.take outerHeadLen)
    let head := OuterHeader.ofObject object
    let bodyLen := netNtohl head.bodyLen
    if pkg.length ≠ outerHeadLen + bodyLen.toNat then (false, ⟨head.pkgType⟩, outBody)
    else (true, ⟨head.pkgType⟩, pkg.drop outerHeadLen)

def encodeFilePacket (fileChunkData : Bytes) : Bytes :=
  encodeOuterPacket .fileData fileChunkData

/-! ## What they do -/

@[simp] theorem hostBytes_netHtonl (v : UInt32) : hostBytes (netHtonl v) = bytes v := by
  rw [hostBytes, netHtonl, hostWord, bytes_join]
  rfl

@[simp] theorem netNtohl_hostWord (a b c d : UInt8) :
    netNtohl (hostWord a b c d) = join a b c d := by
  have h := bytes_join d c b a
  simp only [bytes, List.cons.injEq, and_true] at h
  obtain ⟨h24, h16, h8, h0⟩ := h
  rw [netNtohl, hostWord, h24, h16, h8, h0]

/-- Of the length word only the most significant byte goes out. -/
theorem encodeOuterPacket_eq (type : PacketType) (body : Bytes) :
    encodeOuterPacket type body =
      type.value :: 0 :: 0 :: 0 :: byteAt (UInt32.ofNat body.length) 24 :: body := by
  simp [encodeOuterPacket, OuterHeader.object, outerHeadLen, bytes]

theorem decodeOuterPacket_short {pkg : Bytes} (h : pkg.length < outerHeadLen) (outType : PacketType)
    (outBody : Bytes) : decodeOuterPacket pkg outType outBody = (false, outType, outBody) := by
  rw [decodeOuterPacket, if_pos h]

/-- The fifth byte is read as the most significant byte of the length. -/
theorem decodeOuterPacket_eq (a b c d e : UInt8) (rest : Bytes) (outType : PacketType)
    (outBody : Bytes) :
    decodeOuterPacket (a :: b :: c :: d :: e :: rest) outType outBody =
      if rest.length = e.toNat * 2 ^ 24 then (true, ⟨a⟩, rest) else (false, ⟨a⟩, outBody) := by
  have hhead : OuterHeader.ofObject (memcpy (OuterHeader.object {}) 0
      ((a :: b :: c :: d :: e :: rest).take outerHeadLen)) = ⟨a, hostWord e 0 0 0⟩ := rfl
  have hlen : (join e 0 0 0).toNat = e.toNat * 2 ^ 24 := by simp [join_toNat]
  rw [decodeOuterPacket, if_neg (by simp [outerHeadLen])]
  simp only [hhead, netNtohl_hostWord, hlen]
  simp only [List.length_cons, outerHeadLen, List.drop_succ_cons, List.drop_zero]
  by_cases heq : rest.length = e.toNat * 2 ^ 24
  · rw [if_neg (by omega), if_pos heq]
  · rw [if_pos (by omega), if_neg heq]

theorem exists_five {pkg : Bytes} (h : ¬pkg.length < 5) :
    ∃ a b c d e rest, pkg = a :: b :: c :: d :: e :: rest := by
  match pkg, h with
  | a :: b :: c :: d :: e :: rest, _ => exact ⟨a, b, c, d, e, rest, rfl⟩
  | [], h => simp at h
  | [_], h => simp at h
  | [_, _], h => simp at h
  | [_, _, _], h => simp at h
  | [_, _, _, _], h => simp at h

/-! ## Where the codec is one -/

/-- One byte of type, the length in four bytes most significant first, the body. -/
def Documented (pkg : Bytes) : Prop :=
  ∃ (type : PacketType) (body : Bytes), body.length < 2 ^ 32 ∧
    pkg = type.value :: (bytes (UInt32.ofNat body.length) ++ body)

def Accepted (pkg : Bytes) : Prop :=
  ∃ type body, decodeOuterPacket pkg ⟨0⟩ [] = (true, type, body)

theorem decode_encode_iff (type outType : PacketType) {body outBody : Bytes}
    (h : body.length < 2 ^ 32) :
    decodeOuterPacket (encodeOuterPacket type body) outType outBody = (true, type, body) ↔
      2 ^ 24 ∣ body.length := by
  have hbyte : (byteAt (UInt32.ofNat body.length) 24).toNat = body.length / 2 ^ 24 := by
    rw [byteAt_toNat _ _ (by decide), UInt32.toNat_ofNat_of_lt' h]
    simp only [show (24 : UInt32).toNat = 24 from rfl]
    omega
  rw [encodeOuterPacket_eq, decodeOuterPacket_eq, hbyte]
  constructor
  · intro heq
    split at heq
    next hlen => exact ⟨_, hlen.trans (Nat.mul_comm _ _)⟩
    next => simp at heq
  · rintro ⟨k, hk⟩
    rw [if_pos (by omega)]

theorem encode_decode_iff {a b c d e : UInt8} {rest body outBody : Bytes}
    {type outType : PacketType}
    (h : decodeOuterPacket (a :: b :: c :: d :: e :: rest) outType outBody = (true, type, body)) :
    encodeOuterPacket type body = a :: b :: c :: d :: e :: rest ↔ b = 0 ∧ c = 0 ∧ d = 0 := by
  rw [decodeOuterPacket_eq] at h
  split at h
  next hlen =>
    simp only [Prod.mk.injEq, true_and] at h
    obtain ⟨rfl, rfl⟩ := h
    have he := e.toNat_lt
    have hsmall : rest.length < 2 ^ 32 := by omega
    have hbyte : byteAt (UInt32.ofNat rest.length) 24 = e := by
      apply UInt8.toNat_inj.mp
      rw [byteAt_toNat _ _ (by decide), UInt32.toNat_ofNat_of_lt' hsmall, hlen]
      simp only [show (24 : UInt32).toNat = 24 from rfl]
      omega
    rw [encodeOuterPacket_eq, hbyte]
    simp only [List.cons.injEq, true_and, and_true]
    constructor
    · rintro ⟨rfl, rfl, rfl⟩
      exact ⟨rfl, rfl, rfl⟩
    · rintro ⟨rfl, rfl, rfl⟩
      exact ⟨rfl, rfl, rfl⟩
  next => simp at h

theorem accepted_iff (a b c d e : UInt8) (rest : Bytes) :
    Accepted (a :: b :: c :: d :: e :: rest) ↔ rest.length = e.toNat * 2 ^ 24 := by
  simp only [Accepted, decodeOuterPacket_eq]
  by_cases h : rest.length = e.toNat * 2 ^ 24
  · rw [if_pos h]
    exact iff_of_true ⟨_, _, rfl⟩ h
  · rw [if_neg h]
    exact iff_of_false (by simp) h

theorem documented_iff (a b c d e : UInt8) (rest : Bytes) :
    Documented (a :: b :: c :: d :: e :: rest) ↔ rest.length = (join b c d e).toNat := by
  constructor
  · rintro ⟨type, body, hlen, hpkg⟩
    have hpkg' := (List.cons.inj hpkg).2
    obtain ⟨hword, rfl⟩ := List.append_inj (show [b, c, d, e] ++ rest = _ from hpkg') rfl
    rw [← bytes_join b c d e] at hword
    rw [bytes_injective hword, UInt32.toNat_ofNat_of_lt' hlen]
  · intro hlen
    refine ⟨⟨a⟩, rest, hlen ▸ (join b c d e).toNat_lt, ?_⟩
    rw [hlen, UInt32.ofNat_toNat, bytes_join]
    rfl

theorem not_accepted_of_short {pkg : Bytes} (h : pkg.length < 5) : ¬Accepted pkg := by
  rintro ⟨type, body, hdec⟩
  rw [decodeOuterPacket_short h] at hdec
  simp at hdec

theorem not_documented_of_short {pkg : Bytes} (h : pkg.length < 5) : ¬Documented pkg := by
  rintro ⟨type, body, -, rfl⟩
  simp only [List.length_cons, List.length_append, bytes_length] at h
  omega

/-- The length that the decoder reads and the documented one do not matter for this
buffer, or both are zero and right. -/
def LengthsAgree : Bytes → Prop
  | _ :: b :: c :: d :: e :: rest =>
      ([b, c, d, e] = [0, 0, 0, 0] ∧ rest = []) ∨
        (rest.length ≠ e.toNat * 2 ^ 24 ∧ rest.length ≠ (join b c d e).toNat)
  | _ => True

theorem accepted_iff_documented_five (a b c d e : UInt8) (rest : Bytes) :
    (Accepted (a :: b :: c :: d :: e :: rest) ↔ Documented (a :: b :: c :: d :: e :: rest)) ↔
      LengthsAgree (a :: b :: c :: d :: e :: rest) := by
  rw [accepted_iff, documented_iff, LengthsAgree]
  have hb := b.toNat_lt
  have hc := c.toNat_lt
  have hd := d.toNat_lt
  have he := e.toNat_lt
  have hjoin := join_toNat b c d e
  constructor
  · intro hiff
    by_cases hlen : rest.length = e.toNat * 2 ^ 24
    · have hdoc := hiff.mp hlen
      have hzero : b.toNat = 0 ∧ c.toNat = 0 ∧ d.toNat = 0 ∧ e.toNat = 0 := by omega
      obtain ⟨zb, zc, zd, ze⟩ := hzero
      have hb0 : b = 0 := UInt8.toNat_inj.mp zb
      have hc0 : c = 0 := UInt8.toNat_inj.mp zc
      have hd0 : d = 0 := UInt8.toNat_inj.mp zd
      have he0 : e = 0 := UInt8.toNat_inj.mp ze
      refine Or.inl ⟨by rw [hb0, hc0, hd0, he0], List.eq_nil_of_length_eq_zero ?_⟩
      rw [hlen, ze, Nat.zero_mul]
    · exact Or.inr ⟨hlen, fun hdoc => hlen (hiff.mpr hdoc)⟩
  · rintro (⟨hzero, rfl⟩ | ⟨hacc, hdoc⟩)
    · simp only [List.cons.injEq, and_true] at hzero
      obtain ⟨rfl, rfl, rfl, rfl⟩ := hzero
      decide
    · exact iff_of_false hacc hdoc

theorem lengthsAgree_of_short {pkg : Bytes} (h : pkg.length < 5) : LengthsAgree pkg := by
  unfold LengthsAgree
  split
  next =>
    simp only [List.length_cons] at h
    omega
  next => trivial

theorem accepted_iff_documented (pkg : Bytes) :
    (Accepted pkg ↔ Documented pkg) ↔ LengthsAgree pkg := by
  by_cases h : pkg.length < 5
  · have hneither : Accepted pkg ↔ Documented pkg :=
      iff_of_false (not_accepted_of_short h) (not_documented_of_short h)
    exact iff_of_true hneither (lengthsAgree_of_short h)
  · obtain ⟨a, b, c, d, e, rest, rfl⟩ := exists_five h
    exact accepted_iff_documented_five a b c d e rest

/-- What holds of the outer packet codec: which packets survive a round trip, which
accepted buffers are what the encoder writes, and on which buffers the decoder agrees
with the documented format. -/
theorem outer_packet_codec (type outType : PacketType) (body outBody pkg : Bytes) :
    (body.length < 2 ^ 32 - 5 →
      (decodeOuterPacket (encodeOuterPacket type body) outType outBody = (true, type, body) ↔
        2 ^ 24 ∣ body.length)) ∧
      (decodeOuterPacket pkg outType outBody = (true, type, body) →
        (encodeOuterPacket type body = pkg ↔ (pkg.drop 1).take 3 = [0, 0, 0])) ∧
      ((Accepted pkg ↔ Documented pkg) ↔ LengthsAgree pkg) := by
  refine ⟨fun h => decode_encode_iff type outType (by omega), fun h => ?_,
    accepted_iff_documented pkg⟩
  by_cases hshort : pkg.length < 5
  · rw [decodeOuterPacket_short hshort] at h
    simp at h
  · obtain ⟨a, b, c, d, e, rest, rfl⟩ := exists_five hshort
    simpa using encode_decode_iff h

/-- A one-byte body does not come back. -/
theorem one_byte_body_lost :
    ¬∀ (type : PacketType) (body : Bytes), body.length < 2 ^ 32 - 5 →
      decodeOuterPacket (encodeOuterPacket type body) ⟨0⟩ [] = (true, type, body) := by
  intro h
  exact absurd (h .chatMsg [7] (by decide)) (by decide)

end EggDelivery
