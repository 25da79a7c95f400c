import Mathlib.Data.Rat.Defs
import EggDelivery.Protocol.OuterPacket

/-!
# Messages and LAN discovery

The struct bodies of the chat and discovery packets, and the loop that keeps the
table of devices. Every struct body is longer than nothing and shorter than
`2 ^ 24` bytes, which is where the outer packet loses its length: no announcement
reaches the table.
-/

namespace EggDelivery

/-- A zeroed `char[size]` after `std::strncpy(field, s.c_str(), size - 1)`. -/
def strncpyField (size : Nat) (s : Bytes) : Bytes :=
  let text := (cStr s).take (size - 1)
  text ++ List.replicate (size - text.length) 0

theorem strncpyField_length {size : Nat} (hsize : 0 < size) (s : Bytes) :
    (strncpyField size s).length = size := by
  simp only [strncpyField, List.length_append, List.length_take, List.length_replicate]
  omega

/-- `ChatMsgBody`, filled and copied out. -/
def chatMsgBody (sender content : Bytes) : Bytes :=
  strncpyField 32 sender ++ strncpyField 512 content

def encodeChatPacket (sender content : Bytes) : Bytes :=
  encodeOuterPacket .chatMsg (chatMsgBody sender content)

structure DeviceInfo where
  ip : Bytes
  name : Bytes
  ip_length : ip.length = 16
  name_length : name.length = 32
deriving DecidableEq

namespace DeviceInfo

def size : Nat := 48

/-- The object representation. -/
def object (dev : DeviceInfo) : Bytes := dev.ip ++ dev.name

@[simp] theorem object_length (dev : DeviceInfo) : dev.object.length = size := by
  rw [object, List.length_append, dev.ip_length, dev.name_length]
  rfl

/-- The struct that both broadcast encoders fill. -/
def make (localIp name : Bytes) : DeviceInfo where
  ip := strncpyField 16 localIp
  name := strncpyField 32 name
  ip_length := strncpyField_length (by decide) _
  name_length := strncpyField_length (by decide) _

/-- `std::memcpy(&dev, body.data(), sizeof(DeviceInfo))`. -/
def ofBody (body : Bytes) (h : body.length = size) : DeviceInfo where
  ip := body.take 16
  name := body.drop 16
  ip_length := by
    rw [List.length_take, h]
    rfl
  name_length := by
    rw [List.length_drop, h]
    rfl

/-- The C string that starts at an offset of the object. Its terminator is looked
for up to the end of the object. -/
def stringAt (dev : DeviceInfo) (off : Nat) : Except Ub Bytes :=
  let tail := dev.object.drop off
  if 0 ∈ tail then .ok (cStr tail) else .error .outOfBounds

end DeviceInfo

def encodeOnlineBroadcast (localIp name : Bytes) : Bytes :=
  encodeOuterPacket .devOnline (DeviceInfo.make localIp name).object

def encodeOfflineBroadcast (localIp name : Bytes) : Bytes :=
  encodeOuterPacket .devOffline (DeviceInfo.make localIp name).object

/-! ## The receive loop -/

abbrev OnlineDevices := Std.ExtTreeMap Bytes DeviceInfo

def protoBufMax : Nat := 81920

/-- One turn of `recv_broadcast_loop` on what `recvfrom` delivers of a datagram.
Both branches make the key from `dev.ip` and print `dev.name`. -/
def recvBroadcast (devices : OnlineDevices) (datagram : Bytes) : Except Ub OnlineDevices :=
  let pkg := datagram.take protoBufMax
  if pkg = [] then .ok devices
  else
    match decodeOuterPacket pkg ⟨0⟩ [] with
    | (false, _, _) => .ok devices
    | (true, type, body) =>
        if h : body.length = DeviceInfo.size then
          let dev := DeviceInfo.ofBody body h
          if type = .devOnline then do
            let ip ← dev.stringAt 0
            let _ ← dev.stringAt 16
            pure (devices.insert ip dev)
          else if type = .devOffline then do
            let ip ← dev.stringAt 0
            let _ ← dev.stringAt 16
            pure (devices.erase ip)
          else .ok devices
        else .ok devices

def recvBroadcastLoop (devices : OnlineDevices) (datagrams : List Bytes) :
    Except Ub OnlineDevices :=
  datagrams.foldlM recvBroadcast devices

theorem recvBroadcast_of_rejected (devices : OnlineDevices) {datagram : Bytes}
    (h : (decodeOuterPacket (datagram.take protoBufMax) ⟨0⟩ []).1 = false) :
    recvBroadcast devices datagram = .ok devices := by
  unfold recvBroadcast
  dsimp only
  split
  next => rfl
  next =>
    split
    next => rfl
    next type body heq =>
      rw [heq] at h
      cases h

/-! ## Announcements -/

structure Broadcast where
  online : Bool
  ip : Bytes
  name : Bytes
  ip_fits : ip.length ≤ 15 ∧ 0 ∉ ip
  name_fits : name.length ≤ 31 ∧ 0 ∉ name

def Broadcast.packet (b : Broadcast) : Bytes :=
  if b.online then encodeOnlineBroadcast b.ip b.name else encodeOfflineBroadcast b.ip b.name

/-- A datagram on the discovery port: an announcement, or something that the
decoder rejects. -/
inductive Datagram where
  | announcement (b : Broadcast)
  | noise (pkg : Bytes)
      (rejected : (decodeOuterPacket (pkg.take protoBufMax) ⟨0⟩ []).1 = false)

def Datagram.packet : Datagram → Bytes
  | .announcement b => b.packet
  | .noise pkg _ => pkg

def lastBroadcast (ip : Bytes) (datagrams : List Datagram) : Option Broadcast :=
  datagrams.reverse.findSome? fun d =>
    match d with
    | .announcement b => if b.ip = ip then some b else none
    | .noise _ _ => none

/-- The table answers every address with the last announcement, if that was an
online one. -/
def TableIsRight (datagrams : List Datagram) : Prop :=
  ∃ devices, recvBroadcastLoop ∅ (datagrams.map Datagram.packet) = .ok devices ∧
    ∀ ip, (devices[ip]?).map (fun dev => (dev.stringAt 0, dev.stringAt 16)) =
      (lastBroadcast ip datagrams).bind fun b =>
        if b.online then some (.ok b.ip, .ok b.name) else none

/-- A body that is not empty and shorter than `2 ^ 24` bytes is declared empty. -/
theorem decode_encode_small (type outType : PacketType) {body outBody : Bytes}
    (hpos : 0 < body.length) (hsmall : body.length < 2 ^ 24) :
    (decodeOuterPacket (encodeOuterPacket type body) outType outBody).1 = false := by
  have hbyte : (BigEndian.byteAt (UInt32.ofNat body.length) 24).toNat = 0 := by
    rw [BigEndian.byteAt_toNat _ _ (by decide), UInt32.toNat_ofNat']
    simp only [show (24 : UInt32).toNat = 24 from rfl]
    omega
  rw [encodeOuterPacket_eq, decodeOuterPacket_eq, hbyte, if_neg (by omega)]

/-- No message that the program encodes is accepted by its own decoder. -/
theorem messages_rejected (a b : Bytes) (outType : PacketType) (outBody : Bytes) :
    (decodeOuterPacket (encodeChatPacket a b) outType outBody).1 = false ∧
      (decodeOuterPacket (encodeOnlineBroadcast a b) outType outBody).1 = false ∧
      (decodeOuterPacket (encodeOfflineBroadcast a b) outType outBody).1 = false := by
  have hchat : (chatMsgBody a b).length = 544 := by
    rw [chatMsgBody, List.length_append, strncpyField_length (by decide),
      strncpyField_length (by decide)]
  have hdev : (DeviceInfo.make a b).object.length = 48 := DeviceInfo.object_length _
  exact ⟨decode_encode_small _ _ (by omega) (by omega),
    decode_encode_small _ _ (by omega) (by omega), decode_encode_small _ _ (by omega) (by omega)⟩

theorem datagram_rejected (d : Datagram) :
    (decodeOuterPacket (d.packet.take protoBufMax) ⟨0⟩ []).1 = false := by
  cases d with
  | noise pkg rejected => exact rejected
  | announcement b =>
      have hlen : b.packet.length = 53 := by
        unfold Broadcast.packet encodeOnlineBroadcast encodeOfflineBroadcast
        split <;> rw [encodeOuterPacket_eq] <;> simp [DeviceInfo.size]
      have htake : b.packet.take protoBufMax = b.packet :=
        List.take_of_length_le (by rw [hlen]; decide)
      simp only [Datagram.packet]
      rw [htake]
      unfold Broadcast.packet
      split
      next => exact (messages_rejected b.ip b.name _ _).2.1
      next => exact (messages_rejected b.ip b.name _ _).2.2

/-- The loop never changes the table. -/
theorem recvBroadcastLoop_unchanged (devices : OnlineDevices) (datagrams : List Datagram) :
    recvBroadcastLoop devices (datagrams.map Datagram.packet) = .ok devices := by
  induction datagrams with
  | nil => rfl
  | cons d rest ih =>
      rw [List.map_cons, recvBroadcastLoop, List.foldlM_cons,
        recvBroadcast_of_rejected devices (datagram_rejected d), ok_bind]
      exact ih

/-- The table is right exactly while nobody is online. -/
theorem tableIsRight_iff (datagrams : List Datagram) :
    TableIsRight datagrams ↔
      ∀ ip b, lastBroadcast ip datagrams = some b → b.online = false := by
  constructor
  · rintro ⟨devices, hrun, htable⟩ ip b hlast
    rw [recvBroadcastLoop_unchanged] at hrun
    cases hrun
    have := htable ip
    rw [hlast] at this
    cases honline : b.online with
    | false => rfl
    | true => simp [honline] at this
  · intro h
    refine ⟨∅, recvBroadcastLoop_unchanged ∅ datagrams, fun ip => ?_⟩
    cases hlast : lastBroadcast ip datagrams with
    | none => simp
    | some b => simp [h ip b hlast]

def firstArrival : List Datagram :=
  [.announcement ⟨true, ascii "10.0.0.1", ascii "egg", by decide, by decide⟩]

theorem firstArrival_not_listed : ¬TableIsRight firstArrival := by
  rintro ⟨devices, hrun, htable⟩
  rw [recvBroadcastLoop_unchanged] at hrun
  cases hrun
  have := htable (ascii "10.0.0.1")
  simp [firstArrival, lastBroadcast] at this

end EggDelivery
