import EggDelivery.Protocol.Discovery

/-!
# Strings of the devices on the network

The encoders copy at most 15 and 31 bytes into zeroed fields, so their strings are
terminated. `recv_broadcast_loop` takes the 48 bytes of a body as they are and reads
C strings from them. Here its branches meet any decoded packets whatsoever.
-/

namespace EggDelivery

/-! ## The loop on decoded packets -/

/-- One turn of `recv_broadcast_loop` behind `decode_outer_packet`. -/
def handleDecoded (devices : OnlineDevices) (packet : PacketType × Bytes) :
    Except Ub OnlineDevices :=
  if h : packet.2.length = DeviceInfo.size then
    let dev := DeviceInfo.ofBody packet.2 h
    if packet.1 = .devOnline then do
      let ip ← dev.stringAt 0
      let _ ← dev.stringAt 16
      pure (devices.insert ip dev)
    else if packet.1 = .devOffline then do
      let ip ← dev.stringAt 0
      let _ ← dev.stringAt 16
      pure (devices.erase ip)
    else .ok devices
  else .ok devices

def handleAll (devices : OnlineDevices) (packets : List (PacketType × Bytes)) :
    Except Ub OnlineDevices :=
  packets.foldlM handleDecoded devices

def decodedDatagram (datagram : Bytes) : Option (PacketType × Bytes) :=
  if datagram.take protoBufMax = [] then none
  else
    match decodeOuterPacket (datagram.take protoBufMax) ⟨0⟩ [] with
    | (false, _, _) => none
    | (true, type, body) => some (type, body)

theorem recvBroadcast_eq (devices : OnlineDevices) (datagram : Bytes) :
    recvBroadcast devices datagram =
      match decodedDatagram datagram with
      | none => .ok devices
      | some packet => handleDecoded devices packet := by
  unfold recvBroadcast decodedDatagram
  dsimp only
  split
  next => rfl
  next =>
    cases decodeOuterPacket (datagram.take protoBufMax) ⟨0⟩ [] with
    | mk accepted packet =>
        cases accepted with
        | false => rfl
        | true => rfl

theorem recvBroadcastLoop_eq (devices : OnlineDevices) (datagrams : List Bytes) :
    recvBroadcastLoop devices datagrams =
      handleAll devices (datagrams.filterMap decodedDatagram) := by
  rw [recvBroadcastLoop, handleAll]
  induction datagrams generalizing devices with
  | nil => rfl
  | cons datagram rest ih =>
      rw [List.foldlM_cons, recvBroadcast_eq, List.filterMap_cons]
      cases hdecoded : decodedDatagram datagram with
      | none => exact ih devices
      | some packet =>
          dsimp only
          rw [List.foldlM_cons]
          cases handleDecoded devices packet with
          | error e => rfl
          | ok devices' => exact ih devices'

/-! ## Where the strings end -/

/-- Both strings are read to a terminator inside their own fields. -/
def DeviceInfo.ReadsInside (dev : DeviceInfo) : Prop :=
  ∃ ip name, dev.stringAt 0 = .ok ip ∧ ip.length < 16 ∧ dev.stringAt 16 = .ok name ∧
    name.length < 32

def Terminated (body : Bytes) : Prop := 0 ∈ body.take 16 ∧ 0 ∈ body.drop 16

theorem ofBody_object {body : Bytes} (h : body.length = DeviceInfo.size) :
    (DeviceInfo.ofBody body h).object = body := List.take_append_drop 16 body

theorem stringAt_of_mem {dev : DeviceInfo} {off : Nat} (h : 0 ∈ dev.object.drop off) :
    dev.stringAt off = .ok (cStr (dev.object.drop off)) := by
  rw [DeviceInfo.stringAt]
  exact if_pos h

theorem of_stringAt_ok {dev : DeviceInfo} {off : Nat} {s : Bytes} (h : dev.stringAt off = .ok s) :
    s = cStr (dev.object.drop off) := by
  rw [DeviceInfo.stringAt] at h
  split at h
  next =>
    cases h
    rfl
  next => cases h

theorem readsInside_of_terminated {body : Bytes} (h : body.length = DeviceInfo.size)
    (hterm : Terminated body) : (DeviceInfo.ofBody body h).ReadsInside := by
  have hsize : body.length = 48 := h
  have hip : 0 ∈ (DeviceInfo.ofBody body h).object.drop 0 := by
    rw [ofBody_object]
    exact List.mem_of_mem_take hterm.1
  have hname : 0 ∈ (DeviceInfo.ofBody body h).object.drop 16 := by
    rw [ofBody_object]
    exact hterm.2
  refine ⟨_, _, stringAt_of_mem hip, ?_, stringAt_of_mem hname, ?_⟩
  · rw [ofBody_object, List.drop_zero, cStr_length_lt_iff (by omega)]
    exact hterm.1
  · have hlen : (body.drop 16).length = 32 := by
      rw [List.length_drop]
      omega
    rw [ofBody_object, cStr_length_lt_iff (by omega), ← hlen, List.take_length]
    exact hterm.2

theorem readsInside_iff {body : Bytes} (h : body.length = DeviceInfo.size) :
    (DeviceInfo.ofBody body h).ReadsInside ↔ Terminated body := by
  refine ⟨?_, readsInside_of_terminated h⟩
  have hsize : body.length = 48 := h
  have hlen : (body.drop 16).length = 32 := by
    rw [List.length_drop]
    omega
  rintro ⟨ip, name, hip, hipfits, hname, hnamefits⟩
  rw [of_stringAt_ok hip, ofBody_object, List.drop_zero, cStr_length_lt_iff (by omega)] at hipfits
  rw [of_stringAt_ok hname, ofBody_object, cStr_length_lt_iff (by omega), ← hlen,
    List.take_length] at hnamefits
  exact ⟨hipfits, hnamefits⟩

theorem make_terminated (localIp name : Bytes) :
    Terminated (DeviceInfo.make localIp name).object := by
  have hfield : ∀ {size : Nat}, 0 < size → ∀ s : Bytes, 0 ∈ strncpyField size s := by
    intro size hsize s
    refine List.mem_append_right _ (List.mem_replicate.mpr ⟨?_, rfl⟩)
    rw [List.length_take]
    omega
  have hip : (DeviceInfo.make localIp name).ip.length = 16 := (DeviceInfo.make localIp name).ip_length
  rw [Terminated, DeviceInfo.object, ← hip, List.take_left, List.drop_left]
  exact ⟨hfield (by decide) localIp, hfield (by decide) name⟩

/-! ## The table -/

/-- A packet from which the loop reads strings. -/
def Announces (packet : PacketType × Bytes) : Prop :=
  (packet.1 = .devOnline ∨ packet.1 = .devOffline) ∧ packet.2.length = DeviceInfo.size

def KeysFit (devices : OnlineDevices) : Prop := ∀ ip, ip ∈ devices → ip.length ≤ 15

/-- The loop stays defined from the empty table on, every key it leaves fits in the
field, and every announcement's strings are read inside their fields. -/
def StringsInside (packets : List (PacketType × Bytes)) : Prop :=
  (∃ devices, handleAll ∅ packets = .ok devices ∧ KeysFit devices) ∧
    ∀ packet ∈ packets, Announces packet →
      ∀ h : packet.2.length = DeviceInfo.size, (DeviceInfo.ofBody packet.2 h).ReadsInside

theorem KeysFit.insert {devices : OnlineDevices} (h : KeysFit devices) {ip : Bytes}
    (hip : ip.length < 16) (dev : DeviceInfo) : KeysFit (devices.insert ip dev) := by
  intro key hkey
  rw [Std.ExtTreeMap.mem_insert] at hkey
  rcases hkey with heq | hmem
  · rw [← Std.LawfulEqCmp.eq_of_compare heq]
    omega
  · exact h key hmem

theorem KeysFit.erase {devices : OnlineDevices} (h : KeysFit devices) (ip : Bytes) :
    KeysFit (devices.erase ip) := by
  intro key hkey
  exact h key (Std.ExtTreeMap.mem_of_mem_erase hkey)

theorem handleDecoded_of_terminated {devices : OnlineDevices} (hdevices : KeysFit devices)
    {packet : PacketType × Bytes} (h : Announces packet → Terminated packet.2) :
    ∃ devices', handleDecoded devices packet = .ok devices' ∧ KeysFit devices' := by
  rw [handleDecoded]
  by_cases hsize : packet.2.length = DeviceInfo.size
  · rw [dif_pos hsize]
    by_cases honline : packet.1 = .devOnline
    · obtain ⟨ip, name, hip, hfits, hname, -⟩ :=
        readsInside_of_terminated hsize (h ⟨Or.inl honline, hsize⟩)
      rw [if_pos honline, hip, ok_bind, hname, ok_bind]
      exact ⟨_, rfl, hdevices.insert hfits _⟩
    · rw [if_neg honline]
      by_cases hoffline : packet.1 = .devOffline
      · obtain ⟨ip, name, hip, -, hname, -⟩ :=
          readsInside_of_terminated hsize (h ⟨Or.inr hoffline, hsize⟩)
        rw [if_pos hoffline, hip, ok_bind, hname, ok_bind]
        exact ⟨_, rfl, hdevices.erase ip⟩
      · rw [if_neg hoffline]
        exact ⟨devices, rfl, hdevices⟩
  · rw [dif_neg hsize]
    exact ⟨devices, rfl, hdevices⟩

theorem handleAll_of_terminated {devices : OnlineDevices} (hdevices : KeysFit devices)
    {packets : List (PacketType × Bytes)}
    (h : ∀ packet ∈ packets, Announces packet → Terminated packet.2) :
    ∃ devices', handleAll devices packets = .ok devices' ∧ KeysFit devices' := by
  induction packets generalizing devices with
  | nil => exact ⟨devices, rfl, hdevices⟩
  | cons packet rest ih =>
      obtain ⟨devices', hstep, hfit⟩ :=
        handleDecoded_of_terminated hdevices (h packet List.mem_cons_self)
      rw [handleAll, List.foldlM_cons, hstep, ok_bind]
      exact ih hfit fun p hp => h p (List.mem_cons_of_mem _ hp)

/-- The strings of all decoded packets stay inside their fields, and with them the keys of
the table, exactly if every announcement has a terminator in each field. -/
theorem stringsInside_iff (packets : List (PacketType × Bytes)) :
    StringsInside packets ↔
      ∀ packet ∈ packets, Announces packet → Terminated packet.2 := by
  constructor
  · rintro ⟨-, hreads⟩ packet hpacket hannounces
    exact (readsInside_iff hannounces.2).mp (hreads packet hpacket hannounces hannounces.2)
  · intro h
    have hempty : KeysFit ∅ := fun ip hip => absurd hip Std.ExtTreeMap.not_mem_empty
    exact ⟨handleAll_of_terminated hempty h, fun packet hpacket hannounces hsize =>
      (readsInside_iff hsize).mpr (h packet hpacket hannounces)⟩

/-- A device that fills its whole body with the letter A. -/
theorem unterminated_body_read_past_the_end :
    ¬∀ packets : List (PacketType × Bytes), StringsInside packets := by
  intro h
  obtain ⟨⟨devices, hrun, -⟩, -⟩ := h [(.devOnline, List.replicate 48 0x41)]
  have herror : handleAll ∅ [(.devOnline, List.replicate 48 0x41)] = .error .outOfBounds := by rfl
  rw [herror] at hrun
  cases hrun

end EggDelivery
