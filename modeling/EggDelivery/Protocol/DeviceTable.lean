import EggDelivery.Library.Register
import EggDelivery.Protocol.DeviceStrings

/-!
# The table of devices

`recv_broadcast_loop` would keep, for each address, what was announced last. It gets
nothing to keep: a datagram of at most `PROTO_BUF_MAX` bytes is accepted by
`decode_outer_packet` only with an empty body.
-/

namespace EggDelivery

/-! ## Behind the decoder -/

/-- What a decoded packet writes to the table. The key is read from the start of the
body up to the first terminator, wherever that is. -/
def tableWrite (packet : PacketType × Bytes) : Option (Register.Write Bytes DeviceInfo) :=
  if h : packet.2.length = DeviceInfo.size then
    if packet.1 = .devOnline then some ⟨cStr packet.2, some (DeviceInfo.ofBody packet.2 h)⟩
    else if packet.1 = .devOffline then some ⟨cStr packet.2, none⟩
    else none
  else none

/-- If it is an announcement, the name in it has a terminator. -/
def NameEnds (packet : PacketType × Bytes) : Prop := Announces packet → 0 ∈ packet.2.drop 16

instance (packet : PacketType × Bytes) : Decidable (NameEnds packet) :=
  inferInstanceAs (Decidable ((_ ∨ _) ∧ _ → _))

theorem strings_ofBody {α : Type} {body : Bytes} (h : body.length = DeviceInfo.size)
    (k : Bytes → α) :
    (do
      let ip ← (DeviceInfo.ofBody body h).stringAt 0
      let _ ← (DeviceInfo.ofBody body h).stringAt 16
      pure (k ip)) =
      if 0 ∈ body.drop 16 then Except.ok (k (cStr body)) else .error Ub.outOfBounds := by
  have hobject := ofBody_object h
  by_cases hname : 0 ∈ body.drop 16
  · have hip : 0 ∈ (DeviceInfo.ofBody body h).object.drop 0 := by
      rw [hobject]
      exact List.mem_of_mem_drop hname
    have hname' : 0 ∈ (DeviceInfo.ofBody body h).object.drop 16 := by
      rw [hobject]
      exact hname
    rw [if_pos hname, stringAt_of_mem hip, stringAt_of_mem hname', hobject, List.drop_zero]
    rfl
  · have hname' : (DeviceInfo.ofBody body h).stringAt 16 = .error .outOfBounds := by
      rw [DeviceInfo.stringAt, hobject]
      exact if_neg hname
    rw [if_neg hname, hname']
    -- the address may be unterminated as well: the same error either way
    rw [DeviceInfo.stringAt]
    split <;> rfl

/-- One turn writes, or reads past the end of the body. -/
theorem handleDecoded_eq (devices : OnlineDevices) (packet : PacketType × Bytes) :
    handleDecoded devices packet =
      if NameEnds packet then .ok ((tableWrite packet).elim devices (Register.write devices))
      else .error .outOfBounds := by
  rw [handleDecoded, tableWrite]
  by_cases hsize : packet.2.length = DeviceInfo.size
  · rw [dif_pos hsize, dif_pos hsize]
    by_cases honline : packet.1 = .devOnline
    · have hends : NameEnds packet ↔ 0 ∈ packet.2.drop 16 :=
        ⟨fun h => h ⟨Or.inl honline, hsize⟩, fun h _ => h⟩
      rw [if_pos honline, if_pos honline]
      simp only [hends]
      exact strings_ofBody hsize fun ip => devices.insert ip (DeviceInfo.ofBody packet.2 hsize)
    · rw [if_neg honline, if_neg honline]
      by_cases hoffline : packet.1 = .devOffline
      · have hends : NameEnds packet ↔ 0 ∈ packet.2.drop 16 :=
          ⟨fun h => h ⟨Or.inr hoffline, hsize⟩, fun h _ => h⟩
        rw [if_pos hoffline, if_pos hoffline]
        simp only [hends]
        exact strings_ofBody hsize fun ip => devices.erase ip
      · have hends : NameEnds packet := fun h => (h.1.elim honline hoffline).elim
        rw [if_neg hoffline, if_neg hoffline, if_pos hends]
        rfl
  · have hends : NameEnds packet := fun h => absurd h.2 hsize
    rw [dif_neg hsize, dif_neg hsize, if_pos hends]
    rfl

/-- The run stops with an error at the first announcement whose name does not end. -/
theorem handleAll_eq (devices : OnlineDevices) (packets : List (PacketType × Bytes)) :
    handleAll devices packets =
      if ∀ packet ∈ packets, NameEnds packet then
        .ok ((packets.filterMap tableWrite).foldl Register.write devices)
      else .error .outOfBounds := by
  induction packets generalizing devices with
  | nil => rfl
  | cons packet rest ih =>
      rw [handleAll, List.foldlM_cons, handleDecoded_eq]
      by_cases hends : NameEnds packet
      · rw [if_pos hends, ok_bind]
        refine (ih _).trans ?_
        simp only [List.forall_mem_cons, hends, true_and, List.filterMap_cons]
        cases tableWrite packet <;> rfl
      · have hnot : ¬∀ p ∈ packet :: rest, NameEnds p := fun h => hends (h packet List.mem_cons_self)
        rw [if_neg hends, if_neg hnot]
        rfl

/-! ## What the encoders announce -/

theorem cStr_strncpyField_append {size : Nat} (hsize : 0 < size) (s rest : Bytes) :
    cStr (strncpyField size s ++ rest) = (cStr s).take (size - 1) := by
  have htext : ∀ b ∈ (cStr s).take (size - 1), decide (b ≠ 0) = true := fun b hb =>
    List.all_eq_true.mp List.all_takeWhile b (List.mem_of_mem_take hb)
  obtain ⟨k, hk⟩ : ∃ k, size - ((cStr s).take (size - 1)).length = k + 1 := by
    refine Nat.exists_eq_add_one.mpr ?_
    rw [List.length_take]
    omega
  rw [strncpyField, hk, List.append_assoc, cStr, List.takeWhile_append_of_pos htext,
    List.replicate_succ, List.cons_append, List.takeWhile_cons_of_neg (by decide), List.append_nil]

theorem cStr_make (localIp name : Bytes) :
    cStr (DeviceInfo.make localIp name).object = (cStr localIp).take 15 :=
  cStr_strncpyField_append (by decide) localIp _

theorem name_make (localIp name : Bytes) :
    (DeviceInfo.make localIp name).stringAt 16 = .ok ((cStr name).take 31) := by
  have hip : (DeviceInfo.make localIp name).ip.length = 16 :=
    (DeviceInfo.make localIp name).ip_length
  have hdrop : (DeviceInfo.make localIp name).object.drop 16 = strncpyField 32 name := by
    rw [DeviceInfo.object, ← hip, List.drop_left]
    rfl
  have hmem := (make_terminated localIp name).2
  rw [stringAt_of_mem hmem, hdrop, ← List.append_nil (strncpyField 32 name),
    cStr_strncpyField_append (by decide)]

theorem ofBody_make (localIp name : Bytes) :
    DeviceInfo.ofBody (DeviceInfo.make localIp name).object (DeviceInfo.object_length _) =
      DeviceInfo.make localIp name := by
  have hip : (DeviceInfo.make localIp name).ip.length = 16 :=
    (DeviceInfo.make localIp name).ip_length
  have htake : (DeviceInfo.make localIp name).object.take 16 = (DeviceInfo.make localIp name).ip :=
    List.take_left' hip
  have hdrop : (DeviceInfo.make localIp name).object.drop 16 =
      (DeviceInfo.make localIp name).name := List.drop_left' hip
  simp only [DeviceInfo.ofBody, htake, hdrop]

/-- An announcement of the encoders puts the whole device under its address, or takes
the address away. -/
theorem tableWrite_make (localIp name : Bytes) :
    tableWrite (.devOnline, (DeviceInfo.make localIp name).object) =
        some ⟨(cStr localIp).take 15, some (DeviceInfo.make localIp name)⟩ ∧
      tableWrite (.devOffline, (DeviceInfo.make localIp name).object) =
        some ⟨(cStr localIp).take 15, none⟩ := by
  have hsize := DeviceInfo.object_length (DeviceInfo.make localIp name)
  have hother : PacketType.devOffline ≠ .devOnline := by decide
  constructor
  · rw [tableWrite, dif_pos hsize, if_pos rfl, cStr_make, ofBody_make]
  · rw [tableWrite, dif_pos hsize, if_neg hother, if_pos rfl, cStr_make]

/-- Behind the decoder, the loop is defined exactly if every announced name ends, and
then each address has what was announced for it last. What the encoders announce is
cut to the fields: an address to 15 bytes and a name to 31. -/
theorem table_is_last_announcement (devices : OnlineDevices)
    (packets : List (PacketType × Bytes)) :
    ((∃ devices', handleAll devices packets = .ok devices') ↔
        ∀ packet ∈ packets, NameEnds packet) ∧
      (∀ devices', handleAll devices packets = .ok devices' → ∀ ip,
        devices'[ip]? = (Register.last ip (packets.filterMap tableWrite)).getD devices[ip]?) ∧
      ∀ localIp name : Bytes,
        let dev := DeviceInfo.make localIp name
        tableWrite (.devOnline, dev.object) = some ⟨(cStr localIp).take 15, some dev⟩ ∧
          tableWrite (.devOffline, dev.object) = some ⟨(cStr localIp).take 15, none⟩ ∧
          dev.stringAt 16 = .ok ((cStr name).take 31) := by
  rw [handleAll_eq]
  refine ⟨?_, ?_, fun localIp name => ?_⟩
  · by_cases hends : ∀ packet ∈ packets, NameEnds packet
    · simp only [if_pos hends]
      exact ⟨fun _ => hends, fun _ => ⟨_, rfl⟩⟩
    · simp only [hends, iff_false]
      rintro ⟨devices', hrun⟩
      cases hrun
  · intro devices' hrun ip
    split at hrun
    next =>
      cases hrun
      exact Register.getElem?_foldl_write devices _ ip
    next => cases hrun
  · obtain ⟨honline, hoffline⟩ := tableWrite_make localIp name
    exact ⟨honline, hoffline, name_make localIp name⟩

/-! ## In front of it -/

/-- What `recvfrom` hands over is too short for a body that the decoder accepts. -/
theorem body_nil_of_decodedDatagram {datagram body : Bytes} {type : PacketType}
    (h : decodedDatagram datagram = some (type, body)) : body = [] := by
  rw [decodedDatagram] at h
  split at h
  next => cases h
  next =>
    by_cases hshort : (datagram.take protoBufMax).length < 5
    · rw [decodeOuterPacket_short hshort] at h
      cases h
    · obtain ⟨a, b, c, d, e, rest, heq⟩ := exists_five hshort
      have hlen := congrArg List.length heq
      rw [List.length_take, protoBufMax] at hlen
      simp only [List.length_cons] at hlen
      rw [heq, decodeOuterPacket_eq] at h
      by_cases hrest : rest.length = e.toNat * 2 ^ 24
      · -- fewer than `2 ^ 24` bytes follow the header, so it declares none
        rw [if_pos hrest] at h
        obtain ⟨-, rfl⟩ := Prod.mk.inj (Option.some.inj h)
        refine List.eq_nil_of_length_eq_zero ?_
        omega
      · rw [if_neg hrest] at h
        cases h

/-- No datagram whatever changes the table, and none is read past its end. -/
theorem table_never_changes (devices : OnlineDevices) (datagrams : List Bytes) :
    recvBroadcastLoop devices datagrams = .ok devices := by
  have hquiet : ∀ packet ∈ datagrams.filterMap decodedDatagram,
      NameEnds packet ∧ tableWrite packet = none := by
    intro packet hmem
    obtain ⟨datagram, -, hdecoded⟩ := List.mem_filterMap.mp hmem
    have hbody : packet.2 = [] := body_nil_of_decodedDatagram hdecoded
    have hsize : packet.2.length ≠ DeviceInfo.size := by
      rw [hbody]
      decide
    exact ⟨fun hannounces => absurd hannounces.2 hsize, dif_neg hsize⟩
  have hwrites : (datagrams.filterMap decodedDatagram).filterMap tableWrite = [] :=
    List.filterMap_eq_nil_iff.mpr fun packet hmem => (hquiet packet hmem).2
  rw [recvBroadcastLoop_eq, handleAll_eq, if_pos fun packet hmem => (hquiet packet hmem).1, hwrites]
  rfl

end EggDelivery
