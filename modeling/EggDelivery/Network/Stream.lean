import EggDelivery.Network.ReceiveLoop
import EggDelivery.Network.Sending

/-!
# The receive loop over a byte stream

`recv_bytes` returns what the stream happens to hold, and the loop takes each
result for one packet. The file arrives when the results are the packets. With any
other cut some packet is never the beginning of a result, and a result that begins
inside a packet is no chunk of this file, unless the content spells out its own
SHA-256.
-/

namespace EggDelivery

open Fips180 Segments FileManager

/-! ## Sending on a transport that takes everything -/

theorem sendFile_wholeSends {m : Bytes} {packets : List Bytes}
    (h : sendFile (FileView.ofContent m) wholeSends = .ok (true, packets)) :
    packets = (fileTransfer m).packets := by
  unfold sendFile at h
  cases hread : readAndChunkFile (FileView.ofContent m) defaultChunkSize with
  | error e =>
      rw [hread, error_bind] at h
      cases h
  | ok cs =>
      rw [hread, ok_bind, sendChunks_wholeSends] at h
      have hcs := readAndChunkFile_default hread
      split at h
      next => cases h
      next =>
        cases h
        rw [hcs]
        rfl

theorem sendFile_of_le {m : Bytes} (hne : m ≠ []) (hlen : m.length ≤ maxFileSize) :
    sendFile (FileView.ofContent m) wholeSends = .ok (true, (fileTransfer m).packets) := by
  have hchunks : chunked (hexDigest m) (fileTransfer m).parts ≠ [] := by
    intro hnil
    have hcount := congrArg List.length hnil
    simp only [chunked, List.length_mapIdx, List.length_nil] at hcount
    exact ((fileTransfer_content_iff hne).mpr hlen).1 (List.length_eq_zero_iff.mp hcount)
  rw [sendFile_of_ok (readAndChunkFile_of_le hlen) hchunks, sendChunks_wholeSends]
  rfl

/-! ## Bytes that give a packet away -/

private theorem hexDigit_ne : ∀ d < 16, BigEndian.hexDigit d ≠ 0x40 ∧ BigEndian.hexDigit d ≠ 0x4C := by
  decide

/-- A digest has neither the low byte of its own length word nor the first byte of
the magic number. -/
theorem hexDigest_ne {m : Bytes} {b : UInt8} (h : b ∈ hexDigest m) : b ≠ 0x40 ∧ b ≠ 0x4C := by
  obtain ⟨c, -, hb⟩ := List.mem_flatMap.mp h
  simp only [BigEndian.hexByte, List.mem_cons, List.not_mem_nil, or_false] at hb
  have hc := c.toNat_lt
  rcases hb with rfl | rfl
  · exact hexDigit_ne _ (by omega)
  · exact hexDigit_ne _ (by omega)

/-- A serialization with a 64-byte hash: the header begins with the magic number and
ends with the length of the hash. -/
structure Framed (head hash data pkg : Bytes) : Prop where
  head_length : head.length = 25
  magic : head[0]? = some 0x4C
  hash_length : head[24]? = some 0x40
  split : pkg = head ++ (hash ++ data)

theorem exists_framed {c : FileChunk} (h : c.fileHash.length = 64) :
    ∃ head, Framed head c.fileHash c.data c.serialize := by
  refine ⟨_, rfl, rfl, ?_, FileChunk.serialize_eq c⟩
  rw [h]
  rfl

namespace Framed

variable {head hash data pkg : Bytes}

theorem getElem?_zero (h : Framed head hash data pkg) : pkg[0]? = some 0x4C := by
  rw [h.split, List.getElem?_append_left (by rw [h.head_length]; decide), h.magic]

theorem getElem?_hash_length (h : Framed head hash data pkg) : pkg[24]? = some 0x40 := by
  rw [h.split, List.getElem?_append_left (by rw [h.head_length]; decide), h.hash_length]

theorem getElem?_hash (h : Framed head hash data pkg) {k : Nat} (hk : k < hash.length) :
    pkg[25 + k]? = hash[k]? := by
  rw [h.split, List.getElem?_append_right (by rw [h.head_length]; omega), h.head_length,
    Nat.add_sub_cancel_left, List.getElem?_append_left hk]

theorem getElem?_data (h : Framed head hash data pkg) (k : Nat) :
    pkg[25 + hash.length + k]? = data[k]? := by
  rw [h.split, List.getElem?_append_right (by rw [h.head_length]; omega), h.head_length,
    List.getElem?_append_right (by omega)]
  congr 1
  omega

theorem length_eq (h : Framed head hash data pkg) :
    pkg.length = 25 + hash.length + data.length := by
  rw [h.split, List.length_append, List.length_append, h.head_length]
  omega

/-- Where the data of the frame reads like a text, it contains the text. -/
theorem infix_of_getElem? (h : Framed head hash data pkg) (hlen : hash.length = 64) {text : Bytes}
    (htext : text.length = 64) {k : Nat} (hread : ∀ j, j < 64 → pkg[89 + k + j]? = text[j]?) :
    text <:+: data := by
  have hslice : text = (data.drop k).take 64 := by
    apply List.ext_getElem?
    intro j
    by_cases hj : j < 64
    · rw [List.getElem?_take_of_lt hj, List.getElem?_drop, ← h.getElem?_data, ← hread j hj, hlen]
      congr 1
      omega
    · rw [List.getElem?_eq_none (by omega), List.getElem?_eq_none (by simp; omega)]
  rw [hslice]
  exact (List.take_prefix _ _).isInfix.trans (List.drop_suffix _ _).isInfix

/-- Two hashes without those two bytes: a frame for the one that begins inside a frame
for the other lies in the data of that frame. -/
theorem infix_of_frame (h : Framed head hash data pkg) (hlen : hash.length = 64)
    (hplain : ∀ b ∈ hash, b ≠ 0x40 ∧ b ≠ 0x4C) {text : Bytes} (htext : text.length = 64)
    (hplain' : ∀ b ∈ text, b ≠ 0x40 ∧ b ≠ 0x4C) {u v rest : Bytes} (huv : pkg = u ++ v)
    (hu : u ≠ []) (hv : v ≠ [])
    (hrest : rest ≠ [] → rest[0]? = some 0x4C ∧ rest[24]? = some 0x40) {head' data' : Bytes}
    (hinner : Framed head' text data' (v ++ rest)) : text <:+: data := by
  have hupos : 0 < u.length := List.length_pos_iff.mpr hu
  have hvpos : 0 < v.length := List.length_pos_iff.mpr hv
  have hlength : u.length + v.length = 89 + data.length := by
    have := h.length_eq
    rw [huv, List.length_append, hlen] at this
    omega
  have hnot : ∀ {k : Nat} {b : UInt8}, text[k]? = some b → b ≠ 0x40 ∧ b ≠ 0x4C := fun hb =>
    hplain' _ (List.mem_of_getElem? hb)
  have hin : ∀ j, j < v.length → (v ++ rest)[j]? = pkg[u.length + j]? := by
    intro j hj
    rw [List.getElem?_append_left hj, huv, List.getElem?_append_right (by omega),
      Nat.add_sub_cancel_left]
  have hout : ∀ j, (v ++ rest)[v.length + j]? = rest[j]? := by
    intro j
    rw [List.getElem?_append_right (by omega), Nat.add_sub_cancel_left]
  by_cases hearly : u.length ≤ 64
  · -- the length byte of the inner frame falls into the outer hash
    have hbyte : hash[u.length - 1]? = some 0x40 := by
      rw [← h.getElem?_hash (by omega), ← hinner.getElem?_hash_length, hin 24 (by omega)]
      congr 1
      omega
    exact ((hplain _ (List.mem_of_getElem? hbyte)).1 rfl).elim
  · by_cases hfits : 89 ≤ v.length
    · have hread : ∀ j, j < 64 → pkg[89 + (u.length - 64) + j]? = text[j]? := by
        intro j hj
        rw [← hinner.getElem?_hash (by omega), hin _ (by omega)]
        congr 1
        omega
      exact h.infix_of_getElem? hlen htext hread
    · have hne : rest ≠ [] := by
        rintro rfl
        have := hinner.length_eq
        rw [List.append_nil, htext] at this
        omega
      obtain ⟨hmagic, hword⟩ := hrest hne
      by_cases hlate : 25 ≤ v.length
      · -- the magic number of the next packet falls into the inner hash
        have hbyte : text[v.length - 25]? = some 0x4C := by
          rw [← hinner.getElem?_hash (by omega), ← hmagic, ← hout 0]
          congr 1
          omega
        exact ((hnot hbyte).2 rfl).elim
      · -- the length byte of the next packet falls into the inner hash
        have hbyte : text[v.length - 1]? = some 0x40 := by
          rw [← hinner.getElem?_hash (by omega), ← hword, ← hout 24]
          congr 1
          omega
        exact ((hnot hbyte).1 rfl).elim

/-- A frame for a text without those two bytes that begins inside a frame for the
same text lies in the data of that frame. -/
theorem infix_of_inside (h : Framed head hash data pkg) (hlen : hash.length = 64)
    (hplain : ∀ b ∈ hash, b ≠ 0x40 ∧ b ≠ 0x4C) {u v rest : Bytes} (huv : pkg = u ++ v)
    (hu : u ≠ []) (hv : v ≠ [])
    (hrest : rest ≠ [] → rest[0]? = some 0x4C ∧ rest[24]? = some 0x40) {head' data' : Bytes}
    (hinner : Framed head' hash data' (v ++ rest)) : hash <:+: data :=
  h.infix_of_frame hlen hplain hlen hplain huv hu hv hrest hinner

end Framed

/-! ## Results of `recv_bytes` that are chunks of the file -/

namespace Transfer

/-- A piece begins with packet `i`, where packet `i` begins in the stream. -/
def HeldAt (t : Transfer) (pieces : List Bytes) (i : Nat) : Prop :=
  ∃ before x after, t.packets = before ++ x :: after ∧ before.length = i ∧ Holds pieces before x

theorem HeldAt.append {t : Transfer} {pieces : List Bytes} {i : Nat} (h : t.HeldAt pieces i)
    (more : List Bytes) : t.HeldAt (pieces ++ more) i := by
  obtain ⟨before, x, after, hsplit, hi, hheld⟩ := h
  exact ⟨before, x, after, hsplit, hi, hheld.append more⟩

theorem exists_part {t : Transfer} {before after : List Bytes} {x : Bytes}
    (h : t.packets = before ++ x :: after) :
    ∃ part, t.parts[before.length]? = some part ∧
      x = (chunkAt t.hash t.parts before.length part).serialize := by
  have hx : t.packets[before.length]? = some x := by
    rw [h, List.getElem?_append_right (Nat.le_refl _), Nat.sub_self]
    rfl
  simp only [packets, chunked, List.getElem?_map, List.getElem?_mapIdx, Option.map_eq_some_iff] at hx
  obtain ⟨c, ⟨part, hpart, rfl⟩, rfl⟩ := hx
  exact ⟨part, hpart, rfl⟩

theorem header_of_packets {t : Transfer} (hlen : t.hash.length = 64) {xs : List Bytes}
    (hxs : ∀ x ∈ xs, x ∈ t.packets) (hne : xs.flatten ≠ []) :
    xs.flatten[0]? = some 0x4C ∧ xs.flatten[24]? = some 0x40 := by
  cases xs with
  | nil => exact (hne rfl).elim
  | cons x xs =>
      obtain ⟨i, part, -, hx⟩ := mem_packets.mp (hxs x List.mem_cons_self)
      obtain ⟨head, hframe⟩ := exists_framed (c := chunkAt t.hash t.parts i part) hlen
      rw [← hx] at hframe
      have hpos := hframe.length_eq
      rw [List.flatten_cons, List.getElem?_append_left (by omega),
        List.getElem?_append_left (by omega)]
      exact ⟨hframe.getElem?_zero, hframe.getElem?_hash_length⟩

/-- A buffer that begins with a packet is accepted as that chunk and no other. -/
theorem eq_of_begins {t : Transfer} {i : Nat} {part : Bytes} (hi : t.parts[i]? = some part)
    {c : FileChunk} {buf rest : Bytes} (hdec : FileChunk.deserialize 64 {} buf = .ok (true, c))
    (hbuf : buf = (chunkAt t.hash t.parts i part).serialize ++ rest) :
    c = chunkAt t.hash t.parts i part := by
  have hfirst := FileChunk.deserialize_serialize_append (w := 64) (by decide) {}
    (c := chunkAt t.hash t.parts i part) t.hash_length
    (t.part_length part (List.mem_of_getElem? hi)) rest
  rw [← hbuf] at hfirst
  exact FileChunk.deserialize_true_unique (by decide) hdec hfirst

/-- An accepted piece of the stream with the hash of the transfer starts at a packet
and holds it, if no payload contains the hash. -/
theorem heldAt_of_accepted {t : Transfer} (hlen : t.hash.length = 64)
    (hplain : ∀ b ∈ t.hash, b ≠ 0x40 ∧ b ≠ 0x4C)
    (hfree : ∀ part ∈ t.parts, ¬t.hash <:+: part) {done : List Bytes} {s tail : Bytes}
    (hcut : done.flatten ++ (s ++ tail) = t.packets.flatten) {c : FileChunk}
    (hdec : FileChunk.deserialize 64 {} s = .ok (true, c)) (hhash : c.fileHash = t.hash) :
    ∃ i part, t.parts[i]? = some part ∧ c = chunkAt t.hash t.parts i part ∧
      t.HeldAt (done ++ [s]) i := by
  obtain ⟨hsize, hc, hdata, extra, hs⟩ := FileChunk.of_deserialize_true (by decide) hdec
  have hstream : s ++ tail = c.serialize ++ (extra ++ tail) := by rw [hs, List.append_assoc]
  have hne : s ++ tail ≠ [] := by
    rw [hstream]
    exact List.append_ne_nil_of_left_ne_nil c.serialize_ne_nil _
  obtain ⟨before, u, v, after, hsplit, hv, hdone, hrest⟩ :=
    exists_cut (fun x hx => ne_nil_of_mem_packets hx) hne hcut
  obtain ⟨part, hpart, hpacket⟩ := exists_part hsplit
  by_cases hu : u = []
  · subst hu
    rw [List.nil_append] at hsplit hpacket
    rw [List.append_nil] at hdone
    have hwhole : FileChunk.deserialize 64 {} (s ++ tail) = .ok (true, c) :=
      (FileChunk.deserialize_true_iff (by decide) {} c _).mpr ⟨hsize, hc, hdata, _, hstream⟩
    have hchunk := eq_of_begins hpart hwhole (by rw [hrest, hpacket])
    refine ⟨before.length, part, hpart, hchunk, before, v, after, hsplit, rfl, done, s, [], rfl,
      hdone, extra, ?_⟩
    rw [hs, hchunk, ← hpacket]
  · -- the piece would begin inside a packet
    exfalso
    obtain ⟨head, hframe⟩ :=
      exists_framed (c := chunkAt t.hash t.parts before.length part) hlen
    rw [← hpacket] at hframe
    obtain ⟨head', hinner⟩ := exists_framed (c := c) (by rw [hhash, hlen])
    have hbehind := header_of_packets hlen fun x (hx : x ∈ after) => by
      rw [hsplit]
      exact List.mem_append_right _ (List.mem_cons_of_mem _ hx)
    have hinside : Framed head' t.hash (c.data ++ (extra ++ tail)) (v ++ after.flatten) := by
      refine ⟨hinner.head_length, hinner.magic, hinner.hash_length, ?_⟩
      rw [← hrest, hstream, hinner.split, hhash]
      simp only [List.append_assoc]
    exact hfree part (List.mem_of_getElem? hpart)
      (hframe.infix_of_inside hlen hplain rfl hu hv hbehind hinside)

end Transfer

section Track

variable {Node : Type} {denote : Bytes → Node} {disk : Disk Node} {t : Transfer}

/-- No other hash is stored in the same file. -/
def OwnPath (denote : Bytes → Node) (hash : Bytes) : Prop :=
  ∀ other, denote (savedAs other) = denote (savedAs hash) → other = hash

/-- What the receiver knows of the transfer has come from packets that began a piece, and
its file has not been written before all of them had. -/
structure Tracking (denote : Bytes → Node) (disk : Disk Node) (t : Transfer)
    (past : List Arrival) (r : Receiver Node) : Prop where
  saved : SavedUnderHash r
  session : ∀ s, r.fm.find t.hash = some s → ∃ arrived, Filling (savedAs t.hash) t.parts arrived s ∧
    ∀ i, arrived i → t.HeldAt (past.map Arrival.pkg) i
  disk : r.disk (denote (savedAs t.hash)) = disk (denote (savedAs t.hash)) ∨
    ∀ i, i < t.parts.length → t.HeldAt (past.map Arrival.pkg) i

theorem heldAt_concat {past : List Arrival} {i : Nat} (h : t.HeldAt (past.map Arrival.pkg) i)
    (a : Arrival) : t.HeldAt ((past ++ [a]).map Arrival.pkg) i := by
  rw [List.map_append]
  exact h.append _

theorem tracking_start (t : Transfer) : Tracking denote disk t [] (startReceiver disk) where
  saved := savedUnderHash_start _
  session := by simp [startReceiver]
  disk := Or.inl rfl

theorem session_afterAdd {past : List Arrival} {r : Receiver Node}
    (h : Tracking denote disk t past r)
    {i : Nat} {part : Bytes} (hi : t.parts[i]? = some part) (a : Arrival)
    {s : FileTransferSession}
    (hs : (afterAdd r (chunkAt t.hash t.parts i part) a).fm.find t.hash = some s) :
    ∃ arrived, Filling (savedAs t.hash) t.parts arrived s ∧
      ∀ j, arrived j → t.HeldAt (past.map Arrival.pkg) j ∨ j = i := by
  have hopen : ∀ s,
      (openSession r (chunkAt t.hash t.parts i part) a.created).fm.find t.hash = some s →
      ∃ arrived, Filling (savedAs t.hash) t.parts arrived s ∧
        ∀ j, arrived j → t.HeldAt (past.map Arrival.pkg) j := by
    intro s hs
    unfold openSession at hs
    split at hs
    next => exact h.session s hs
    next =>
      rw [find_createTransferSession] at hs
      split at hs
      next =>
        have hpath : r.fm.savePath (saveName t.hash) = savedAs t.hash := by
          rw [savePath, h.saved.dir, savedAs]
        cases hs
        simp only [chunkAt]
        rw [hpath]
        exact ⟨_, Filling.fresh _ _ _ _, fun _ hn => hn.elim⟩
      next => exact h.session s hs
  rw [afterAdd, find_addChunkToSession] at hs
  simp only [chunkAt] at hs hopen
  rw [if_pos trivial] at hs
  obtain ⟨s₀, hs₀, rfl⟩ := Option.map_eq_some_iff.mp hs
  obtain ⟨arrived, hfill, hheld⟩ := hopen s₀ hs₀
  refine ⟨fun j => arrived j ∨ j = i, (hfill.add t.parts_length hi a.added).2, ?_⟩
  rintro j (hj | rfl)
  · exact Or.inl (hheld j hj)
  · exact Or.inr rfl

theorem Tracking.unchanged {past : List Arrival} {r : Receiver Node}
    (h : Tracking denote disk t past r) (a : Arrival) {r' : Receiver Node}
    (hsaved : SavedUnderHash r') (hfind : r'.fm.find t.hash = r.fm.find t.hash)
    (hdisk : r'.disk (denote (savedAs t.hash)) = r.disk (denote (savedAs t.hash))) :
    Tracking denote disk t (past ++ [a]) r' := by
  refine ⟨hsaved, fun s hs => ?_, ?_⟩
  · obtain ⟨arrived, hfill, hheld⟩ := h.session s (hfind ▸ hs)
    exact ⟨arrived, hfill, fun i hi => heldAt_concat (hheld i hi) a⟩
  · rcases h.disk with hold | hall
    · exact Or.inl (hdisk.trans hold)
    · exact Or.inr fun i hi => heldAt_concat (hall i hi) a

variable [DecidableEq Node]

theorem Tracking.accepted {past : List Arrival} {r : Receiver Node}
    (h : Tracking denote disk t past r) {a : Arrival} {i : Nat} {part : Bytes}
    (hi : t.parts[i]? = some part)
    (hdec : FileChunk.deserialize 64 {} a.pkg = .ok (true, chunkAt t.hash t.parts i part))
    (hheld : t.HeldAt (past.map Arrival.pkg ++ [a.pkg]) i) :
    Tracking denote disk t (past ++ [a]) (recvFileStep denote r a).1 := by
  have hsession : ∀ s,
      (afterAdd r (chunkAt t.hash t.parts i part) a).fm.find t.hash = some s →
      ∃ arrived, Filling (savedAs t.hash) t.parts arrived s ∧
        ∀ j, arrived j → t.HeldAt ((past ++ [a]).map Arrival.pkg) j := by
    intro s hs
    obtain ⟨arrived, hfill, hold⟩ := session_afterAdd h hi a hs
    refine ⟨arrived, hfill, fun j hj => ?_⟩
    rcases hold j hj with hj | rfl
    · exact heldAt_concat hj a
    · rwa [List.map_append, List.map_cons, List.map_nil]
  have hsaved := savedUnderHash_step denote h.saved a
  have hkept : r.disk (denote (savedAs t.hash)) = disk (denote (savedAs t.hash)) ∨
      ∀ i, i < t.parts.length → t.HeldAt ((past ++ [a]).map Arrival.pkg) i :=
    h.disk.imp_right fun hall j hj => heldAt_concat (hall j hj) a
  have hstep := recvFileStep_accepted denote r hdec
  rw [show (chunkAt t.hash t.parts i part).fileHash = t.hash from rfl] at hstep
  by_cases hcomplete :
      (afterAdd r (chunkAt t.hash t.parts i part) a).fm.isTransferComplete t.hash = true
  · simp only [finishSession, hcomplete, if_true] at hstep
    rcases completeTransfer_cases denote (afterAdd r (chunkAt t.hash t.parts i part) a).fm t.hash
      a.env (afterAdd r (chunkAt t.hash t.parts i part) a).disk with
      ⟨s, hs, -, -, -, -, hman, -⟩ | ⟨-, hman, hdisk⟩
    · -- the file is written, so every piece has come
      obtain ⟨arrived, hfill, hheld'⟩ := hsession s hs
      have hall := (isTransferComplete_iff hs hfill t.parts_length).mp hcomplete
      refine ⟨hsaved, fun s' hs' => ?_, Or.inr fun j hj => hheld' j (hall j hj)⟩
      rw [hstep, hman, find_drop, if_pos rfl] at hs'
      cases hs'
    · refine ⟨hsaved, fun s hs => hsession s ?_, ?_⟩
      · rwa [hstep, hman] at hs
      · rwa [hstep, hdisk, disk_afterAdd]
  · have hfinish : (recvFileStep denote r a).1 = afterAdd r (chunkAt t.hash t.parts i part) a := by
      rw [hstep]
      simp only [finishSession, if_neg hcomplete]
    refine ⟨hsaved, fun s hs => hsession s (hfinish ▸ hs), ?_⟩
    rwa [hfinish, disk_afterAdd]

theorem tracking_step (hown : OwnPath denote t.hash) {past : List Arrival} {r : Receiver Node}
    (h : Tracking denote disk t past r) {a : Arrival}
    (hacc : ∀ c, FileChunk.deserialize 64 {} a.pkg = .ok (true, c) → c.fileHash = t.hash →
      ∃ i part, t.parts[i]? = some part ∧ c = chunkAt t.hash t.parts i part ∧
        t.HeldAt (past.map Arrival.pkg ++ [a.pkg]) i) :
    Tracking denote disk t (past ++ [a]) (recvFileStep denote r a).1 := by
  rcases deserialize_cases a.pkg with ⟨c, hdec⟩ | ⟨c, hdec⟩
  · by_cases hhash : c.fileHash = t.hash
    · obtain ⟨i, part, hi, rfl, hheld⟩ := hacc c hdec hhash
      exact h.accepted hi hdec hheld
    · have hframe := sameElsewhere_recvFileStep denote r hdec
      refine h.unchanged a (savedUnderHash_step denote h.saved a)
        (hframe.find t.hash (Ne.symm hhash)) (disk_recvFileStep denote h.saved hdec ?_)
      exact fun heq => hhash (hown c.fileHash heq.symm)
  · rw [recvFileStep_rejected denote r hdec]
    exact h.unchanged a h.saved rfl rfl

end Track

/-! ## Segmentations of a file -/

/-- The size of the buffer that the loop hands to `recv_bytes`. -/
def recvBufferSize : Nat := 80 * 1024

/-- The loop stores the content under its hash when `recv_bytes` returns these
segments, whatever else it draws from outside. -/
def StoresFile (m : Bytes) (segments : List Bytes) : Prop :=
  ∀ (Node : Type) [DecidableEq Node] (denote : Bytes → Node) (disk : Disk Node)
    (arrivals : List Arrival),
    arrivals.map Arrival.pkg = segments → (∀ a ∈ arrivals, a.env.Succeeds) →
      (recvFileLoop denote disk arrivals).1.disk (denote (savedAs (hexDigest m))) = some m

structure Segmentation (packets segments : List Bytes) : Prop where
  flatten : segments.flatten = packets.flatten
  ne_nil : ∀ s ∈ segments, s ≠ []
  length_le : ∀ s ∈ segments, s.length ≤ recvBufferSize

theorem storesFile_packets {m : Bytes} (hne : m ≠ []) (hlen : m.length ≤ maxFileSize) :
    StoresFile m (fileTransfer m).packets := by
  intro Node _ denote disk arrivals hpkgs hsucceeds
  obtain ⟨hparts, hcontent⟩ := (fileTransfer_content_iff hne).mpr hlen
  have hsep : Separate denote [fileTransfer m] := by
    refine ⟨by simp, ?_⟩
    simp only [List.mem_singleton]
    rintro t rfl t' rfl -
    rfl
  have hshuffled : Shuffled [fileTransfer m] [] arrivals := by
    refine ⟨?_, by simp, hsucceeds⟩
    rw [hpkgs, List.flatMap_singleton, List.append_nil]
  have hfamily : FamilyReceived denote disk _ arrivals := familyReceived hsep hshuffled
  have hstored := hfamily.stored _ (List.mem_singleton_self _) hparts
  rwa [hcontent] at hstored

theorem infix_of_mem_parts {m part : Bytes} (h : part ∈ (fileTransfer m).parts) : part <:+: m := by
  simp only [fileTransfer] at h
  split at h
  next =>
    rw [payloads] at h
    exact Slices.infix_of_mem_slices h
  next => simp at h

/-- Any segmentation in which the file is written is the one at its packets, if the
content does not spell out its own digest. -/
theorem eq_packets_of_written {m : Bytes} {segments : List Bytes} (hfree : ¬hexDigest m <:+: m)
    (hcut : Segmentation (fileTransfer m).packets segments) {Node : Type} [DecidableEq Node]
    {denote : Bytes → Node} (hown : OwnPath denote (hexDigest m)) {disk : Disk Node}
    {arrivals : List Arrival} (hpkgs : arrivals.map Arrival.pkg = segments)
    (hwritten : (recvFileLoop denote disk arrivals).1.disk (denote (savedAs (hexDigest m))) ≠
      disk (denote (savedAs (hexDigest m)))) : segments = (fileTransfer m).packets := by
  have hfull : ∀ a ∈ arrivals, a.pkg ≠ [] := fun a ha =>
    hcut.ne_nil a.pkg (hpkgs ▸ List.mem_map_of_mem ha)
  rw [recvFileLoop_of_ne_nil hfull] at hwritten
  have hlen : (fileTransfer m).hash.length = 64 := by
    rw [fileTransfer, hexDigest_length]
  have hkeep : ∀ past (r : Receiver Node) (a : Arrival),
      (∃ tail, (past.map Arrival.pkg).flatten ++ (a.pkg ++ tail) =
        (fileTransfer m).packets.flatten) →
      Tracking denote disk (fileTransfer m) past r →
        Tracking denote disk (fileTransfer m) (past ++ [a]) (recvFileStep denote r a).1 := by
    rintro past r a ⟨tail, htail⟩ hr
    exact tracking_step hown hr fun c hdec hhash =>
      Transfer.heldAt_of_accepted hlen (fun b hb => hexDigest_ne hb)
        (fun part hpart hin => hfree (hin.trans (infix_of_mem_parts hpart))) htail hdec hhash
  have htrack := Run.history_invariant (recvFileStep denote) (tracking_start (fileTransfer m)) hkeep
    arrivals (by
      rintro past a ⟨rest, hrest⟩
      refine ⟨(rest.map Arrival.pkg).flatten, ?_⟩
      rw [← hcut.flatten, ← hpkgs, ← hrest]
      simp)
  have hheld := htrack.disk.resolve_left hwritten
  refine eq_of_holds hcut.ne_nil (fun x hx => Transfer.ne_nil_of_mem_packets hx) hcut.flatten ?_
  intro before x after hsplit
  have hbefore : before.length < (fileTransfer m).parts.length := by
    have hcount : (fileTransfer m).packets.length = (fileTransfer m).parts.length := by
      simp [Transfer.packets, chunked]
    rw [← hcount, hsplit]
    simp
  obtain ⟨before', x', after', hsplit', hlength, hholds⟩ := hheld before.length hbefore
  rw [hpkgs] at hholds
  obtain ⟨rfl, hrest⟩ := List.append_inj (hsplit'.symm.trans hsplit) hlength
  obtain ⟨rfl, -⟩ := List.cons.inj hrest
  exact hholds

theorem eq_packets_of_storesFile {m : Bytes} {segments : List Bytes}
    (hfree : ¬hexDigest m <:+: m) (hcut : Segmentation (fileTransfer m).packets segments)
    (h : StoresFile m segments) : segments = (fileTransfer m).packets := by
  have hown : OwnPath (id : Bytes → Bytes) (hexDigest m) := fun _ heq => savedAs_injective heq
  let empty : Disk Bytes := fun _ => none
  have hstored := h Bytes id empty _ (plainArrivals_pkg segments) (plainArrivals_succeeds segments)
  have hwritten : (recvFileLoop id empty (plainArrivals segments)).1.disk
      (id (savedAs (hexDigest m))) ≠ empty (id (savedAs (hexDigest m))) := by
    rw [hstored]
    exact Option.some_ne_none m
  exact eq_packets_of_written hfree hcut hown (plainArrivals_pkg segments) hwritten

/-- The loop leaves what is stored under the hash of the content as it was, whatever the
file system does, as long as no other hash is stored in the same file. -/
def LeavesFile (m : Bytes) (segments : List Bytes) : Prop :=
  ∀ (Node : Type) [DecidableEq Node] (denote : Bytes → Node) (disk : Disk Node)
    (arrivals : List Arrival),
    arrivals.map Arrival.pkg = segments → OwnPath denote (hexDigest m) →
      (recvFileLoop denote disk arrivals).1.disk (denote (savedAs (hexDigest m))) =
        disk (denote (savedAs (hexDigest m)))

/-- A file whose chunks can be counted arrives if the stream is cut at its packets. A
content without its own digest arrives only then, and is not even written otherwise. -/
theorem storesFile_iff (m : Bytes) (hne : m ≠ []) (hlen : m.length ≤ maxFileSize)
    (packets : List Bytes)
    (hsend : sendFile (FileView.ofContent m) wholeSends = .ok (true, packets))
    (segments : List Bytes) (hcut : Segmentation packets segments) :
    (segments = packets → StoresFile m segments) ∧
      (¬hexDigest m <:+: m →
        (StoresFile m segments → segments = packets) ∧
          (segments ≠ packets → LeavesFile m segments)) := by
  obtain rfl := sendFile_wholeSends hsend
  refine ⟨?_, fun hfree => ⟨eq_packets_of_storesFile hfree hcut, ?_⟩⟩
  · rintro rfl
    exact storesFile_packets hne hlen
  · intro hother Node _ denote disk arrivals hpkgs hown
    by_contra hwritten
    exact hother (eq_packets_of_written hfree hcut hown hpkgs hwritten)

theorem storesFile_one_byte : StoresFile [1] (fileTransfer [1]).packets :=
  (storesFile_iff [1] (by decide) (by decide) _ (sendFile_of_le (by decide) (by decide)) _
    ⟨rfl, fun _ hx => Transfer.ne_nil_of_mem_packets hx, by
      rw [show (fileTransfer [1]).packets =
        [(chunkAt (hexDigest [1]) [[1]] 0 [1]).serialize] from rfl]
      simp [FileChunk.serialize_length, chunkAt, hexDigest_length, recvBufferSize]⟩).1 rfl

/-- A packet whose first byte arrives alone is lost. -/
theorem not_storesFile_split :
    ¬∀ m : Bytes, m ≠ [] → ∀ packets,
      sendFile (FileView.ofContent m) wholeSends = .ok (true, packets) →
        ∀ segments, Segmentation packets segments → StoresFile m segments := by
  intro h
  obtain ⟨x, hpackets, hlen⟩ : ∃ x, (fileTransfer [1]).packets = [x] ∧ x.length = 90 := by
    refine ⟨(chunkAt (hexDigest [1]) [[1]] 0 [1]).serialize, rfl, ?_⟩
    simp [FileChunk.serialize_length, chunkAt, hexDigest_length]
  have hcut : Segmentation (fileTransfer [1]).packets [x.take 1, x.drop 1] := by
    rw [hpackets]
    refine ⟨?_, fun s hs hnil => ?_, fun s hs => ?_⟩
    · simp only [List.flatten_cons, List.flatten_nil, List.append_nil, List.take_append_drop]
    · have hempty := congrArg List.length hnil
      rcases List.mem_pair.mp hs with rfl | rfl <;> simp [hlen] at hempty
    · rcases List.mem_pair.mp hs with rfl | rfl <;> simp [hlen, recvBufferSize]
  have hfree : ¬hexDigest [1] <:+: [1] := by
    intro hin
    have hle := hin.length_le
    rw [hexDigest_length] at hle
    exact absurd hle (by decide)
  have hstored := h [1] (by decide) _ (sendFile_of_le (by decide) (by decide)) _ hcut
  have hsame := eq_packets_of_storesFile hfree hcut hstored
  rw [hpackets] at hsame
  simpa using congrArg List.length hsame

end EggDelivery
