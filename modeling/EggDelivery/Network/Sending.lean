import EggDelivery.Library.Segments
import EggDelivery.Network.TransferLogic

/-!
# What a successful `send_file` has handed over

`send_bytes` takes every positive result of `send` for the whole buffer, and
`send_file` goes on to the next chunk. A transport that once takes a part of a packet
and never fails makes the call report success although bytes of that packet are gone.
-/

namespace EggDelivery

open Segments

/-- Some call of the loop, whose first call has the number `k`, fails. -/
def SomeSendFails (transport : Transport) (k : Nat) (cs : List FileChunk) : Prop :=
  ∃ i c, cs[i]? = some c ∧ transport (k + i) c.serialize.length ≤ 0

def SendsWhole (transport : Transport) (k : Nat) (cs : List FileChunk) : Prop :=
  ∀ i c, cs[i]? = some c → c.serialize.length ≤ transport (k + i) c.serialize.length

section Loop

variable (transport : Transport) (k : Nat) (c : FileChunk) (cs : List FileChunk)

theorem someSendFails_cons_iff :
    SomeSendFails transport k (c :: cs) ↔
      transport k c.serialize.length ≤ 0 ∨ SomeSendFails transport (k + 1) cs := by
  constructor
  · rintro ⟨i, d, hd, hfails⟩
    cases i with
    | zero =>
        cases hd
        exact Or.inl hfails
    | succ i => exact Or.inr ⟨i, d, hd, by rwa [Nat.add_assoc, Nat.add_comm 1 i]⟩
  · rintro (hfails | ⟨i, d, hd, hfails⟩)
    · exact ⟨0, c, rfl, hfails⟩
    · exact ⟨i + 1, d, hd, by rwa [Nat.add_assoc, Nat.add_comm 1 i] at hfails⟩

theorem sendsWhole_cons_iff :
    SendsWhole transport k (c :: cs) ↔
      c.serialize.length ≤ transport k c.serialize.length ∧ SendsWhole transport (k + 1) cs := by
  constructor
  · intro h
    refine ⟨h 0 c rfl, fun i d hd => ?_⟩
    have hnext := h (i + 1) d hd
    rwa [Nat.add_comm i 1, ← Nat.add_assoc] at hnext
  · rintro ⟨hfirst, hrest⟩ i d hd
    cases i with
    | zero =>
        cases hd
        exact hfirst
    | succ i =>
        have hnext := hrest i d hd
        rwa [Nat.add_assoc, Nat.add_comm 1 i] at hnext

/-! ## One call -/

theorem sendBytes_fails {ret : Int} (h : ret ≤ 0) (data : Bytes) :
    sendBytes ret data = (false, []) := by
  rw [sendBytes, if_neg (Int.not_lt.mpr h), ite_self]

/-- Every positive result counts as success. -/
theorem sendBytes_of_pos {ret : Int} (h : 0 < ret) {data : Bytes} (hne : data ≠ []) :
    sendBytes ret data = (true, data.take ret.toNat) := by
  rw [sendBytes, if_neg hne, if_pos h]

theorem take_eq_self_iff_le {data : Bytes} {ret : Int} (h : 0 < ret) :
    data.take ret.toNat = data ↔ data.length ≤ ret := by
  rw [List.take_eq_self_iff]
  omega

/-! ## The loop -/

variable {transport k cs}

theorem sendChunks_fails (h : SomeSendFails transport k cs) :
    (sendChunks transport k cs).1 = false := by
  induction cs generalizing k with
  | nil =>
      obtain ⟨i, c, hc, -⟩ := h
      cases hc
  | cons c cs ih =>
      by_cases hret : transport k c.serialize.length ≤ 0
      · simp only [sendChunks, wrapProtocolV1, sendBytes_fails hret]
      · have hrest := ((someSendFails_cons_iff transport k c cs).mp h).resolve_left hret
        have hsend := sendBytes_of_pos (Int.not_le.mp hret) c.serialize_ne_nil
        simp only [sendChunks, wrapProtocolV1, hsend, ih hrest]

/-- Without a failure the loop reports success, and has handed over a beginning of every
packet. -/
theorem sendChunks_succeeds (h : ¬SomeSendFails transport k cs) :
    ∃ taken, sendChunks transport k cs = (true, taken) ∧
      List.Forall₂ (fun s x => s <+: x) taken (cs.map FileChunk.serialize) ∧
      (taken = cs.map FileChunk.serialize ↔ SendsWhole transport k cs) := by
  induction cs generalizing k with
  | nil =>
      refine ⟨[], rfl, List.Forall₂.nil, iff_of_true rfl fun i c hc => ?_⟩
      cases hc
  | cons c cs ih =>
      rw [someSendFails_cons_iff, not_or] at h
      obtain ⟨hret, hrest⟩ := h
      have hpos : 0 < transport k c.serialize.length := Int.not_le.mp hret
      have hsend := sendBytes_of_pos hpos c.serialize_ne_nil
      obtain ⟨taken, hloop, hprefix, hwhole⟩ := ih hrest
      refine ⟨c.serialize.take (transport k c.serialize.length).toNat :: taken, ?_, ?_, ?_⟩
      · simp only [sendChunks, wrapProtocolV1, hsend, hloop]
      · exact List.Forall₂.cons (List.take_prefix _ _) hprefix
      · rw [List.map_cons, List.cons.injEq, hwhole, take_eq_self_iff_le hpos,
          sendsWhole_cons_iff]

end Loop

theorem sendChunks_wholeSends (k : Nat) (cs : List FileChunk) :
    sendChunks wholeSends k cs = (true, cs.map FileChunk.serialize) := by
  have hsends : ¬SomeSendFails wholeSends k cs := by
    rintro ⟨i, c, hc, hfails⟩
    have hpos : 0 < c.serialize.length := List.length_pos_iff.mpr c.serialize_ne_nil
    rw [wholeSends] at hfails
    omega
  obtain ⟨taken, hloop, -, hwhole⟩ := sendChunks_succeeds hsends
  rw [hloop, hwhole.mpr fun i c hc => Int.le_refl _]

/-! ## Success of the whole call -/

/-- If the loop reports success, the bytes taken are those of the packets in order. -/
def HandsOver (transport : Transport) (cs : List FileChunk) : Prop :=
  ∀ taken, sendChunks transport 0 cs = (true, taken) →
    taken.flatten = (cs.map FileChunk.serialize).flatten

theorem handsOver_iff (transport : Transport) (cs : List FileChunk) :
    HandsOver transport cs ↔ SomeSendFails transport 0 cs ∨ SendsWhole transport 0 cs := by
  by_cases hfails : SomeSendFails transport 0 cs
  · refine iff_of_true (fun taken htaken => ?_) (Or.inl hfails)
    have hfalse := sendChunks_fails hfails
    rw [htaken] at hfalse
    cases hfalse
  · obtain ⟨taken, hloop, hprefix, hwhole⟩ := sendChunks_succeeds hfails
    rw [or_iff_right hfails, ← hwhole]
    constructor
    · exact fun h => eq_of_prefixes hprefix (h taken hloop)
    · intro heq taken' htaken'
      rw [hloop] at htaken'
      cases htaken'
      rw [heq]

/-- The packets of `send_file` are short enough for the `int` that `send` is given. -/
theorem serialize_length_lt {file : FileView} {cs : List FileChunk}
    (h : readAndChunkFile file defaultChunkSize = .ok cs) {c : FileChunk} (hc : c ∈ cs) :
    c.serialize.length < 2 ^ 31 := by
  have hsize : defaultChunkSize.toNat = 65536 := rfl
  obtain ⟨hhash, hdata⟩ := sizes_of_readAndChunkFile h hc
  rw [FileChunk.serialize_length]
  omega

theorem sendFile_of_ok {file : FileView} {cs : List FileChunk}
    (h : readAndChunkFile file defaultChunkSize = .ok cs) (hne : cs ≠ []) (transport : Transport) :
    sendFile file transport = .ok (sendChunks transport 0 cs) := by
  rw [sendFile, h, ok_bind, if_neg hne]
  rfl

/-- For every behaviour of `send`, a reported success means that everything was handed
over exactly if some call fails or every call takes its whole buffer: in the loop over
any chunk list, and in `send_file` with the chunks it reads. -/
theorem success_hands_over_iff (transport : Transport) :
    (∀ cs, HandsOver transport cs ↔
      SomeSendFails transport 0 cs ∨ SendsWhole transport 0 cs) ∧
    (∀ file cs, readAndChunkFile file defaultChunkSize = .ok cs → cs ≠ [] →
      (∀ c ∈ cs, c.serialize.length < 2 ^ 31) ∧
      ((∀ taken, sendFile file transport = .ok (true, taken) →
          taken.flatten = (cs.map FileChunk.serialize).flatten) ↔
        SomeSendFails transport 0 cs ∨ SendsWhole transport 0 cs)) := by
  refine ⟨handsOver_iff transport, fun file cs hread hne => ⟨fun c hc => ?_, ?_⟩⟩
  · exact serialize_length_lt hread hc
  · rw [sendFile_of_ok hread hne, ← handsOver_iff, HandsOver]
    simp only [Except.ok.injEq]

/-- A transport that takes one byte of every buffer gets one of the 90 bytes of the only
packet of the file `[1]`. -/
theorem short_send_reported_as_success :
    ¬∀ (transport : Transport) (cs : List FileChunk), cs ≠ [] →
      (∀ k n, transport k n ≤ n) → HandsOver transport cs := by
  intro h
  let c := chunkAt (Fips180.hexDigest [1]) [[1]] 0 [1]
  have hlength : c.serialize.length = 90 := by
    rw [FileChunk.serialize_length, show c.fileHash = Fips180.hexDigest [1] from rfl,
      Fips180.hexDigest_length]
    rfl
  have hsends := h (fun _ n => min n 1) [c] (by simp) fun _ n => min_le_left (n : Int) 1
  rcases (handsOver_iff _ _).mp hsends with ⟨i, d, -, hfails⟩ | hwhole
  · have hpos : 0 < d.serialize.length := List.length_pos_iff.mpr d.serialize_ne_nil
    have hmin : min (d.serialize.length : Int) 1 ≤ 0 := hfails
    omega
  · have hfirst : (c.serialize.length : Int) ≤ min (c.serialize.length : Int) 1 := hwhole 0 c rfl
    omega

end EggDelivery
