import EggDelivery.Network.StreamSafety
import Mathlib.Logic.Relation

/-!
# One connection

`send_file` at one end, `recv_file_loop` at the other, and the bytes between them. The
two run at their own pace: the sender hands over what `send` takes of a packet, the
receiver gets any beginning of what is in flight that fits its buffer, and either may
stop.
-/

namespace EggDelivery

open Fips180

structure Connection (Node : Type) where
  unsent : List FileChunk
  /-- What `send_file` has returned. -/
  returned : Option Bool
  /-- What the calls of `send` have taken. -/
  handedOver : List Bytes
  inFlight : Bytes
  receiver : Receiver Node
  received : List Arrival
  listening : Bool

namespace Connection

variable {Node : Type}

def start (cs : List FileChunk) (disk : Disk Node) : Connection Node where
  unsent := cs
  returned := if cs = [] then some false else none
  handedOver := []
  inFlight := []
  receiver := startReceiver disk
  received := []
  listening := true

variable [DecidableEq Node] (denote : Bytes → Node)

/-- What may happen next, if `send` gives only results that are possible for the length
it is offered. -/
inductive Step (possible : Int → Nat → Prop) : Connection Node → Connection Node → Prop
  | send {c : Connection Node} {chunk : FileChunk} {rest : List FileChunk} {ret : Int}
      {taken : Bytes} : c.returned = none → c.unsent = chunk :: rest →
      possible ret (wrapProtocolV1 chunk.serialize).length →
      sendBytes ret (wrapProtocolV1 chunk.serialize) = (true, taken) →
      Step possible c { c with
        unsent := rest
        handedOver := c.handedOver ++ [taken]
        inFlight := c.inFlight ++ taken }
  | sendFails {c : Connection Node} {chunk : FileChunk} {rest : List FileChunk} {ret : Int} :
      c.returned = none → c.unsent = chunk :: rest →
      possible ret (wrapProtocolV1 chunk.serialize).length →
      (sendBytes ret (wrapProtocolV1 chunk.serialize)).1 = false →
      Step possible c { c with returned := some false }
  | sent {c : Connection Node} : c.returned = none → c.unsent = [] →
      Step possible c { c with returned := some true }
  | recv {c : Connection Node} {a : Arrival} {rest : Bytes} : c.listening = true →
      c.inFlight = a.pkg ++ rest → a.pkg ≠ [] → a.pkg.length ≤ recvBufferSize →
      Step possible c { c with
        inFlight := rest
        receiver := (recvFileStep denote c.receiver a).1
        received := c.received ++ [a] }
  | hangUp {c : Connection Node} : Step possible c { c with listening := false }

/-- A `send` that takes the whole buffer or fails. -/
def WholeOrFails (ret : Int) (length : Nat) : Prop := ret ≤ 0 ∨ length ≤ ret

abbrev Reachable (possible : Int → Nat → Prop) (cs : List FileChunk) (disk : Disk Node)
    (c : Connection Node) : Prop :=
  Relation.ReflTransGen (Step denote possible) (start cs disk) c

/-! ## The two ends are the two functions -/

/-- The sender is in the middle of its loop: whatever `send` returns from now on, this
is what the loop comes to. -/
def MidLoop (cs : List FileChunk) (c : Connection Node) (transport : Transport) : Prop :=
  ∀ transport' : Transport, (∀ k, k < c.handedOver.length → transport' k = transport k) →
    sendChunks transport' 0 cs =
      ((sendChunks transport' c.handedOver.length c.unsent).1,
        c.handedOver ++ (sendChunks transport' c.handedOver.length c.unsent).2)

structure Conforms (cs : List FileChunk) (disk : Disk Node) (c : Connection Node) : Prop where
  conserved : (c.received.map Arrival.pkg).flatten ++ c.inFlight = c.handedOver.flatten
  receiver : c.receiver = afterTurns denote disk c.received
  pieces : ∀ a ∈ c.received, a.pkg ≠ [] ∧ a.pkg.length ≤ recvBufferSize
  sending : ∃ transport, MidLoop cs c transport
  returned : ∀ b, c.returned = some b → cs ≠ [] →
    ∃ transport, sendChunks transport 0 cs = (b, c.handedOver)

variable {denote} {cs : List FileChunk} {disk : Disk Node} {possible : Int → Nat → Prop}

theorem conforms_start (cs : List FileChunk) (disk : Disk Node) :
    Conforms denote cs disk (start cs disk) where
  conserved := rfl
  receiver := rfl
  pieces a ha := absurd ha List.not_mem_nil
  sending := ⟨wholeSends, fun transport' _ => rfl⟩
  returned b hb hne := by
    rw [start, if_neg hne] at hb
    cases hb

omit [DecidableEq Node] in
theorem exists_next_call {c : Connection Node} {transport : Transport}
    (h : MidLoop cs c transport) (ret : Int) :
    ∃ transport₁ : Transport, ∀ transport' : Transport,
      (∀ k, k < c.handedOver.length + 1 → transport' k = transport₁ k) →
        (∀ length, transport' c.handedOver.length length = ret) ∧
        sendChunks transport' 0 cs =
          ((sendChunks transport' c.handedOver.length c.unsent).1,
            c.handedOver ++ (sendChunks transport' c.handedOver.length c.unsent).2) := by
  refine ⟨Function.update transport c.handedOver.length fun _ => ret,
    fun transport' hagree => ⟨fun length => ?_, h transport' fun k hk => ?_⟩⟩
  · rw [hagree _ (Nat.lt_succ_self _), Function.update_self]
  · rw [hagree k (Nat.lt_succ_of_lt hk), Function.update_of_ne (Nat.ne_of_lt hk)]

theorem Conforms.step {c c' : Connection Node} (h : Conforms denote cs disk c)
    (hstep : Step denote possible c c') : Conforms denote cs disk c' := by
  cases hstep with
  | @send chunk rest ret taken hrunning hunsent _ hsend =>
      obtain ⟨transport, hmid⟩ := h.sending
      obtain ⟨transport₁, hnext⟩ := exists_next_call hmid ret
      refine ⟨?_, h.receiver, h.pieces, ⟨transport₁, fun transport' hagree => ?_⟩, ?_⟩
      · rw [← List.append_assoc, h.conserved, List.flatten_append, List.flatten_singleton]
      · rw [List.length_append, List.length_singleton] at hagree
        obtain ⟨hret, hloop⟩ := hnext transport' hagree
        rw [hunsent] at hloop
        have hcall : sendBytes (transport' c.handedOver.length chunk.serialize.length)
            chunk.serialize = (true, taken) := by
          rw [hret]
          exact hsend
        simp only [sendChunks, wrapProtocolV1, hcall] at hloop
        simp only [hloop, List.length_append, List.length_singleton, List.append_assoc,
          List.singleton_append]
      · intro b hb
        rw [hrunning] at hb
        cases hb
  | @sendFails chunk rest ret hrunning hunsent _ hsend =>
      obtain ⟨transport, hmid⟩ := h.sending
      obtain ⟨transport₁, hnext⟩ := exists_next_call hmid ret
      refine ⟨h.conserved, h.receiver, h.pieces, h.sending, ?_⟩
      rintro b hb -
      cases hb
      obtain ⟨hret, hloop⟩ := hnext transport₁ fun k _ => rfl
      rw [hunsent] at hloop
      have hcall : sendBytes (transport₁ c.handedOver.length chunk.serialize.length)
          chunk.serialize = (false, (sendBytes ret chunk.serialize).2) := by
        rw [hret]
        exact Prod.ext hsend rfl
      simp only [sendChunks, wrapProtocolV1, hcall, List.append_nil] at hloop
      exact ⟨transport₁, hloop⟩
  | sent hrunning hunsent =>
      refine ⟨h.conserved, h.receiver, h.pieces, h.sending, ?_⟩
      rintro b hb -
      cases hb
      obtain ⟨transport, hmid⟩ := h.sending
      have hloop := hmid transport fun k _ => rfl
      simp only [hunsent, sendChunks, List.append_nil] at hloop
      exact ⟨transport, hloop⟩
  | @recv a rest _ hflight hne hlen =>
      refine ⟨?_, ?_, fun b hb => ?_, h.sending, h.returned⟩
      · rw [← h.conserved, hflight, List.map_append, List.flatten_append, List.map_singleton,
          List.flatten_singleton, List.append_assoc]
      · rw [h.receiver, afterTurns_concat]
      · rcases List.mem_append.mp hb with hb | hb
        · exact h.pieces b hb
        · rw [List.mem_singleton.mp hb]
          exact ⟨hne, hlen⟩
  | hangUp => exact ⟨h.conserved, h.receiver, h.pieces, h.sending, h.returned⟩

theorem Reachable.conforms {c : Connection Node} (h : Reachable denote possible cs disk c) :
    Conforms denote cs disk c := by
  induction h with
  | refl => exact conforms_start cs disk
  | tail _ hstep ih => exact ih.step hstep

/-! ## A sender that hands over whole packets -/

/-- Everything before the unsent chunks has been handed over. -/
structure HandsOverWhole (cs : List FileChunk) (c : Connection Node) : Prop where
  done : ∃ done, cs = done ++ c.unsent ∧ c.handedOver = done.map FileChunk.serialize
  failed : c.returned = some false → cs ≠ [] → c.unsent ≠ []
  finished : c.returned = some true → c.unsent = []

theorem eq_of_sendBytes {ret : Int} {pkg taken : Bytes} (h : WholeOrFails ret pkg.length)
    (hsend : sendBytes ret pkg = (true, taken)) : taken = pkg := by
  unfold sendBytes at hsend
  split at hsend
  next => cases hsend
  next =>
    split at hsend
    next hpos =>
      have hle : (pkg.length : Int) ≤ ret := h.resolve_left (Int.not_le.mpr hpos)
      cases hsend
      exact (take_eq_self_iff_le hpos).mpr hle
    next => cases hsend

theorem HandsOverWhole.step {c c' : Connection Node} (h : HandsOverWhole cs c)
    (hstep : Step denote WholeOrFails c c') : HandsOverWhole cs c' := by
  cases hstep with
  | @send chunk rest ret taken hrunning hunsent hwhole hsend =>
      obtain ⟨done, hcs, hover⟩ := h.done
      have htaken : taken = chunk.serialize := eq_of_sendBytes hwhole hsend
      refine ⟨⟨done ++ [chunk], by rw [hcs, hunsent]; simp, ?_⟩, fun hfalse => ?_, fun htrue => ?_⟩
      · rw [hover, htaken, List.map_append, List.map_singleton]
      · rw [hrunning] at hfalse
        cases hfalse
      · rw [hrunning] at htrue
        cases htrue
  | @sendFails chunk rest ret _ hunsent _ _ =>
      refine ⟨h.done, fun _ _ => ?_, fun htrue => ?_⟩
      · rw [hunsent]
        exact List.cons_ne_nil chunk rest
      · cases htrue
  | sent _ hunsent =>
      refine ⟨h.done, fun hfalse => ?_, fun _ => hunsent⟩
      cases hfalse
  | recv _ _ _ _ => exact ⟨h.done, h.failed, h.finished⟩
  | hangUp => exact ⟨h.done, h.failed, h.finished⟩

theorem Reachable.handsOverWhole {c : Connection Node}
    (h : Reachable denote WholeOrFails cs disk c) : HandsOverWhole cs c := by
  induction h with
  | refl =>
      refine ⟨⟨[], rfl, rfl⟩, fun hfalse hne => ?_, fun htrue => ?_⟩
      · rw [start, if_neg hne] at hfalse
        cases hfalse
      · rw [start] at htrue
        split at htrue
        next => cases htrue
        next => cases htrue
  | tail _ hstep ih => exact ih.step hstep

theorem Reachable.received_prefix {c : Connection Node}
    (h : Reachable denote WholeOrFails cs disk c) :
    (c.received.map Arrival.pkg).flatten ++ c.inFlight ++
      (c.unsent.map FileChunk.serialize).flatten = (cs.map FileChunk.serialize).flatten := by
  obtain ⟨done, hcs, hover⟩ := h.handsOverWhole.done
  rw [h.conforms.conserved, hover, hcs, List.map_append, List.flatten_append]

/-! ## Safety -/

/-- What the receiver of a file may have stored under its hash. -/
structure Safe (denote : Bytes → Node) (disk : Disk Node) (m : Bytes) (c : Connection Node) :
    Prop where
  content : ∀ w ∈ writes denote disk c.received, w.1 = savedAs (hexDigest m) →
    ∃ a ∈ c.received, w.2 = a.env.store m
  once : (writes denote disk c.received).countP (fun w => w.1 = savedAs (hexDigest m)) ≤ 1
  /-- Nothing is stored before the sender has handed over everything. -/
  sender : (∃ w ∈ writes denote disk c.received, w.1 = savedAs (hexDigest m)) →
    c.unsent = [] ∧ c.inFlight = [] ∧ c.returned ≠ some false
  /-- Where distinct paths are distinct files, the file is as it was or it is there. -/
  file : Function.Injective denote →
    c.receiver.disk (denote (savedAs (hexDigest m))) = disk (denote (savedAs (hexDigest m))) ∨
      ∃ a ∈ c.received, c.receiver.disk (denote (savedAs (hexDigest m))) = some (a.env.store m)

def Stored (denote : Bytes → Node) (disk : Disk Node) (m : Bytes) (c : Connection Node) : Prop :=
  ∃ w ∈ writes denote disk c.received, w.1 = savedAs (hexDigest m)

section File

variable {m : Bytes} {c : Connection Node}
  (h : Reachable denote WholeOrFails (chunked (hexDigest m) (fileTransfer m).parts) disk c)
include h

theorem Reachable.fromStream : FromStream m c.received := by
  have hall := h.received_prefix
  rw [FromStream, Transfer.packets]
  exact ⟨_, (List.append_assoc _ _ _).symm.trans hall⟩

theorem Reachable.stored_iff (hfree : ¬hexDigest m <:+: m) :
    Stored denote disk m c ↔ Delivers (fileTransfer m) c.received :=
  (h.fromStream.onlyFrom hfree).exists_write_iff denote disk

/-- What has been stored leaves nothing behind the received bytes. -/
theorem Reachable.sender_of_stored (hfree : ¬hexDigest m <:+: m)
    (hstored : Stored denote disk m c) :
    c.unsent = [] ∧ c.inFlight = [] ∧ c.returned ≠ some false := by
  have hstream := h.fromStream
  have hdel := (h.stored_iff hfree).mp hstored
  have hwhole : _ = ((chunked (hexDigest m) (fileTransfer m).parts).map
    FileChunk.serialize).flatten := hstream.flatten_of_delivers hfree hdel
  rw [← h.received_prefix, List.append_assoc, List.self_eq_append_right,
    List.append_eq_nil_iff] at hwhole
  obtain ⟨hflight, hpackets⟩ := hwhole
  have hunsent : c.unsent = [] := by
    refine List.map_eq_nil_iff.mp (Segments.eq_nil_of_flatten_eq_nil (fun x hx => ?_) hpackets)
    obtain ⟨chunk, -, rfl⟩ := List.mem_map.mp hx
    exact chunk.serialize_ne_nil
  refine ⟨hunsent, hflight, fun hfalse => h.handsOverWhole.failed hfalse ?_ hunsent⟩
  obtain ⟨before, a, after, hsplit, haddr, -⟩ := hdel
  obtain ⟨chunk, hchunk⟩ := addressee_eq_some_iff.mp haddr
  exact List.ne_nil_of_mem (hstream.onlyFrom hfree a (by simp [hsplit]) chunk hchunk)

end File

/-- In every state of a connection over which a file is sent by whole packets, however the
bytes are cut and whatever the file system does. -/
theorem reachable_safe {m : Bytes} (hfree : ¬hexDigest m <:+: m) (hlen : m.length ≤ maxFileSize)
    (hread : readAndChunkFile (FileView.ofContent m) defaultChunkSize = .ok cs)
    {c : Connection Node} (h : Reachable denote WholeOrFails cs disk c) :
    Safe denote disk m c := by
  obtain rfl := readAndChunkFile_default hread
  have hstream := h.fromStream
  have honce := hstream.storedOnce hfree denote disk
  refine ⟨fun w hw hpath => ?_, honce.once, h.sender_of_stored hfree, fun hinj => ?_⟩
  · rw [← content_fileTransfer hlen]
    exact honce.content w hw hpath
  · have hown : OwnFile denote (fileTransfer m) c.received := fun a _ hash _ heq =>
      savedAs_injective (hinj heq)
    have hfile := (hstream.onlyFrom hfree).file denote disk hown
    rw [h.conforms.receiver]
    by_cases hdel : Delivers (fileTransfer m) c.received
    · obtain ⟨a, ha, hdisk⟩ := hfile.1 hdel
      rw [content_fileTransfer hlen] at hdisk
      exact Or.inr ⟨a, ha, hdisk⟩
    · exact Or.inl (hfile.2 hdel)

/-- A file of one byte that has arrived while `send_file` has not returned. -/
theorem reachable_safe_one_byte :
    ∃ c : Connection Bytes, c.received ≠ [] ∧ c.returned = none ∧
      Safe id (fun _ => none) [1] c := by
  have hread := readAndChunkFile_of_le (m := [1]) (by decide)
  have hfree : ¬hexDigest [1] <:+: [1] := by
    intro hin
    have hle := hin.length_le
    rw [hexDigest_length] at hle
    exact absurd hle (by decide)
  obtain ⟨chunk, hchunks, hlen⟩ : ∃ chunk : FileChunk,
      chunked (hexDigest [1]) (fileTransfer [1]).parts = [chunk] ∧ chunk.serialize.length = 90 := by
    refine ⟨chunkAt (hexDigest [1]) [[1]] 0 [1], rfl, ?_⟩
    simp [FileChunk.serialize_length, chunkAt, hexDigest_length]
  rw [hchunks] at hread
  have hfits : WholeOrFails 90 (wrapProtocolV1 chunk.serialize).length :=
    Or.inr (by rw [wrapProtocolV1, hlen]; rfl)
  have hsend : Step id WholeOrFails (start [chunk] fun _ => none) _ :=
    .send rfl rfl hfits (sendBytes_of_pos (by decide) chunk.serialize_ne_nil)
  have hrecv : Step id WholeOrFails
      { start [chunk] fun _ : Bytes => none with
        unsent := []
        handedOver := [chunk.serialize.take 90]
        inFlight := chunk.serialize.take 90 } _ :=
    @Step.recv _ _ _ _ _ ⟨chunk.serialize.take 90, 0, 0, {}⟩ [] rfl (List.append_nil _).symm
      (by simp [chunk.serialize_ne_nil]) (by simp [hlen, recvBufferSize])
  refine ⟨_, List.cons_ne_nil _ _, rfl, reachable_safe hfree (by decide) hread
    ((Relation.ReflTransGen.single hsend).tail hrecv)⟩

end Connection

end EggDelivery
