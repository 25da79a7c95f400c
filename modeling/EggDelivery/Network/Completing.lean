import EggDelivery.Network.Connection

/-!
# What a connection can still achieve

While every result of `recv` has been a packet, a transfer can be completed. After the
first one that is not, nothing that `send`, `recv` or the file system may do completes
it: what a cut has taken from a packet never comes back.
-/

namespace EggDelivery

open Fips180

/-! ## Deliveries from a stream -/

section Stream

variable {m : Bytes}

theorem length_packets (t : Transfer) : t.packets.length = t.parts.length := by
  rw [Transfer.packets, List.length_map, chunked_length]

theorem FromStream.packets_of_delivers (hfree : ¬hexDigest m <:+: m) {arrivals : List Arrival}
    (h : FromStream m arrivals) (hne : ∀ a ∈ arrivals, a.pkg ≠ [])
    (hdel : Delivers (fileTransfer m) arrivals) :
    arrivals.map Arrival.pkg = (fileTransfer m).packets := by
  have hflat := h.flatten_of_delivers hfree hdel
  have hpieces : ∀ s ∈ arrivals.map Arrival.pkg, s ≠ [] := by
    intro s hs
    obtain ⟨a, ha, rfl⟩ := List.mem_map.mp hs
    exact hne a ha
  refine Segments.eq_of_holds hpieces (fun x hx => Transfer.ne_nil_of_mem_packets hx) hflat ?_
  intro before x after hsplit
  have hi : before.length < (fileTransfer m).parts.length := by
    rw [← length_packets, hsplit]
    simp
  have hpart := List.getElem?_eq_getElem hi
  have hx : x = (chunkAt (fileTransfer m).hash (fileTransfer m).parts before.length
      (fileTransfer m).parts[before.length]).serialize := by
    have hget : (fileTransfer m).packets[before.length]? = some x := by
      rw [hsplit, List.getElem?_append_right (Nat.le_refl _), Nat.sub_self]
      rfl
    rw [Transfer.packets, List.getElem?_map, chunked, List.getElem?_mapIdx, hpart] at hget
    exact (Option.some.inj hget).symm
  obtain ⟨past, a, rest, rfl, -, -, -, hall⟩ := hdel
  obtain ⟨b, hb, hacc⟩ := hall _ (mem_chunked.mpr ⟨_, _, hpart, rfl⟩)
  have hb' : b ∈ past ++ a :: rest := by
    rw [← List.singleton_append, ← List.append_assoc]
    exact List.mem_append_left _ hb
  obtain ⟨front, back, hsplit'⟩ := List.append_of_mem hb'
  rw [hsplit'] at h ⊢
  obtain ⟨j, part, hj, heq, hfront⟩ := h.begins hfree (chunkFor_eq_some_iff.mpr ⟨hacc, rfl⟩)
  obtain rfl := (Transfer.packet_injective hpart hj (congrArg FileChunk.serialize heq)).2
  obtain ⟨-, -, -, extra, hpkg⟩ := FileChunk.of_deserialize_true (by decide)
    (acceptedChunk_eq_some_iff.mp hacc)
  refine ⟨front.map Arrival.pkg, b.pkg, back.map Arrival.pkg, by simp, ?_, extra, ?_⟩
  · rw [hfront, hsplit, List.take_left]
  · rw [hpkg, hx]

theorem delivers_of_packets_concat {t : Transfer} {past : List Arrival} {a : Arrival}
    (h : (past ++ [a]).map Arrival.pkg = t.packets) (hdirs : a.env.createDirectories = true)
    (hopen : a.env.isOpen = true) : Delivers t (past ++ [a]) := by
  refine ⟨past, a, [], rfl, ?_, hdirs, hopen, fun chunk hchunk => ?_⟩
  · have ha : a.pkg ∈ t.packets := by
      rw [← h]
      simp
    obtain ⟨i, part, hi, heq⟩ := Transfer.mem_packets.mp ha
    rw [addressee, acceptedChunk_packet hi heq]
    rfl
  · obtain ⟨i, part, hi, rfl⟩ := mem_chunked.mp hchunk
    have hmem : (chunkAt t.hash t.parts i part).serialize ∈ (past ++ [a]).map Arrival.pkg := by
      rw [h]
      exact Transfer.mem_packets.mpr ⟨i, part, hi, rfl⟩
    obtain ⟨b, hb, heq⟩ := List.mem_map.mp hmem
    exact ⟨b, hb, acceptedChunk_packet hi heq⟩

theorem length_le_of_mem_packets {pkg : Bytes} (h : pkg ∈ (fileTransfer m).packets) :
    pkg.length ≤ recvBufferSize := by
  have hsize : defaultChunkSize.toNat = 65536 := rfl
  obtain ⟨i, part, hi, rfl⟩ := Transfer.mem_packets.mp h
  have hpart : part.length ≤ defaultChunkSize.toNat := by
    have hmem := List.mem_of_getElem? hi
    rw [fileTransfer] at hmem
    dsimp only at hmem
    split at hmem
    next => exact length_le_of_mem_payloads hmem
    next => cases hmem
  have hhash : (fileTransfer m).hash.length = 64 := hexDigest_length m
  rw [FileChunk.serialize_length, recvBufferSize]
  simp only [chunkAt, hhash]
  omega

end Stream

namespace Connection

variable {Node : Type} [DecidableEq Node] {denote : Bytes → Node} {disk : Disk Node}
  {cs : List FileChunk} {possible : Int → Nat → Prop}

abbrev Later (denote : Bytes → Node) (possible : Int → Nat → Prop) :
    Connection Node → Connection Node → Prop :=
  Relation.ReflTransGen (Step denote possible)

/-! ## What steps cannot undo -/

/-- What was received stays received, and an end that has stopped does nothing more. -/
structure Follows (c c' : Connection Node) : Prop where
  received : c.received <+: c'.received
  stopped : c.listening = false → c'.listening = false ∧ c'.received = c.received
  failed : c.returned = some false → c'.returned = some false

omit [DecidableEq Node] in
theorem Follows.refl (c : Connection Node) : Follows c c :=
  ⟨List.prefix_rfl, fun h => ⟨h, rfl⟩, id⟩

theorem Follows.step {c c' c'' : Connection Node} (h : Follows c c')
    (hstep : Step denote possible c' c'') : Follows c c'' := by
  cases hstep with
  | send hrunning _ _ _ =>
      refine ⟨h.received, h.stopped, fun hfalse => ?_⟩
      rw [h.failed hfalse] at hrunning
      cases hrunning
  | sendFails _ _ _ _ => exact ⟨h.received, h.stopped, fun _ => rfl⟩
  | sent hrunning _ =>
      refine ⟨h.received, h.stopped, fun hfalse => ?_⟩
      rw [h.failed hfalse] at hrunning
      cases hrunning
  | recv hlistening _ _ _ =>
      refine ⟨h.received.trans (List.prefix_append _ _), fun hstop => ?_, h.failed⟩
      rw [(h.stopped hstop).1] at hlistening
      cases hlistening
  | hangUp => exact ⟨h.received, fun hstop => ⟨rfl, (h.stopped hstop).2⟩, h.failed⟩

theorem Later.follows {c c' : Connection Node} (h : Later denote possible c c') :
    Follows c c' := by
  induction h with
  | refl => exact Follows.refl c
  | tail _ hstep ih => exact ih.step hstep

/-! ## What steps can do -/

theorem exists_later_sent {c : Connection Node} (hrunning : c.returned = none) :
    ∃ c', Later denote WholeOrFails c c' ∧ c'.unsent = [] ∧
      c'.inFlight = c.inFlight ++ (c.unsent.map FileChunk.serialize).flatten ∧
      c'.received = c.received ∧ c'.listening = c.listening := by
  induction hunsent : c.unsent generalizing c with
  | nil => exact ⟨c, .refl, hunsent, by simp, rfl, rfl⟩
  | cons chunk rest ih =>
      have hsend : sendBytes (wrapProtocolV1 chunk.serialize).length (wrapProtocolV1 chunk.serialize) =
          (true, chunk.serialize) := by
        have hpos : 0 < chunk.serialize.length := List.length_pos_iff.mpr chunk.serialize_ne_nil
        have hpos' : (0 : Int) < (wrapProtocolV1 chunk.serialize).length := by
          rw [wrapProtocolV1]
          omega
        rw [sendBytes_of_pos hpos' (show wrapProtocolV1 chunk.serialize ≠ [] from
          chunk.serialize_ne_nil), wrapProtocolV1, Int.toNat_natCast, List.take_length]
      have hstep : Step denote WholeOrFails c { c with
          unsent := rest
          handedOver := c.handedOver ++ [chunk.serialize]
          inFlight := c.inFlight ++ chunk.serialize } :=
        .send hrunning hunsent (Or.inr (Int.le_refl _)) hsend
      obtain ⟨c', hlater, hdone, hflight, hreceived, hlistening⟩ := ih (c := { c with
        unsent := rest
        handedOver := c.handedOver ++ [chunk.serialize]
        inFlight := c.inFlight ++ chunk.serialize }) hrunning rfl
      refine ⟨c', .head hstep hlater, hdone, ?_, hreceived, hlistening⟩
      rw [hflight, List.map_cons, List.flatten_cons, List.append_assoc]

theorem exists_later_received {c : Connection Node} (hlistening : c.listening = true)
    (arrivals : List Arrival) (hflight : c.inFlight = (arrivals.map Arrival.pkg).flatten)
    (hfit : ∀ a ∈ arrivals, a.pkg ≠ [] ∧ a.pkg.length ≤ recvBufferSize) :
    ∃ c', Later denote possible c c' ∧ c'.received = c.received ++ arrivals := by
  induction arrivals generalizing c with
  | nil => exact ⟨c, .refl, (List.append_nil _).symm⟩
  | cons a rest ih =>
      obtain ⟨⟨hne, hle⟩, hfit'⟩ := List.forall_mem_cons.mp hfit
      have hstep : Step denote possible c { c with
          inFlight := (rest.map Arrival.pkg).flatten
          receiver := (recvFileStep denote c.receiver a).1
          received := c.received ++ [a] } := .recv hlistening hflight hne hle
      obtain ⟨c', hlater, hreceived⟩ := ih (c := { c with
        inFlight := (rest.map Arrival.pkg).flatten
        receiver := (recvFileStep denote c.receiver a).1
        received := c.received ++ [a] }) hlistening rfl hfit'
      refine ⟨c', .head hstep hlater, ?_⟩
      rw [hreceived, List.append_assoc, List.singleton_append]

/-! ## Completing a transfer -/

/-- Every piece so far was a packet, there are packets to come, and both ends are at work. -/
structure OnTrack (m : Bytes) (c : Connection Node) : Prop where
  whole : c.received.map Arrival.pkg <+: (fileTransfer m).packets
  more : c.received.length < (fileTransfer m).packets.length
  listening : c.listening = true
  sending : c.returned ≠ some false

section File

variable {m : Bytes} (hfree : ¬hexDigest m <:+: m) {c : Connection Node}
  (h : Reachable denote WholeOrFails (chunked (hexDigest m) (fileTransfer m).parts) disk c)
include hfree h

/-- What is received on a connection that stores the file are its packets. -/
theorem Reachable.packets_of_stored (hstored : Stored denote disk m c) :
    c.received.map Arrival.pkg = (fileTransfer m).packets :=
  h.fromStream.packets_of_delivers hfree (fun a ha => (h.conforms.pieces a ha).1)
    ((h.stored_iff hfree).mp hstored)

/-- The sender hands over the rest, and the loop gets it packet by packet. -/
theorem Reachable.exists_stored (htrack : OnTrack m c) :
    ∃ c', Later denote WholeOrFails c c' ∧ Stored denote disk m c' := by
  obtain ⟨c₁, hsent, hdone, hreceived, hlistening⟩ : ∃ c', Later denote WholeOrFails c c' ∧
      c'.unsent = [] ∧ c'.received = c.received ∧ c'.listening = c.listening := by
    cases hreturned : c.returned with
    | none =>
        obtain ⟨c', hlater, hdone, -, hreceived, hlistening⟩ := exists_later_sent hreturned
        exact ⟨c', hlater, hdone, hreceived, hlistening⟩
    | some b =>
        cases b with
        | false => exact (htrack.sending hreturned).elim
        | true => exact ⟨c, .refl, h.handsOverWhole.finished hreturned, rfl, rfl⟩
  have h₁ : Reachable denote WholeOrFails _ disk c₁ := h.trans hsent
  obtain ⟨rest, hrest⟩ := htrack.whole
  have hflight : c₁.inFlight = ((plainArrivals rest).map Arrival.pkg).flatten := by
    have hall : _ = (fileTransfer m).packets.flatten := h₁.received_prefix
    rw [hdone, List.map_nil, List.flatten_nil, List.append_nil, hreceived, ← hrest,
      List.flatten_append] at hall
    rw [plainArrivals_pkg]
    exact List.append_cancel_left hall
  have hfit : ∀ a ∈ plainArrivals rest, a.pkg ≠ [] ∧ a.pkg.length ≤ recvBufferSize := by
    intro a ha
    have hpkg : a.pkg ∈ (fileTransfer m).packets := by
      rw [← hrest, ← plainArrivals_pkg rest]
      exact List.mem_append_right _ (List.mem_map_of_mem ha)
    exact ⟨Transfer.ne_nil_of_mem_packets hpkg, length_le_of_mem_packets hpkg⟩
  obtain ⟨c₂, hlater, hreceived₂⟩ := exists_later_received (hlistening.trans htrack.listening)
    (plainArrivals rest) hflight hfit
  have h₂ : Reachable denote WholeOrFails _ disk c₂ := h₁.trans hlater
  refine ⟨c₂, hsent.trans hlater, (h₂.stored_iff hfree).mpr ?_⟩
  cases rest using List.reverseRecOn with
  | nil =>
      have hmore := htrack.more
      rw [← hrest, List.append_nil, List.length_map] at hmore
      exact (Nat.lt_irrefl _ hmore).elim
  | append_singleton rest pkg =>
      have hsplit : c₂.received = (c.received ++ plainArrivals rest) ++ [⟨pkg, 0, 0, {}⟩] := by
        rw [hreceived₂, hreceived, plainArrivals, List.map_append, List.append_assoc]
        rfl
      have hpackets : c₂.received.map Arrival.pkg = (fileTransfer m).packets := by
        rw [hreceived₂, hreceived, List.map_append, plainArrivals_pkg, hrest]
      rw [hsplit] at hpackets ⊢
      exact delivers_of_packets_concat hpackets rfl rfl

end File

/-- From a state of a connection over which a file is sent by whole packets, it can still
come to be stored exactly if it has been, or if the connection is on track. -/
theorem can_store_iff {m : Bytes} (hfree : ¬hexDigest m <:+: m)
    (hread : readAndChunkFile (FileView.ofContent m) defaultChunkSize = .ok cs)
    {c : Connection Node} (h : Reachable denote WholeOrFails cs disk c) :
    (∃ c', Later denote WholeOrFails c c' ∧ Stored denote disk m c') ↔
      Stored denote disk m c ∨ OnTrack m c := by
  obtain rfl := readAndChunkFile_default hread
  constructor
  · rintro ⟨c', hlater, hstored⟩
    by_cases hnow : Stored denote disk m c
    · exact Or.inl hnow
    · right
      have h' : Reachable denote WholeOrFails _ disk c' := h.trans hlater
      have hpackets := h'.packets_of_stored hfree hstored
      have hreturned := (h'.sender_of_stored hfree hstored).2.2
      have hfollows := hlater.follows
      have hmoves : c'.received ≠ c.received := by
        intro heq
        rw [Stored, heq] at hstored
        exact hnow hstored
      refine ⟨?_, ?_, ?_, fun hfalse => hreturned (hfollows.failed hfalse)⟩
      · rw [← hpackets]
        exact hfollows.received.map Arrival.pkg
      · rw [← hpackets, List.length_map]
        exact lt_of_le_of_ne hfollows.received.length_le fun hlen =>
          hmoves (hfollows.received.eq_of_length hlen).symm
      · cases hlistening : c.listening with
        | true => rfl
        | false => exact (hmoves (hfollows.stopped hlistening).2).elim
  · rintro (hnow | htrack)
    · exact ⟨c, .refl, hnow⟩
    · exact h.exists_stored hfree htrack

/-- A file of one byte that has not been sent yet. -/
theorem can_store_iff_one_byte :
    ∃ c' : Connection Bytes,
      Later id WholeOrFails (start (chunked (hexDigest [1]) (fileTransfer [1]).parts) fun _ => none) c' ∧
        Stored id (fun _ => none) [1] c' := by
  have hread := readAndChunkFile_of_le (m := [1]) (by decide)
  have hfree : ¬hexDigest [1] <:+: [1] := by
    intro hin
    have hle := hin.length_le
    rw [hexDigest_length] at hle
    exact absurd hle (by decide)
  have hchunks : chunked (hexDigest [1]) (fileTransfer [1]).parts ≠ [] := List.cons_ne_nil _ _
  refine (can_store_iff hfree hread .refl).mpr (Or.inr ⟨List.nil_prefix, ?_, rfl, ?_⟩)
  · exact Nat.succ_pos _
  · rw [start, if_neg hchunks]
    exact (Option.some_ne_none false).symm

end Connection

end EggDelivery
