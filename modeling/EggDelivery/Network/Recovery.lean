import EggDelivery.Library.Vacancies
import EggDelivery.Network.AtLeastOnce

/-!
# Getting a hash free again

A transfer that breaks off, or a packet that anybody has sent under its hash, leaves a
session behind. No history makes a hash useless: packets for the missing chunks end the
session, one for each, and no fewer do. After them the transfer is stored in any order
of its packets.
-/

namespace EggDelivery

open Collector (toGo vacant filler)

/-! ## What is left of a session -/

theorem FileTransferSession.Held.getMissingChunks_length {s : FileTransferSession} (h : s.Held) :
    s.getMissingChunks.length = vacant s.tray := by
  rw [getMissingChunks, List.length_map, ← List.countP_eq_length_filter, vacant, tray,
    List.countP_map]
  refine List.countP_congr fun i hi => ?_
  have hlt : i < s.totalChunks.toNat := List.mem_range.mp hi
  rw [h.receivedFlags_eq, tray, List.map_map, List.getElem?_map, List.getElem?_range hlt]
  cases hcell : s.chunks[UInt32.ofNat i]? <;> simp [hcell]

variable {Node : Type}

/-- How many packets it takes to end the session of a hash. -/
def leftOver (r : Receiver Node) (hash : Bytes) : Nat :=
  match r.fm.find hash with
  | none => 0
  | some s => max 1 s.getMissingChunks.length

theorem leftOver_eq (r : Receiver Node) (hash : Bytes) : leftOver r hash = toGo (r.tray hash) := by
  rw [leftOver, Receiver.tray]
  cases hs : r.fm.find hash with
  | none => rfl
  | some s =>
      dsimp only
      rw [(r.fm.held hash s hs).getMissingChunks_length]
      rfl

theorem tray_eq_none_iff {r : Receiver Node} {hash : Bytes} :
    r.tray hash = none ↔ r.fm.find hash = none := Option.map_eq_none_iff

variable [DecidableEq Node] (denote : Bytes → Node) (disk : Disk Node)

theorem tray_afterTurns_append (hash : Bytes) (past more : List Arrival) :
    (afterTurns denote disk (past ++ more)).tray hash =
      Run.final Collector.step ((afterTurns denote disk past).tray hash)
        (more.filterMap (deliveryFor hash)) := by
  induction more using List.reverseRecOn with
  | nil =>
      rw [List.append_nil]
      rfl
  | append_singleton more a ih =>
      have hlast : [a].filterMap (deliveryFor hash) = (deliveryFor hash a).toList := by
        rw [List.filterMap_cons]
        cases deliveryFor hash a <;> rfl
      rw [← List.append_assoc, tray_afterTurns_concat, ih, List.filterMap_append,
        Run.final_append, hlast]

/-! ## Ending a session -/

def fillerPacket (hash : Bytes) (i : Nat) : Bytes :=
  FileChunk.serialize { chunkId := UInt32.ofNat i, fileHash := hash }

theorem acceptedChunk_fillerPacket {hash : Bytes} (hlen : hash.length < 2 ^ 32) (i : Nat) :
    acceptedChunk { pkg := fillerPacket hash i } =
      some { chunkId := UInt32.ofNat i, fileHash := hash } := by
  have hdec := FileChunk.deserialize_serialize_append (by decide : 34 ≤ 64) {}
    (c := { chunkId := UInt32.ofNat i, fileHash := hash }) hlen (Nat.two_pow_pos 32) []
  rw [List.append_nil] at hdec
  exact acceptedChunk_eq_some_iff.mpr hdec

theorem deliveryFor_fillerPacket {hash : Bytes} (hlen : hash.length < 2 ^ 32) {i : Nat}
    (hi : i < 2 ^ 32) : deliveryFor hash { pkg := fillerPacket hash i } = some (filler [] i) := by
  have hchunk := chunkFor_eq_some_iff.mpr ⟨acceptedChunk_fillerPacket hlen i, rfl⟩
  have hid : (UInt32.ofNat i).toNat = i := UInt32.toNat_ofNat_of_lt' hi
  rw [deliveryFor, hchunk, Option.map_some, deliveryOf, filler]
  simp [hid]

theorem filterMap_fillerPackets {hash : Bytes} (hlen : hash.length < 2 ^ 32) {numbers : List Nat}
    (h : ∀ i ∈ numbers, i < 2 ^ 32) :
    (plainArrivals (numbers.map (fillerPacket hash))).filterMap (deliveryFor hash) =
      numbers.map (filler []) := by
  induction numbers with
  | nil => rfl
  | cons i numbers ih =>
      obtain ⟨hi, hrest⟩ := List.forall_mem_cons.mp h
      have hcons : plainArrivals ((i :: numbers).map (fillerPacket hash)) =
          { pkg := fillerPacket hash i } :: plainArrivals (numbers.map (fillerPacket hash)) := rfl
      rw [hcons, List.filterMap_cons_some (deliveryFor_fillerPacket hlen hi), ih hrest,
        List.map_cons]

/-- As many packets as are left over end the session. -/
theorem exists_clearing {hash : Bytes} (hlen : hash.length < 2 ^ 32) (past : List Arrival) :
    ∃ clearing : List Bytes, clearing.length = leftOver (afterTurns denote disk past) hash ∧
      (∀ a ∈ plainArrivals clearing, addressee a = some hash) ∧
      (afterTurns denote disk (past ++ plainArrivals clearing)).fm.find hash = none := by
  obtain ⟨numbers, hlength, hbound, hfinal⟩ :=
    Collector.exists_filling ([] : Bytes) ((afterTurns denote disk past).tray hash)
  have hsmall : ∀ i ∈ numbers, i < 2 ^ 32 := by
    intro i hi
    refine (hbound i hi).trans_le (max_le (by decide) ?_)
    rw [Receiver.tray]
    cases (afterTurns denote disk past).fm.find hash with
    | none => exact Nat.zero_le _
    | some s => simpa using s.totalChunks.toNat_lt.le
  refine ⟨numbers.map (fillerPacket hash), ?_, fun a ha => ?_, ?_⟩
  · rw [List.length_map, hlength, leftOver_eq]
  · obtain ⟨pkg, hpkg, rfl⟩ := List.mem_map.mp ha
    obtain ⟨i, -, rfl⟩ := List.mem_map.mp hpkg
    rw [addressee, acceptedChunk_fillerPacket hlen]
    rfl
  · rw [← tray_eq_none_iff, tray_afterTurns_append, filterMap_fillerPackets hlen hsmall, hfinal]

/-- And fewer do not. -/
theorem leftOver_le {hash : Bytes} {past more : List Arrival}
    (h : (afterTurns denote disk (past ++ more)).fm.find hash = none) :
    leftOver (afterTurns denote disk past) hash ≤
      more.countP fun a => addressee a = some hash := by
  rw [← tray_eq_none_iff, tray_afterTurns_append] at h
  refine (leftOver_eq _ hash).trans_le ((Collector.toGo_le_length h).trans_eq ?_)
  rw [List.length_filterMap_eq_countP]
  refine List.countP_congr fun a _ => ?_
  rw [deliveryFor, Option.isSome_map, decide_eq_true_iff, addressee_eq_some_iff,
    Option.isSome_iff_exists]

/-! ## A transfer after that -/

variable {denote disk} {t : Transfer}

theorem deliveryFor_packet {i : Nat} {part : Bytes} (hi : t.parts[i]? = some part) :
    deliveryFor t.hash { pkg := (chunkAt t.hash t.parts i part).serialize } =
      some (deliveryOf (chunkAt t.hash t.parts i part) {}) := by
  have hchunk : chunkFor t.hash { pkg := (chunkAt t.hash t.parts i part).serialize } =
      some (chunkAt t.hash t.parts i part) :=
    chunkFor_eq_some_iff.mpr ⟨acceptedChunk_packet hi rfl, rfl⟩
  rw [deliveryFor, hchunk]
  rfl

theorem index_ne_of_not_mem {i : Nat} {part : Bytes} (hi : t.parts[i]? = some part)
    {pkgs : List Bytes} (hpkgs : ∀ pkg ∈ pkgs, pkg ∈ t.packets)
    (hnew : (chunkAt t.hash t.parts i part).serialize ∉ pkgs) :
    ∀ d ∈ (plainArrivals pkgs).filterMap (deliveryFor t.hash), d.index ≠ i := by
  rintro d hd rfl
  obtain ⟨b, hb, hdb⟩ := List.mem_filterMap.mp hd
  obtain ⟨pkg, hpkg, rfl⟩ := List.mem_map.mp hb
  obtain ⟨j, part', hj, rfl⟩ := Transfer.mem_packets.mp (hpkgs pkg hpkg)
  rw [deliveryFor_packet hj, Option.some.injEq] at hdb
  have hindex : d.index = j := by rw [← hdb, (isFrom_deliveryOf hj _).2]
  rw [hindex] at hi hnew
  rw [hi, Option.some.injEq] at hj
  exact hnew (hj ▸ hpkg)

/-- The turn that hands the pieces over writes the file and ends the session. -/
theorem stored_of_handed_over {past : List Arrival} {a : Arrival} {d : Collector.Delivery Bytes}
    (hd : deliveryFor t.hash a = some d) (henv : a.env.Succeeds)
    (hstep : (Collector.step ((afterTurns denote disk past).tray t.hash) d).2 = some t.parts) :
    (afterTurns denote disk (past ++ [a])).disk (denote (savedAs t.hash)) = some t.content ∧
      (afterTurns denote disk (past ++ [a])).fm.find t.hash = none := by
  obtain ⟨chunk, hchunk, rfl⟩ := Option.map_eq_some_iff.mp hd
  obtain ⟨hacc, hhash⟩ := chunkFor_eq_some_iff.mp hchunk
  have hstore := henv.store_eq t.parts.flatten
  obtain ⟨hdirs, hopen, -⟩ := henv
  have htaken : (deliveryOf chunk a.env).taken = true := by
    rw [deliveryOf, hdirs, hopen]
    rfl
  constructor
  · have hwrote : (turn denote disk past a).2.wrote = some (savedAs t.hash, t.content) := by
      rw [wrote_turn denote disk hacc, if_pos htaken, hhash, hstep, Option.map_some,
        hstore]
      rfl
    rw [turn, ← afterTurns] at hwrote
    rw [afterTurns_concat, disk_recvFileStep_replay, hwrote]
    exact Function.update_self _ _ _
  · rw [← tray_eq_none_iff, tray_afterTurns_concat, hd, Option.toList_some, Run.final_cons,
      Run.final_nil, Collector.step_state, hstep, Collector.empties, htaken]
    rfl

/-- Without a session the packets of a transfer store it, in any order. -/
theorem stored_when_free {past : List Arrival}
    (hfree : (afterTurns denote disk past).fm.find t.hash = none) (hne : t.parts ≠ [])
    {pkgs : List Bytes} (hperm : pkgs.Perm t.packets) :
    (afterTurns denote disk (past ++ plainArrivals pkgs)).disk (denote (savedAs t.hash)) =
        some t.content ∧
      (afterTurns denote disk (past ++ plainArrivals pkgs)).fm.find t.hash = none := by
  have hpkgs : ∀ pkg ∈ pkgs, pkg ∈ t.packets := fun pkg => hperm.mem_iff.mp
  have honly : OnlyFrom t (plainArrivals pkgs) := onlyFrom_plainArrivals hpkgs
  have hall := honly.pieces_iff.mpr fun chunk hchunk => by
    obtain ⟨i, part, hi, rfl⟩ := mem_chunked.mp hchunk
    have hpkg := hperm.mem_iff.mpr (Transfer.mem_packets.mpr ⟨i, part, hi, rfl⟩)
    exact ⟨_, List.mem_map_of_mem hpkg, acceptedChunk_packet hi rfl⟩
  have hfrom := honly.isFrom
  cases pkgs using List.reverseRecOn with
  | nil =>
      obtain ⟨d, hd, -⟩ := hall 0 (List.length_pos_iff.mpr hne)
      cases hd
  | append_singleton first last =>
      obtain ⟨i, part, hi, rfl⟩ := Transfer.mem_packets.mp (hpkgs last (by simp))
      have hsplit : plainArrivals (first ++ [(chunkAt t.hash t.parts i part).serialize]) =
          plainArrivals first ++ [{ pkg := (chunkAt t.hash t.parts i part).serialize }] :=
        List.map_append
      have hd := deliveryFor_packet hi
      rw [hsplit, List.filterMap_append, List.filterMap_cons_some hd,
        List.filterMap_nil] at hfrom hall
      rw [hsplit, ← List.append_assoc]
      refine stored_of_handed_over hd ⟨rfl, rfl, rfl⟩ ?_
      have hnodup := hperm.nodup_iff.mpr t.packets_nodup
      have hnew : (chunkAt t.hash t.parts i part).serialize ∉ first := fun hmem =>
        (List.nodup_append.mp hnodup).2.2 _ hmem _ (List.mem_singleton_self _) rfl
      rw [tray_afterTurns_append, tray_eq_none_iff.mpr hfree]
      refine Collector.step_final_of_last hfrom ?_ hall
      rw [(isFrom_deliveryOf hi _).2]
      exact index_ne_of_not_mem hi (fun pkg hpkg => hpkgs pkg (List.mem_append_left _ hpkg)) hnew

/-- What a history leaves of a hash, and that transfers under it can still be stored. -/
structure Recovers (denote : Bytes → Node) (disk : Disk Node) (past : List Arrival)
    (hash : Bytes) : Prop where
  needed : ∀ more, (afterTurns denote disk (past ++ more)).fm.find hash = none →
    leftOver (afterTurns denote disk past) hash ≤ more.countP fun a => addressee a = some hash
  enough : ∃ clearing : List Bytes,
    clearing.length = leftOver (afterTurns denote disk past) hash ∧
    (∀ a ∈ plainArrivals clearing, addressee a = some hash) ∧
    (afterTurns denote disk (past ++ plainArrivals clearing)).fm.find hash = none ∧
    ∀ t : Transfer, t.hash = hash → t.parts ≠ [] → ∀ pkgs : List Bytes, pkgs.Perm t.packets →
      (afterTurns denote disk (past ++ plainArrivals (clearing ++ pkgs))).disk
          (denote (savedAs hash)) = some t.content ∧
        (afterTurns denote disk (past ++ plainArrivals (clearing ++ pkgs))).fm.find hash = none

variable (denote disk) in
/-- After any packets on any file system: the session of a hash ends with as many more
packets for it as it has missing chunks, and with no fewer, and then any transfer under
this hash is stored. -/
theorem every_hash_recovers (past : List Arrival) {hash : Bytes} (hlen : hash.length < 2 ^ 32) :
    Recovers denote disk past hash where
  needed _ hfree := leftOver_le denote disk hfree
  enough := by
    obtain ⟨clearing, hlength, haddr, hfree⟩ := exists_clearing denote disk hlen past
    refine ⟨clearing, hlength, haddr, hfree, ?_⟩
    rintro t rfl hne pkgs hperm
    rw [plainArrivals, List.map_append, ← plainArrivals, ← plainArrivals, ← List.append_assoc]
    exact stored_when_free hfree hne hperm

/-- One part of two has come, and the other has to come first. -/
theorem every_hash_recovers_half :
    Recovers id (fun _ => none)
      (plainArrivals ((⟨[7], [[1], [2]], by decide, by decide, by decide⟩ : Transfer).packets.take 1))
      [7] :=
  every_hash_recovers id (fun _ => none) _ (by decide)

end EggDelivery
