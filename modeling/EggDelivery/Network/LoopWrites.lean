import EggDelivery.Library.Rounds
import EggDelivery.Network.Assemblers
import EggDelivery.Network.ReceiveLoop
import Mathlib.Data.List.DropRight

/-!
# What the receive loop writes

The loop in the words of what has arrived. Whatever comes and however the file system
behaves: a file is stored by the packet that completes the chunks accepted for its hash
since it was stored last.
-/

namespace EggDelivery

open FileManager hiding put
open Collector (Delivery put)

/-! ## The chunks accepted for a hash -/

def chunkFor (hash : Bytes) (a : Arrival) : Option FileChunk :=
  (acceptedChunk a).filter fun chunk => chunk.fileHash = hash

def deliveryFor (hash : Bytes) (a : Arrival) : Option (Delivery Bytes) :=
  (chunkFor hash a).map fun chunk => deliveryOf chunk a.env

theorem chunkFor_eq_some_iff {hash : Bytes} {a : Arrival} {chunk : FileChunk} :
    chunkFor hash a = some chunk ↔ acceptedChunk a = some chunk ∧ chunk.fileHash = hash := by
  simp [chunkFor, Option.filter_eq_some_iff]

theorem addressee_eq_some_iff {hash : Bytes} {a : Arrival} :
    addressee a = some hash ↔ ∃ chunk, chunkFor hash a = some chunk := by
  simp only [addressee, Option.map_eq_some_iff, chunkFor_eq_some_iff]

theorem chunkFor_of_addressee_ne {hash : Bytes} {a : Arrival} (h : addressee a ≠ some hash) :
    chunkFor hash a = none :=
  Option.eq_none_iff_forall_ne_some.mpr fun chunk hchunk =>
    h (addressee_eq_some_iff.mpr ⟨chunk, hchunk⟩)

def latestData (i : Nat) (cs : List FileChunk) : Option Bytes :=
  cs.reverse.findSome? fun chunk => if chunk.chunkId.toNat = i then some chunk.data else none

/-- These chunks give these parts: the first chunk says how many there are, and each part
is the last payload for its id. -/
structure Assembled (cs : List FileChunk) (parts : List Bytes) : Prop where
  total : cs.head?.map (fun chunk => chunk.totalChunks.toNat) = some parts.length
  data : ∀ i, i < parts.length → latestData i cs = parts[i]?

theorem latest_deliveryFor (hash : Bytes) (i : Nat) (as : List Arrival) :
    Collector.latest i (as.filterMap (deliveryFor hash)) =
      latestData i (as.filterMap (chunkFor hash)) := by
  rw [Collector.latest, latestData, ← List.filterMap_reverse, ← List.filterMap_reverse,
    ← List.head?_filterMap, ← List.head?_filterMap, List.filterMap_filterMap,
    List.filterMap_filterMap]
  congr 2
  funext a
  rw [deliveryFor]
  cases chunkFor hash a <;> rfl

theorem makes_deliveryFor_iff (hash : Bytes) (as : List Arrival) (parts : List Bytes) :
    Collector.Makes (as.filterMap (deliveryFor hash)) parts ↔
      Assembled (as.filterMap (chunkFor hash)) parts := by
  have htotal : (as.filterMap (deliveryFor hash)).head?.map Delivery.total =
      (as.filterMap (chunkFor hash)).head?.map fun chunk => chunk.totalChunks.toNat := by
    rw [List.head?_filterMap, List.head?_filterMap, List.map_findSome?, List.map_findSome?]
    congr 1
    funext a
    rw [Function.comp, Function.comp, deliveryFor]
    cases chunkFor hash a <;> rfl
  constructor
  · rintro ⟨hlen, hpieces⟩
    exact ⟨htotal ▸ hlen, fun i hi => latest_deliveryFor hash i as ▸ hpieces i hi⟩
  · rintro ⟨hlen, hdata⟩
    exact ⟨htotal ▸ hlen, fun i hi => latest_deliveryFor hash i as ▸ hdata i hi⟩

/-! ## Since the file was stored -/

section Run

variable {Node : Type} [DecidableEq Node] (denote : Bytes → Node) (disk : Disk Node)

/-- The turn accepts a packet for this hash and stores the file. -/
def stores (hash : Bytes) (turn : Arrival × PacketReport Node) : Bool :=
  decide (addressee turn.1 = some hash) && turn.2.wrote.isSome

/-- What has arrived since the last turn that stored the file with this hash. -/
def sinceStored (hash : Bytes) (past : List Arrival) : List Arrival :=
  ((Run.log (recvFileStep denote) (startReceiver disk) past).rtakeWhile
    fun turn => !stores hash turn).map Prod.fst

variable (hash : Bytes)

theorem sinceStored_suffix (past : List Arrival) : sinceStored denote disk hash past <:+ past := by
  have hpast : (Run.log (recvFileStep denote) (startReceiver disk) past).map Prod.fst = past := by
    rw [Run.log, List.map_fst_zip (by simp)]
  conv_rhs => rw [← hpast]
  exact (List.rtakeWhile_suffix _ _).map Prod.fst

theorem sinceStored_concat_of_stores {past : List Arrival} {a : Arrival}
    (h : stores hash (a, (turn denote disk past a).2) = true) :
    sinceStored denote disk hash (past ++ [a]) = [] := by
  rw [sinceStored, Run.log_append_singleton, List.rtakeWhile_concat_neg]
  · rfl
  · simpa [turn] using h

theorem sinceStored_concat {past : List Arrival} {a : Arrival}
    (h : stores hash (a, (turn denote disk past a).2) = false) :
    sinceStored denote disk hash (past ++ [a]) = sinceStored denote disk hash past ++ [a] := by
  rw [sinceStored, Run.log_append_singleton, List.rtakeWhile_concat_pos]
  · rw [List.map_append]
    rfl
  · simpa [turn] using h

theorem savedUnderHash_afterTurns (past : List Arrival) :
    SavedUnderHash (afterTurns denote disk past) :=
  Run.invariant (recvFileStep denote) (P := SavedUnderHash)
    (fun _ a h => savedUnderHash_step denote h a) (savedUnderHash_start disk) past

/-- A turn on an accepted packet writes what its collector hands over, if the output file
can be opened. -/
theorem wrote_turn {past : List Arrival} {a : Arrival} {chunk : FileChunk}
    (h : acceptedChunk a = some chunk) :
    (turn denote disk past a).2.wrote =
      if (deliveryOf chunk a.env).taken then
        (Collector.step ((afterTurns denote disk past).tray chunk.fileHash)
          (deliveryOf chunk a.env)).2.map fun parts =>
            (savedAs chunk.fileHash, a.env.store parts.flatten)
      else none := by
  have haccount := (recvFileStep_assembles denote (listedLive_afterTurns denote disk past)
    (savedUnderHash_afterTurns denote disk past) (acceptedChunk_eq_some_iff.mp h)).2
  rw [turn, ← afterTurns, ← PacketReport.account_wrote, haccount]
  rfl

theorem afterTurns_concat (past : List Arrival) (a : Arrival) :
    afterTurns denote disk (past ++ [a]) =
      (recvFileStep denote (afterTurns denote disk past) a).1 := by
  rw [afterTurns, Run.final_append]
  rfl

theorem tray_afterTurns_concat (past : List Arrival) (a : Arrival) :
    (afterTurns denote disk (past ++ [a])).tray hash =
      Run.final Collector.step ((afterTurns denote disk past).tray hash)
        (deliveryFor hash a).toList := by
  rw [afterTurns_concat]
  by_cases haddr : addressee a = some hash
  · obtain ⟨chunk, hchunk⟩ := addressee_eq_some_iff.mp haddr
    obtain ⟨hacc, rfl⟩ := chunkFor_eq_some_iff.mp hchunk
    rw [(recvFileStep_assembles denote (listedLive_afterTurns denote disk past)
      (savedUnderHash_afterTurns denote disk past) (acceptedChunk_eq_some_iff.mp hacc)).1,
      deliveryFor, hchunk]
    rfl
  · rw [tray_recvFileStep_other denote _ haddr, deliveryFor, chunkFor_of_addressee_ne haddr]
    rfl

/-- The session of a hash is the tray of what was accepted for it since it was stored. -/
theorem tray_afterTurns (past : List Arrival) :
    (afterTurns denote disk past).tray hash =
      Collector.trayOf ((sinceStored denote disk hash past).filterMap (deliveryFor hash)) := by
  induction past using List.reverseRecOn with
  | nil => simp [afterTurns, Receiver.tray, startReceiver, sinceStored, Collector.trayOf]
  | append_singleton past a ih =>
      rw [tray_afterTurns_concat]
      by_cases haddr : addressee a = some hash
      · obtain ⟨chunk, hchunk⟩ := addressee_eq_some_iff.mp haddr
        obtain ⟨hacc, rfl⟩ := chunkFor_eq_some_iff.mp hchunk
        have hd : deliveryFor chunk.fileHash a = some (deliveryOf chunk a.env) := by
          rw [deliveryFor, hchunk, Option.map_some]
        have hstores : stores chunk.fileHash (a, (turn denote disk past a).2) =
            Collector.empties (deliveryOf chunk a.env,
              (Collector.step ((afterTurns denote disk past).tray chunk.fileHash)
                (deliveryOf chunk a.env)).2) := by
          rw [stores, haddr, wrote_turn denote disk hacc, Collector.empties]
          cases (deliveryOf chunk a.env).taken <;> simp
        rw [hd, Option.toList_some, Run.final_cons, Run.final_nil, Collector.step_state]
        cases hempties : Collector.empties (deliveryOf chunk a.env,
            (Collector.step ((afterTurns denote disk past).tray chunk.fileHash)
              (deliveryOf chunk a.env)).2) with
        | true =>
            rw [sinceStored_concat_of_stores denote disk _ (hstores.trans hempties), if_pos rfl]
            rfl
        | false =>
            rw [sinceStored_concat denote disk _ (hstores.trans hempties), if_neg (by simp),
              List.filterMap_append, List.filterMap_cons_some hd, List.filterMap_nil,
              Collector.trayOf_concat, ih]
      · have hstores : stores hash (a, (turn denote disk past a).2) = false := by
          simp [stores, haddr]
        have hd : deliveryFor hash a = none := by
          rw [deliveryFor, chunkFor_of_addressee_ne haddr, Option.map_none]
        rw [hd, Option.toList_none, Run.final_nil, ih, sinceStored_concat denote disk _ hstores,
          List.filterMap_append, List.filterMap_cons_none hd, List.filterMap_nil, List.append_nil]

variable {denote disk} in
theorem wrote_turn_iff {past : List Arrival} {a : Arrival} {chunk : FileChunk}
    (h : acceptedChunk a = some chunk) (w : Bytes × Bytes) :
    (turn denote disk past a).2.wrote = some w ↔
      a.env.createDirectories = true ∧ a.env.isOpen = true ∧
        ∃ parts, Collector.Makes ((sinceStored denote disk chunk.fileHash past ++ [a]).filterMap
            (deliveryFor chunk.fileHash)) parts ∧
          (savedAs chunk.fileHash, a.env.store parts.flatten) = w := by
  have hchunk : chunkFor chunk.fileHash a = some chunk := chunkFor_eq_some_iff.mpr ⟨h, rfl⟩
  have hds : (sinceStored denote disk chunk.fileHash past ++ [a]).filterMap
      (deliveryFor chunk.fileHash) =
      (sinceStored denote disk chunk.fileHash past).filterMap (deliveryFor chunk.fileHash) ++
        [deliveryOf chunk a.env] := by
    rw [List.filterMap_append, List.filterMap_cons, deliveryFor, hchunk]
    rfl
  rw [wrote_turn denote disk h, hds, Option.ite_none_right_eq_some, Option.map_eq_some_iff,
    tray_afterTurns]
  simp only [Collector.step_trayOf, deliveryOf, Bool.and_eq_true, and_assoc]

/-- For any packets on any file system: a turn writes exactly if it accepts a packet, the
output file can be opened, and the chunks accepted for its hash since the file was last
stored are complete. It writes their latest payloads in order. -/
theorem loop_writes_iff (past : List Arrival) (a : Arrival) (w : Bytes × Bytes) :
    (turn denote disk past a).2.wrote = some w ↔
      ∃ hash parts, addressee a = some hash ∧ a.env.createDirectories = true ∧
        a.env.isOpen = true ∧
        Assembled ((sinceStored denote disk hash past ++ [a]).filterMap (chunkFor hash)) parts ∧
        (savedAs hash, a.env.store parts.flatten) = w := by
  cases hacc : acceptedChunk a with
  | none =>
      have haddr : addressee a = none := by rw [addressee, hacc, Option.map_none]
      rw [turn, recvFileStep_of_none denote _ hacc]
      simp [PacketReport.wrote, haddr]
  | some chunk =>
      have haddr : addressee a = some chunk.fileHash := by rw [addressee, hacc, Option.map_some]
      rw [wrote_turn_iff hacc]
      simp only [haddr, Option.some.injEq, makes_deliveryFor_iff]
      constructor
      · rintro ⟨hdirs, hopen, parts, hparts, hw⟩
        exact ⟨_, parts, rfl, hdirs, hopen, hparts, hw⟩
      · rintro ⟨hash, parts, rfl, hdirs, hopen, hparts, hw⟩
        exact ⟨hdirs, hopen, parts, hparts, hw⟩

end Run

end EggDelivery
