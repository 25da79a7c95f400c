import EggDelivery.Chunk.PayloadErrors
import EggDelivery.Network.Assemblers

/-!
# Damage on the way

A packet with two flipped payload bits, or with a burst of up to 32, is rejected, and
a rejected packet leaves no trace in the loop. So damage of these kinds is loss: the
rest of the arrivals decides what is stored, and when.
-/

namespace EggDelivery

variable {Node : Type} [DecidableEq Node] (denote : Bytes → Node)

/-- A damaged packet of some chunk, whoever sent it. -/
def DamagedPacket (pkg : Bytes) : Prop :=
  ∃ c : FileChunk, c.fileHash.length < 2 ^ 32 ∧ c.data.length < 2 ^ 32 ∧ c.Damaged pkg

theorem DamagedPacket.rejected {pkg : Bytes} (h : DamagedPacket pkg) : Rejected pkg := by
  obtain ⟨c, hhash, hdata, hdamaged⟩ := h
  exact FileChunk.deserialize_damaged {} hhash hdata hdamaged

/-- Whatever else arrives, and whatever the file system does, the loop ends in the same
state and writes the same files in the same order as without the damaged packets. -/
theorem damage_is_loss (disk : Disk Node) (arrivals : List Arrival) (intact : Arrival → Bool)
    (h : ∀ a ∈ arrivals, intact a = false → DamagedPacket a.pkg) :
    afterTurns denote disk (arrivals.filter intact) = afterTurns denote disk arrivals ∧
      writes denote disk (arrivals.filter intact) = writes denote disk arrivals := by
  refine Run.exec_filter (recvFileStep denote) (fun a ha hdamaged r => ?_) (startReceiver disk)
  obtain ⟨c, hc⟩ := (h a ha hdamaged).rejected
  rw [recvFileStep_rejected denote r hc]
  exact ⟨rfl, rfl⟩

theorem damage_is_loss_one_packet :
    writes id (fun _ => none)
        ([({ pkg := FileChunk.front { data := [7] } ++ flipBit (flipBit [7] 0) 5 } : Arrival)].filter
          fun _ => false) =
      writes id (fun _ => none)
        [{ pkg := FileChunk.front { data := [7] } ++ flipBit (flipBit [7] 0) 5 }] := by
  refine (damage_is_loss id (fun _ => none) _ (fun _ => false) fun a ha _ => ?_).2
  rw [List.mem_singleton.mp ha]
  exact ⟨{ data := [7] }, by decide, by decide, .flips (by decide) (by decide) (by decide)⟩

end EggDelivery
