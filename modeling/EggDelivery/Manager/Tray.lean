import EggDelivery.Library.Collector
import EggDelivery.Manager.Progress

/-!
# A session as a tray

What a session is for: one cell for each chunk, empty or holding a payload. The flags,
the map and the number of chunks are one way to store it. As long as no cached payload
is thrown away, the flags show exactly the filled cells.
-/

namespace EggDelivery

open Collector

namespace FileTransferSession

def tray (s : FileTransferSession) : Tray Bytes :=
  (List.range s.totalChunks.toNat).map fun i => s.chunks[UInt32.ofNat i]?

@[simp] theorem tray_length (s : FileTransferSession) : s.tray.length = s.totalChunks.toNat := by
  simp [tray]

theorem tray_new (hash path : Bytes) (total : UInt32) (now : Time) :
    (new hash path total now).tray = List.replicate total.toNat none := by
  simp [tray, new]

/-- An id that is out of range has no cell. -/
theorem tray_addChunk (s : FileTransferSession) (chunkId : UInt32) (data : Bytes) (now : Time) :
    (s.addChunk chunkId data now).2.tray = s.tray.set chunkId.toNat (some data) := by
  rw [tray, tray, addChunk_totalChunks, map_range_set]
  refine List.map_congr_left fun i hi => ?_
  have hlt : i < s.totalChunks.toNat := List.mem_range.mp hi
  rw [addChunk_chunks]
  refine if_congr ?_ rfl rfl
  constructor
  · rintro ⟨-, rfl⟩
    exact toNat_of_lt hlt
  · rintro rfl
    exact ⟨UInt32.lt_iff_toNat_lt.mpr hlt, UInt32.ofNat_toNat.symm⟩

theorem written_eq_tray (s : FileTransferSession) : s.written = s.tray.reduceOption.flatten := by
  rw [written, tray]
  induction List.range s.totalChunks.toNat with
  | nil => rfl
  | cons i is ih =>
      rw [List.flatMap_cons, List.map_cons, ih]
      cases s.chunks[UInt32.ofNat i]? with
      | none => rw [List.reduceOption_cons_of_none, Option.getD_none, List.nil_append]
      | some data => rw [List.reduceOption_cons_of_some, Option.getD_some, List.flatten_cons]

theorem Held.receivedFlags_eq {s : FileTransferSession} (h : s.Held) :
    s.receivedFlags = s.tray.map Option.isSome := by
  refine List.ext_getElem? fun i => ?_
  by_cases hi : i < s.totalChunks.toNat
  · have hid : (UInt32.ofNat i).toNat = i := toNat_of_lt hi
    have hflag : i < s.receivedFlags.length := by rwa [s.flags_length]
    rw [tray, List.map_map, List.getElem?_map, List.getElem?_range hi, Option.map_some,
      List.getElem?_eq_getElem hflag, Function.comp_apply]
    refine congrArg some (Bool.eq_iff_iff.mpr ?_)
    rw [← Std.ExtTreeMap.mem_iff_isSome_getElem?]
    constructor
    · intro hset
      refine h (UInt32.ofNat i) ?_
      rw [hid, List.getElem?_eq_getElem hflag, hset]
    · intro hmem
      have hset := s.chunks_flagged (UInt32.ofNat i) hmem
      rwa [hid, List.getElem?_eq_getElem hflag, Option.some.injEq] at hset
  · rw [List.getElem?_eq_none (by rw [s.flags_length]; omega),
      List.getElem?_eq_none (by rw [List.length_map, tray_length]; omega)]

theorem Held.isComplete_eq {s : FileTransferSession} (h : s.Held) :
    s.isComplete = full s.tray := by
  rw [isComplete, h.receivedFlags_eq, List.all_map]
  rfl

theorem Held.getReceivedChunkCount_toNat {s : FileTransferSession} (h : s.Held) :
    s.getReceivedChunkCount.toNat = s.tray.countP Option.isSome := by
  have hlen : (0 : UInt32).toNat + s.receivedFlags.length < 2 ^ 32 := by
    rw [s.flags_length]
    simpa using s.totalChunks.toNat_lt
  rw [getReceivedChunkCount, foldl_count hlen, h.receivedFlags_eq, List.count, List.countP_map]
  simp [Function.comp_def]

end FileTransferSession

/-- The percentage of a tray, with the 32-bit product of the code. -/
def percentage (tray : Tray Bytes) : UInt32 :=
  UInt32.ofNat (tray.countP Option.isSome * 100 % 2 ^ 32 / tray.length)

theorem FileTransferSession.Held.getProgressPercentage_eq {s : FileTransferSession} (h : s.Held) :
    s.getProgressPercentage = percentage s.tray := by
  rw [← UInt32.toNat_inj, getProgressPercentage_toNat, h.getReceivedChunkCount_toNat, percentage,
    tray_length, UInt32.toNat_ofNat']
  refine (Nat.mod_eq_of_lt ?_).symm
  exact lt_of_le_of_lt (Nat.div_le_self _ _) (Nat.mod_lt _ (by decide))

end EggDelivery
