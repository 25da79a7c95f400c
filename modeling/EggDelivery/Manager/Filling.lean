import EggDelivery.Chunk.ReadAndChunk
import EggDelivery.Manager.FileManager

/-!
# A session that fills up

One transfer is a list of payloads. `Filling` relates the session that receives it
to the set of chunks that have arrived; its rules are what every argument about a
reception uses: how it starts, what one chunk adds, when it is complete, and what
it then writes.
-/

namespace EggDelivery

structure Filling (path : Bytes) (parts : List Bytes) (arrived : Nat → Prop)
    (s : FileTransferSession) : Prop where
  path_eq : s.savePath = path
  total_eq : s.totalChunks = UInt32.ofNat parts.length
  payload : ∀ (id : UInt32) (data : Bytes),
    s.chunks[id]? = some data ↔ arrived id.toNat ∧ parts[id.toNat]? = some data

namespace Filling

open FileTransferSession

variable {path : Bytes} {parts : List Bytes} {arrived : Nat → Prop} {s : FileTransferSession}

theorem fresh (hash path : Bytes) (parts : List Bytes) (now : Time) :
    Filling path parts (fun _ => False)
      (new hash path (UInt32.ofNat parts.length) now) where
  path_eq := rfl
  total_eq := rfl
  payload := by simp [new]

theorem congr (h : Filling path parts arrived s) {arrived' : Nat → Prop}
    (heq : ∀ i, i < parts.length → (arrived i ↔ arrived' i)) : Filling path parts arrived' s where
  path_eq := h.path_eq
  total_eq := h.total_eq
  payload := by
    intro id data
    rw [h.payload]
    refine and_congr_left fun hpart => ?_
    exact heq _ (List.getElem?_eq_some_iff.mp hpart).1

theorem total_toNat (h : Filling path parts arrived s) (hlen : parts.length < 2 ^ 32) :
    s.totalChunks.toNat = parts.length := by
  rw [h.total_eq, UInt32.toNat_ofNat_of_lt' hlen]

theorem add (h : Filling path parts arrived s) (hlen : parts.length < 2 ^ 32) {i : Nat}
    {part : Bytes} (hi : parts[i]? = some part) (now : Time) :
    (s.addChunk (UInt32.ofNat i) part now).1 = true ∧
      Filling path parts (fun j => arrived j ∨ j = i)
        (s.addChunk (UInt32.ofNat i) part now).2 := by
  have hlt : i < parts.length := (List.getElem?_eq_some_iff.mp hi).1
  have hid : (UInt32.ofNat i).toNat = i := UInt32.toNat_ofNat_of_lt' (lt_trans hlt hlen)
  have hacc : UInt32.ofNat i < s.totalChunks := by
    rw [UInt32.lt_iff_toNat_lt, hid, h.total_toNat hlen]
    exact hlt
  refine ⟨by rw [addChunk_returned]; exact decide_eq_true hacc, ?_⟩
  refine ⟨by rw [addChunk_savePath, h.path_eq], by rw [addChunk_totalChunks, h.total_eq], ?_⟩
  intro id data
  rw [addChunk_chunks]
  by_cases heq : UInt32.ofNat i = id
  · have hnat : id.toNat = i := by rw [← heq, hid]
    rw [if_pos ⟨hacc, heq⟩, hnat, hi]
    simp
  · have hnat : id.toNat ≠ i := by
      intro hn
      exact heq (UInt32.toNat_inj.mp (by rw [hid, hn]))
    rw [if_neg fun hn => heq hn.2, h.payload]
    simp [hnat]

theorem isComplete_iff (h : Filling path parts arrived s) (hlen : parts.length < 2 ^ 32)
    (hheld : s.Held) : s.isComplete = true ↔ ∀ i, i < parts.length → arrived i := by
  rw [hheld.isComplete_iff]
  constructor
  · intro hall i hi
    have hid : (UInt32.ofNat i).toNat = i := UInt32.toNat_ofNat_of_lt' (lt_trans hi hlen)
    have hsome := hall (UInt32.ofNat i) (by
      rw [UInt32.lt_iff_toNat_lt, hid, h.total_toNat hlen]
      exact hi)
    obtain ⟨data, hdata⟩ := Option.isSome_iff_exists.mp hsome
    rw [h.payload, hid] at hdata
    exact hdata.1
  · intro hall id hid
    rw [UInt32.lt_iff_toNat_lt, h.total_toNat hlen] at hid
    exact Option.isSome_iff_exists.mpr
      ⟨parts[id.toNat], (h.payload _ _).mpr ⟨hall _ hid, List.getElem?_eq_getElem hid⟩⟩

/-- When everything has arrived, the write loop writes the payloads in order. -/
theorem written (h : Filling path parts arrived s) (hlen : parts.length < 2 ^ 32)
    (hall : ∀ i, i < parts.length → arrived i) : s.written = parts.flatten := by
  rw [FileTransferSession.written, List.flatMap_def, h.total_toNat hlen]
  refine congrArg List.flatten (List.ext_getElem? fun i => ?_)
  rw [List.getElem?_map]
  by_cases hi : i < parts.length
  · have hid : (UInt32.ofNat i).toNat = i := UInt32.toNat_ofNat_of_lt' (lt_trans hi hlen)
    have hchunk : s.chunks[UInt32.ofNat i]? = some parts[i] :=
      (h.payload _ _).mpr ⟨by rw [hid]; exact hall i hi, by rw [hid, List.getElem?_eq_getElem hi]⟩
    rw [List.getElem?_range hi, List.getElem?_eq_getElem hi, Option.map_some, hchunk,
      Option.getD_some]
  · have hle : parts.length ≤ i := Nat.le_of_not_lt hi
    rw [List.getElem?_eq_none (by simpa using hle), List.getElem?_eq_none hle, Option.map_none]

end Filling

/-! ## The same for the session of a manager -/

namespace FileManager

variable {path hash : Bytes} {parts : List Bytes} {arrived : Nat → Prop} {fm : FileManager}
  {s : FileTransferSession}

theorem isTransferComplete_iff (hfind : fm.find hash = some s)
    (h : Filling path parts arrived s) (hlen : parts.length < 2 ^ 32) :
    fm.isTransferComplete hash = true ↔ ∀ i, i < parts.length → arrived i := by
  rw [isTransferComplete, hfind]
  exact h.isComplete_iff hlen (fm.held hash s hfind)

/-- Completing a filled session writes the payloads, one after the other, to its
path and takes the session away. -/
theorem completeTransfer_of_filled {Node : Type} [DecidableEq Node] (denote : Bytes → Node)
    {env : DiskBehaviour} (disk : Disk Node) (hfind : fm.find hash = some s)
    (h : Filling path parts arrived s) (hlen : parts.length < 2 ^ 32)
    (hall : ∀ i, i < parts.length → arrived i) (henv : env.Succeeds) :
    (fm.completeTransfer denote hash env disk).returned = true ∧
      (fm.completeTransfer denote hash env disk).manager = fm.drop hash ∧
      (fm.completeTransfer denote hash env disk).disk =
        Function.update disk (denote path) (some parts.flatten) ∧
      (fm.completeTransfer denote hash env disk).assembly.bind AssembleResult.wrote =
        some (path, parts.flatten) := by
  have hc := (h.isComplete_iff hlen (fm.held hash s hfind)).mpr hall
  rw [← h.path_eq, ← h.written hlen hall]
  exact completeTransfer_of_complete denote disk hfind hc henv

end FileManager

end EggDelivery
