import Mathlib.Data.Rat.Defs
import EggDelivery.Hash.Sha256

/-!
# FileTransferSession

One file being received. The class keeps two redundant structures, a flag per
chunk and a map from ids to payloads; `flags_length` and `chunks_flagged` are the
part of their relation that every public member keeps, `clearCache` included.

The file system is the caller's: `Node` is whatever files are, `denote` says
which file a path leads to, and `DiskBehaviour` how one assembly goes. What the
directories of a disk have to do with its answers is in `Manager/Directories`.
-/

namespace EggDelivery

/-- A reading of the steady clock, in seconds. -/
abbrev Time := ℚ

/-- The content of every existing file. Directories show only in the answers of the
calls. -/
abbrev Disk (Node : Type) := Node → Option Bytes

/-- What the file system does during one `assembleFile`: whether
`create_directories` returns, whether the output opens, what the file holds once it
has been closed, as a function of the bytes written to it, and how it reads back. -/
structure DiskBehaviour where
  createDirectories : Bool := true
  isOpen : Bool := true
  store : Bytes → Bytes := id
  reread : Bytes → Option Bytes := some

/-- Every file-system operation succeeds. -/
def DiskBehaviour.Succeeds (env : DiskBehaviour) : Prop :=
  env.createDirectories = true ∧ env.isOpen = true ∧ env.store = id

theorem DiskBehaviour.Succeeds.store_eq {env : DiskBehaviour} (h : env.Succeeds)
    (content : Bytes) : env.store content = content :=
  congrFun h.2.2 content

/-- `file_path.parent_path()` is handed to `create_directories`, and `save_path_` to the
output stream. -/
inductive FileCall where
  | createParent (savePath : Bytes)
  | openOutput (savePath : Bytes)
deriving Repr, DecidableEq

structure FileTransferSession where
  fileHash : Bytes
  savePath : Bytes
  totalChunks : UInt32
  chunks : Std.ExtTreeMap UInt32 Bytes
  receivedFlags : List Bool
  lastActive : Time
  flags_length : receivedFlags.length = totalChunks.toNat
  chunks_flagged : ∀ i : UInt32, i ∈ chunks → receivedFlags[i.toNat]? = some true
deriving DecidableEq

inductive AssembleReport where
  | incomplete (received total : UInt32)
  | directoryFailed
  | openFailed (path : Bytes)
  | mismatch (expected actual : Bytes)
  | verified (path : Bytes)
deriving Repr, DecidableEq

/-- The returned flag, the disk afterwards, the calls to the file system, the path that
was written with what the file then holds, and the message. -/
structure AssembleResult (Node : Type) where
  returned : Bool
  disk : Disk Node
  touched : List FileCall
  wrote : Option (Bytes × Bytes)
  report : AssembleReport

namespace FileTransferSession

def new (hash path : Bytes) (total : UInt32) (now : Time) : FileTransferSession where
  fileHash := hash
  savePath := path
  totalChunks := total
  chunks := ∅
  receivedFlags := List.replicate total.toNat false
  lastActive := now
  flags_length := List.length_replicate
  chunks_flagged := by simp

def addChunk (s : FileTransferSession) (chunkId : UInt32) (data : Bytes) (now : Time) :
    Bool × FileTransferSession :=
  if h : s.totalChunks ≤ chunkId then (false, s)
  else
    (true,
      { s with
        chunks := s.chunks.insert chunkId data
        receivedFlags := s.receivedFlags.set chunkId.toNat true
        lastActive := now
        flags_length := by rw [List.length_set, s.flags_length]
        chunks_flagged := by
          intro i hi
          have hlt : chunkId.toNat < s.receivedFlags.length := by
            rw [s.flags_length]
            exact UInt32.lt_iff_toNat_lt.mp (UInt32.not_le.mp h)
          by_cases heq : chunkId = i
          · subst heq
            exact List.getElem?_set_self hlt
          · rw [List.getElem?_set_ne fun hn => heq (UInt32.toNat_inj.mp hn)]
            refine s.chunks_flagged i ?_
            rw [Std.ExtTreeMap.mem_insert] at hi
            simpa [heq] using hi })

def isComplete (s : FileTransferSession) : Bool := s.receivedFlags.all fun flag => flag

/-- Counted in `uint32_t`. -/
def getReceivedChunkCount (s : FileTransferSession) : UInt32 :=
  s.receivedFlags.foldl (fun count flag => if flag then count + 1 else count) 0

/-- The product is formed in `uint32_t`. -/
def getProgressPercentage (s : FileTransferSession) : UInt32 :=
  if s.totalChunks = 0 then 0 else s.getReceivedChunkCount * 100 / s.totalChunks

def getMissingChunks (s : FileTransferSession) : List UInt32 :=
  ((List.range s.totalChunks.toNat).filter fun i => s.receivedFlags[i]? = some false).map
    UInt32.ofNat

def clearCache (s : FileTransferSession) : FileTransferSession :=
  { s with
    chunks := ∅
    chunks_flagged := by simp }

def touch (s : FileTransferSession) (now : Time) : FileTransferSession :=
  { s with lastActive := now }

def secondsIdle (s : FileTransferSession) (now : Time) : ℚ := now - s.lastActive

/-- The bytes of the write loop; an id that is not in the map is skipped. -/
def written (s : FileTransferSession) : Bytes :=
  (List.range s.totalChunks.toNat).flatMap fun i => (s.chunks[UInt32.ofNat i]?).getD []

/-- A mismatch of the hash is printed and the call still returns `true`. -/
def assembleFile {Node : Type} [DecidableEq Node] (denote : Bytes → Node)
    (s : FileTransferSession) (env : DiskBehaviour) (disk : Disk Node) : AssembleResult Node :=
  if !s.isComplete then
    ⟨false, disk, [], none, .incomplete s.getReceivedChunkCount s.totalChunks⟩
  else if !env.createDirectories then
    ⟨false, disk, [.createParent s.savePath], none, .directoryFailed⟩
  else if !env.isOpen then
    ⟨false, disk, [.createParent s.savePath, .openOutput s.savePath], none,
      .openFailed s.savePath⟩
  else
    let stored := env.store s.written
    let actual := SHA256.hashFile (env.reread stored)
    ⟨true, Function.update disk (denote s.savePath) (some stored),
      [.createParent s.savePath, .openOutput s.savePath], some (s.savePath, stored),
      if actual ≠ s.fileHash then .mismatch s.fileHash actual else .verified s.savePath⟩

/-! ## The relation of flags and payloads -/

/-- Every flagged chunk is still in the cache. `clearCache` gives this up. -/
def Held (s : FileTransferSession) : Prop :=
  ∀ i : UInt32, s.receivedFlags[i.toNat]? = some true → i ∈ s.chunks

theorem new_held (hash path : Bytes) (total : UInt32) (now : Time) :
    (new hash path total now).Held := by
  intro i hi
  simp [new, List.getElem?_replicate] at hi

theorem addChunk_held {s : FileTransferSession} (h : s.Held) (chunkId : UInt32) (data : Bytes)
    (now : Time) : (s.addChunk chunkId data now).2.Held := by
  unfold addChunk
  split
  next => exact h
  next =>
    intro i hi
    rw [Std.ExtTreeMap.mem_insert]
    by_cases heq : chunkId = i
    · simp [heq]
    · rw [List.getElem?_set_ne fun hn => heq (UInt32.toNat_inj.mp hn)] at hi
      exact Or.inr (h i hi)

/-! ## What the members do to the fields -/

theorem addChunk_returned (s : FileTransferSession) (chunkId : UInt32) (data : Bytes)
    (now : Time) : (s.addChunk chunkId data now).1 = decide (chunkId < s.totalChunks) := by
  unfold addChunk
  split
  next h => simpa using h
  next h => simpa using h

@[simp] theorem addChunk_fileHash (s : FileTransferSession) (chunkId : UInt32) (data : Bytes)
    (now : Time) : (s.addChunk chunkId data now).2.fileHash = s.fileHash := by
  unfold addChunk
  split <;> rfl

@[simp] theorem addChunk_savePath (s : FileTransferSession) (chunkId : UInt32) (data : Bytes)
    (now : Time) : (s.addChunk chunkId data now).2.savePath = s.savePath := by
  unfold addChunk
  split <;> rfl

@[simp] theorem addChunk_totalChunks (s : FileTransferSession) (chunkId : UInt32)
    (data : Bytes) (now : Time) :
    (s.addChunk chunkId data now).2.totalChunks = s.totalChunks := by
  unfold addChunk
  split <;> rfl

theorem addChunk_chunks (s : FileTransferSession) (chunkId : UInt32) (data : Bytes)
    (now : Time) (id : UInt32) :
    (s.addChunk chunkId data now).2.chunks[id]? =
      if chunkId < s.totalChunks ∧ chunkId = id then some data else s.chunks[id]? := by
  unfold addChunk
  split
  next h => rw [if_neg fun hn => UInt32.not_lt.mpr h hn.1]
  next h =>
    rw [Std.ExtTreeMap.getElem?_insert]
    simp only [Std.LawfulEqCmp.compare_eq_iff_eq, UInt32.not_le.mp h, true_and]

theorem addChunk_lastActive (s : FileTransferSession) (chunkId : UInt32) (data : Bytes)
    (now : Time) :
    (s.addChunk chunkId data now).2.lastActive =
      if chunkId < s.totalChunks then now else s.lastActive := by
  unfold addChunk
  split
  next h => rw [if_neg (UInt32.not_lt.mpr h)]
  next h => rw [if_pos (UInt32.not_le.mp h)]

/-- When an assembly succeeds; neither the writes nor the hash have a say. -/
theorem assembleFile_returned {Node : Type} [DecidableEq Node] (denote : Bytes → Node)
    (s : FileTransferSession) (env : DiskBehaviour) (disk : Disk Node) :
    (s.assembleFile denote env disk).returned =
      (s.isComplete && env.createDirectories && env.isOpen) := by
  unfold assembleFile
  cases s.isComplete with
  | false => rfl
  | true =>
      cases env.createDirectories with
      | false => rfl
      | true => cases env.isOpen <;> rfl

theorem isComplete_iff_flags (s : FileTransferSession) :
    s.isComplete = true ↔
      ∀ i, i < s.totalChunks.toNat → s.receivedFlags[i]? = some true := by
  rw [isComplete, List.all_eq_true, ← s.flags_length]
  constructor
  · intro h i hi
    rw [List.getElem?_eq_getElem hi, h _ (List.getElem_mem hi)]
  · intro h flag hflag
    obtain ⟨i, hi, rfl⟩ := List.mem_iff_getElem.mp hflag
    have := h i hi
    rwa [List.getElem?_eq_getElem hi, Option.some.injEq] at this

/-- While the cache is held, completeness is a statement about the payloads. -/
theorem Held.isComplete_iff {s : FileTransferSession} (h : s.Held) :
    s.isComplete = true ↔ ∀ id : UInt32, id < s.totalChunks → s.chunks[id]?.isSome := by
  rw [isComplete_iff_flags]
  constructor
  · intro hflags id hid
    have hmem := h id (hflags id.toNat (UInt32.lt_iff_toNat_lt.mp hid))
    rwa [Std.ExtTreeMap.mem_iff_isSome_getElem?] at hmem
  · intro hchunks i hi
    have hlt : i < 2 ^ 32 := lt_trans hi s.totalChunks.toNat_lt
    have hi' : (UInt32.ofNat i).toNat = i := UInt32.toNat_ofNat_of_lt' hlt
    have hid : UInt32.ofNat i < s.totalChunks := by rwa [UInt32.lt_iff_toNat_lt, hi']
    have hmem := hchunks _ hid
    rw [← Std.ExtTreeMap.mem_iff_isSome_getElem?] at hmem
    rw [← hi']
    exact s.chunks_flagged _ hmem

end FileTransferSession

end EggDelivery
