import EggDelivery.Library.Run
import EggDelivery.Manager.Filling

/-!
# Sending and receiving files

`send_file` and `recv_file_loop`. The loop keeps two tables, `session_map` and the
sessions of its manager; `recvFileStep` is one turn on one result of `recv_bytes`.
What a turn draws from outside comes with the arrival: two clock readings and the
file system's behaviour during a completion.
-/

namespace EggDelivery

/-- `wrap_protocol_v1`, a placeholder in the source. -/
def wrapProtocolV1 (chunkData : Bytes) : Bytes := chunkData

/-- `unwrap_protocol_v1`, a placeholder in the source. -/
def unwrapProtocolV1 (pkg : Bytes) : Bytes := pkg

/-- `FileManager fm("./downloads")`. -/
def downloads : Bytes := ascii "./downloads"

/-! ## Sending -/

/-- What `send` returns, by the number of the call and the length offered. -/
abbrev Transport := Nat → Nat → Int

def wholeSends : Transport := fun _ length => length

/-- `send_bytes`, with the bytes that the transport took. -/
def sendBytes (ret : Int) (data : Bytes) : Bool × Bytes :=
  if data = [] then (false, [])
  else if 0 < ret then (true, data.take ret.toNat) else (false, [])

/-- The loop of `send_file`: its result and what each call handed over. -/
def sendChunks (transport : Transport) : Nat → List FileChunk → Bool × List Bytes
  | _, [] => (true, [])
  | k, chunk :: rest =>
      let pkg := wrapProtocolV1 chunk.serialize
      match sendBytes (transport k pkg.length) pkg with
      | (true, taken) =>
          let r := sendChunks transport (k + 1) rest
          (r.1, taken :: r.2)
      | (false, _) => (false, [])

def sendFile (file : FileView) (transport : Transport) : Except Ub (Bool × List Bytes) := do
  let chunkList ← readAndChunkFile file defaultChunkSize
  if chunkList = [] then pure (false, []) else pure (sendChunks transport 0 chunkList)

/-! ## Receiving -/

structure Arrival where
  pkg : Bytes
  created : Time := 0
  added : Time := 0
  env : DiskBehaviour := {}

structure Receiver (Node : Type) where
  fm : FileManager
  sessionMap : Std.ExtTreeMap Bytes Bool
  disk : Disk Node

/-- What one turn of the loop does besides updating the tables: it drops the packet,
or it prints a progress and perhaps runs a completion. -/
inductive PacketReport (Node : Type) where
  | dropped
  | stored (progress : Int32) (assembly : Option (AssembleResult Node))
  | undefined (ub : Ub)

def PacketReport.wrote {Node : Type} : PacketReport Node → Option (Bytes × Bytes)
  | .stored _ assembly => assembly.bind AssembleResult.wrote
  | .dropped => none
  | .undefined _ => none

def PacketReport.touched {Node : Type} : PacketReport Node → List FileCall
  | .stored _ (some assembly) => assembly.touched
  | .stored _ none => []
  | .dropped => []
  | .undefined _ => []

def saveName (hash : Bytes) : Bytes := hash ++ ascii "_out.bin"

section Receive

variable {Node : Type} [DecidableEq Node] (denote : Bytes → Node)

/-- The branch on `session_map`: a hash that is not in it gets a session. -/
def openSession (r : Receiver Node) (chunk : FileChunk) (now : Time) : Receiver Node :=
  match r.sessionMap[chunk.fileHash]? with
  | some _ => r
  | none =>
      { r with
        fm := (r.fm.createTransferSession chunk.fileHash (saveName chunk.fileHash)
          chunk.totalChunks now).2
        sessionMap := r.sessionMap.insert chunk.fileHash true }

/-- The branch on `isTransferComplete`. The entry of `session_map` goes whatever
`completeTransfer` returns. -/
def finishSession (r : Receiver Node) (hash : Bytes) (env : DiskBehaviour) :
    Receiver Node × PacketReport Node :=
  let progress := r.fm.getSessionProgress hash
  if r.fm.isTransferComplete hash then
    let c := r.fm.completeTransfer denote hash env r.disk
    (⟨c.manager, r.sessionMap.erase hash, c.disk⟩, .stored progress c.assembly)
  else (r, .stored progress none)

def recvFileStep (r : Receiver Node) (a : Arrival) : Receiver Node × PacketReport Node :=
  match FileChunk.deserialize 64 {} (unwrapProtocolV1 a.pkg) with
  | .error ub => (r, .undefined ub)
  | .ok (false, _) => (r, .dropped)
  | .ok (true, chunk) =>
      let r := openSession r chunk a.created
      let added := r.fm.addChunkToSession chunk.fileHash chunk.chunkId chunk.data a.added
      finishSession denote { r with fm := added.2 } chunk.fileHash a.env

def startReceiver (disk : Disk Node) : Receiver Node := ⟨FileManager.new downloads, ∅, disk⟩

/-- The loop over the results of `recv_bytes`, which ends at the first empty one. -/
def recvFileLoop (disk : Disk Node) (arrivals : List Arrival) :
    Receiver Node × List (PacketReport Node) :=
  Run.exec (recvFileStep denote) (startReceiver disk) (arrivals.takeWhile (·.pkg ≠ []))

end Receive

end EggDelivery
