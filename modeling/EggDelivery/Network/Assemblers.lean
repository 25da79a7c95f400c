import EggDelivery.Library.Independent
import EggDelivery.Manager.Tray
import EggDelivery.Network.Bookkeeping
import EggDelivery.Network.Family

/-!
# The receive loop as a set of collectors

What `recv_file_loop` is for: it collects the chunks of every hash on their own, and
stores a file when they are all there. `session_map`, the sessions with their flags and
the ignored return values come to exactly this, whatever packets arrive and however the
file system behaves. The disk holds what the turns report to have written.
-/

namespace EggDelivery

open FileManager hiding put
open Collector (Tray Delivery put)

/-! ## Packets as deliveries -/

def acceptedChunk (a : Arrival) : Option FileChunk :=
  match FileChunk.deserialize 64 {} a.pkg with
  | .ok (true, chunk) => some chunk
  | .ok (false, _) => none
  | .error _ => none

def addressee (a : Arrival) : Option Bytes := (acceptedChunk a).map FileChunk.fileHash

/-- The chunk as a piece. A full tray is taken if the output file opens. -/
def deliveryOf (chunk : FileChunk) (env : DiskBehaviour) : Delivery Bytes where
  index := chunk.chunkId.toNat
  total := chunk.totalChunks.toNat
  piece := chunk.data
  taken := env.createDirectories && env.isOpen

theorem acceptedChunk_eq_some_iff {a : Arrival} {chunk : FileChunk} :
    acceptedChunk a = some chunk ↔ FileChunk.deserialize 64 {} a.pkg = .ok (true, chunk) := by
  rw [acceptedChunk]
  rcases deserialize_cases a.pkg with ⟨c, hc⟩ | ⟨c, hc⟩ <;> simp [hc]

theorem acceptedChunk_eq_none_iff {a : Arrival} :
    acceptedChunk a = none ↔ Rejected a.pkg := by
  rw [acceptedChunk, Rejected]
  rcases deserialize_cases a.pkg with ⟨c, hc⟩ | ⟨c, hc⟩ <;> simp [hc]

/-! ## One turn -/

variable {Node : Type}

theorem find_openSession {r : Receiver Node} (h : ListedLive r) (chunk : FileChunk)
    (now : Time) :
    (openSession r chunk now).fm.find chunk.fileHash =
      some ((r.fm.find chunk.fileHash).getD
        (FileTransferSession.new chunk.fileHash (r.fm.savePath (saveName chunk.fileHash))
          chunk.totalChunks now)) := by
  unfold openSession
  split
  next listed hlisted =>
    obtain ⟨s, hs⟩ := Option.isSome_iff_exists.mp (h _ (Option.isSome_of_eq_some hlisted))
    rw [hs, Option.getD_some]
  next =>
    dsimp only
    rw [find_createTransferSession]
    cases hfind : r.fm.find chunk.fileHash with
    | none => rw [if_pos ⟨rfl, rfl⟩, Option.getD_none]
    | some s => rw [if_neg (by simp), Option.getD_some]

/-- The tray that is being filled for a hash. -/
def Receiver.tray (r : Receiver Node) (hash : Bytes) : Option (Tray Bytes) :=
  (r.fm.find hash).map FileTransferSession.tray

theorem exists_tray_afterAdd {r : Receiver Node} (h : ListedLive r) (chunk : FileChunk)
    (a : Arrival) :
    ∃ s, (afterAdd r chunk a).fm.find chunk.fileHash = some s ∧
      s.tray = put (r.tray chunk.fileHash) (deliveryOf chunk a.env) := by
  have hopened : ((r.fm.find chunk.fileHash).getD
      (FileTransferSession.new chunk.fileHash (r.fm.savePath (saveName chunk.fileHash))
        chunk.totalChunks a.created)).tray =
      (r.tray chunk.fileHash).getD (List.replicate chunk.totalChunks.toNat none) := by
    rw [Receiver.tray]
    cases r.fm.find chunk.fileHash with
    | none => exact FileTransferSession.tray_new _ _ _ _
    | some s => rfl
  refine ⟨_, by rw [afterAdd, find_addChunkToSession, if_pos rfl, find_openSession h]; rfl, ?_⟩
  rw [FileTransferSession.tray_addChunk, hopened]
  rfl

structure Account where
  progress : Int32
  wrote : Option (Bytes × Bytes)
deriving DecidableEq

def PacketReport.account : PacketReport Node → Option Account
  | .stored progress assembly => some ⟨progress, assembly.bind AssembleResult.wrote⟩
  | .dropped => none
  | .undefined _ => none

theorem PacketReport.account_wrote (report : PacketReport Node) :
    report.account.bind Account.wrote = report.wrote := by
  cases report <;> rfl

def accountOf (tray : Option (Tray Bytes)) (chunk : FileChunk) (env : DiskBehaviour) : Account where
  progress := (percentage (put tray (deliveryOf chunk env))).toInt32
  wrote :=
    if (deliveryOf chunk env).taken then
      (Collector.step tray (deliveryOf chunk env)).2.map fun parts =>
        (savedAs chunk.fileHash, env.store parts.flatten)
    else none

/-- The collector of one hash, fed with the packets for it. -/
def assemble (tray : Option (Tray Bytes)) (a : Arrival) : Option (Tray Bytes) × Option Account :=
  match acceptedChunk a with
  | none => (tray, none)
  | some chunk =>
      ((Collector.step tray (deliveryOf chunk a.env)).1, some (accountOf tray chunk a.env))

variable [DecidableEq Node] (denote : Bytes → Node)

theorem find_recvFileStep {r : Receiver Node} {a : Arrival} {chunk : FileChunk}
    (hdec : FileChunk.deserialize 64 {} a.pkg = .ok (true, chunk)) {s : FileTransferSession}
    (hs : (afterAdd r chunk a).fm.find chunk.fileHash = some s) :
    (recvFileStep denote r a).1.fm.find chunk.fileHash =
      if s.isComplete && a.env.createDirectories && a.env.isOpen then none else some s := by
  rw [recvFileStep_accepted denote r hdec]
  have hcomplete : (afterAdd r chunk a).fm.isTransferComplete chunk.fileHash = s.isComplete := by
    rw [isTransferComplete, hs]
  unfold finishSession
  dsimp only
  rw [hcomplete]
  cases hdone : s.isComplete with
  | false => simp [hs]
  | true =>
      rw [if_pos rfl]
      dsimp only
      rw [find_completeTransfer, completeTransfer_returned denote hs, hdone, hs]
      simp

theorem wrote_assembleFile (s : FileTransferSession) (env : DiskBehaviour) (disk : Disk Node) :
    (s.assembleFile denote env disk).wrote =
      if s.isComplete && env.createDirectories && env.isOpen then
        some (s.savePath, env.store s.written)
      else none := by
  unfold FileTransferSession.assembleFile
  cases s.isComplete with
  | false => rfl
  | true =>
      cases env.createDirectories with
      | false => rfl
      | true => cases env.isOpen <;> rfl

/-- A turn on an accepted packet is a step of the collector of its hash. -/
theorem recvFileStep_assembles {r : Receiver Node} (hlive : ListedLive r)
    (hsaved : SavedUnderHash r) {a : Arrival} {chunk : FileChunk}
    (hdec : FileChunk.deserialize 64 {} a.pkg = .ok (true, chunk)) :
    (recvFileStep denote r a).1.tray chunk.fileHash =
        (Collector.step (r.tray chunk.fileHash) (deliveryOf chunk a.env)).1 ∧
      (recvFileStep denote r a).2.account =
        some (accountOf (r.tray chunk.fileHash) chunk a.env) := by
  obtain ⟨s, hs, htray⟩ := exists_tray_afterAdd hlive chunk a
  have hheld := (afterAdd r chunk a).fm.held _ s hs
  have hcomplete : s.isComplete = Collector.full (put (r.tray chunk.fileHash)
      (deliveryOf chunk a.env)) := by rw [hheld.isComplete_eq, htray]
  have hpath := (savedUnderHash_afterAdd hsaved chunk a).path _ s hs
  constructor
  · rw [Receiver.tray, find_recvFileStep denote hdec hs, hcomplete, Bool.and_assoc]
    cases hfull : Collector.full (put (r.tray chunk.fileHash) (deliveryOf chunk a.env)) with
    | false => rw [Collector.step_of_not_full hfull, ← htray]; rfl
    | true =>
        rw [Collector.step_of_full hfull, Bool.true_and, ← htray]
        exact apply_ite (Option.map FileTransferSession.tray) _ _ _
  · rw [recvFileStep_report denote hdec hs, PacketReport.account, accountOf,
      hheld.getProgressPercentage_eq, htray]
    refine congrArg (fun wrote => some (Account.mk _ wrote)) ?_
    cases hfull : Collector.full (put (r.tray chunk.fileHash) (deliveryOf chunk a.env)) with
    | false => simp [hcomplete, hfull, Collector.step_of_not_full hfull]
    | true =>
        rw [hcomplete, hfull, if_pos rfl, Option.bind_some, wrote_assembleFile, hcomplete, hfull,
          Collector.step_of_full hfull, Bool.true_and, hpath,
          FileTransferSession.written_eq_tray, htray]
        rfl

/-! ## Runs -/

/-- The receivers that the loop can be in: every listed hash has a session, and each is
saved under its hash. -/
structure LoopState (Node : Type) where
  receiver : Receiver Node
  live : ListedLive receiver
  saved : SavedUnderHash receiver

namespace LoopState

def start (disk : Disk Node) : LoopState Node where
  receiver := startReceiver disk
  live := listedLive_start disk
  saved := savedUnderHash_start disk

def turn (s : LoopState Node) (a : Arrival) : LoopState Node × Option Account :=
  (⟨(recvFileStep denote s.receiver a).1, listedLive_step denote s.live a,
    savedUnderHash_step denote s.saved a⟩, (recvFileStep denote s.receiver a).2.account)

/-- What the loop holds for the packets of one kind; it holds nothing for rejected ones. -/
def trayFor (key : Option Bytes) (s : LoopState Node) : Option (Tray Bytes) :=
  key.bind s.receiver.tray

end LoopState

/-- A rejected packet changes nothing. -/
theorem recvFileStep_of_none (r : Receiver Node) {a : Arrival} (h : acceptedChunk a = none) :
    recvFileStep denote r a = (r, .dropped) := by
  obtain ⟨c, hc⟩ := acceptedChunk_eq_none_iff.mp h
  exact recvFileStep_rejected denote r hc

theorem tray_recvFileStep_other (r : Receiver Node) {a : Arrival} {hash : Bytes}
    (h : addressee a ≠ some hash) :
    (recvFileStep denote r a).1.tray hash = r.tray hash := by
  cases ha : acceptedChunk a with
  | none => rw [recvFileStep_of_none denote r ha]
  | some chunk =>
      have hne : hash ≠ chunk.fileHash := by
        rintro rfl
        exact h (by rw [addressee, ha, Option.map_some])
      have hframe := sameElsewhere_recvFileStep denote r (acceptedChunk_eq_some_iff.mp ha)
      rw [Receiver.tray, Receiver.tray, hframe.find hash hne]

/-- The loop is one collector for each hash. -/
theorem loop_parts :
    Run.IndependentParts (LoopState.turn denote) addressee LoopState.trayFor assemble where
  own_view s a := by
    cases ha : acceptedChunk a with
    | none =>
        have hkey : addressee a = none := by rw [addressee, ha, Option.map_none]
        rw [hkey, assemble, ha]
        rfl
    | some chunk =>
        have hkey : addressee a = some chunk.fileHash := by rw [addressee, ha, Option.map_some]
        rw [hkey, assemble, ha]
        exact (recvFileStep_assembles denote s.live s.saved (acceptedChunk_eq_some_iff.mp ha)).1
  own_output s a := by
    change (recvFileStep denote s.receiver a).2.account = _
    cases ha : acceptedChunk a with
    | none =>
        rw [recvFileStep_of_none denote _ ha, assemble, ha]
        rfl
    | some chunk =>
        have hkey : addressee a = some chunk.fileHash := by rw [addressee, ha, Option.map_some]
        rw [hkey, assemble, ha]
        exact (recvFileStep_assembles denote s.live s.saved (acceptedChunk_eq_some_iff.mp ha)).2
  other_view s a key hne := by
    cases key with
    | none => rfl
    | some hash => exact tray_recvFileStep_other denote s.receiver hne

/-! ## The disk -/

def replay (disk : Disk Node) (writes : List (Bytes × Bytes)) : Disk Node :=
  writes.foldl (fun disk w => Function.update disk (denote w.1) (some w.2)) disk

theorem disk_recvFileStep_replay (r : Receiver Node) (a : Arrival) :
    (recvFileStep denote r a).1.disk =
      replay denote r.disk (recvFileStep denote r a).2.wrote.toList := by
  cases ha : acceptedChunk a with
  | none => rw [recvFileStep_of_none denote r ha]; rfl
  | some chunk =>
      rw [recvFileStep_accepted denote r (acceptedChunk_eq_some_iff.mp ha),
        ← disk_afterAdd r chunk a]
      generalize afterAdd r chunk a = r'
      unfold finishSession
      dsimp only
      split
      next =>
        rw [PacketReport.wrote, completeTransfer]
        split
        next => rfl
        next s hs =>
          rw [FileTransferSession.assembleFile]
          cases s.isComplete <;> cases a.env.createDirectories <;> cases a.env.isOpen <;> rfl
      next => rfl

def reports (disk : Disk Node) (arrivals : List Arrival) : List (PacketReport Node) :=
  Run.outputs (recvFileStep denote) (startReceiver disk) arrivals

def writes (disk : Disk Node) (arrivals : List Arrival) : List (Bytes × Bytes) :=
  (reports denote disk arrivals).filterMap PacketReport.wrote

theorem disk_final_replay (r : Receiver Node) (arrivals : List Arrival) :
    (Run.final (recvFileStep denote) r arrivals).disk =
      replay denote r.disk
        ((Run.outputs (recvFileStep denote) r arrivals).filterMap PacketReport.wrote) := by
  induction arrivals generalizing r with
  | nil => rfl
  | cons a arrivals ih =>
      rw [Run.final_cons, ih, disk_recvFileStep_replay, Run.outputs_cons, List.filterMap_cons]
      cases (recvFileStep denote r a).2.wrote <;> rfl

/-! ## The loop -/

def accounts (disk : Disk Node) (arrivals : List Arrival) : List (Arrival × Option Account) :=
  arrivals.zip ((reports denote disk arrivals).map PacketReport.account)

theorem run_loopState (disk : Disk Node) (arrivals : List Arrival) :
    (Run.final (LoopState.turn denote) (LoopState.start disk) arrivals).receiver =
        afterTurns denote disk arrivals ∧
      Run.log (LoopState.turn denote) (LoopState.start disk) arrivals =
        accounts denote disk arrivals := by
  obtain ⟨hfinal, houts⟩ := Run.exec_seen (LoopState.turn denote) (recvFileStep denote)
    LoopState.receiver PacketReport.account (fun _ _ => rfl) (fun _ _ => rfl)
    (LoopState.start disk) arrivals
  refine ⟨hfinal.symm, ?_⟩
  rw [Run.log, houts]
  rfl

/-- For any packets on any file system: the turns on the packets of a hash print and
write what the collector of this hash does with them, its session is the tray of that
collector, and the disk holds what has been written. -/
theorem loop_is_assemblers (disk : Disk Node) (arrivals : List Arrival) :
    (∀ hash,
      Run.outputsFor addressee (some hash) (accounts denote disk arrivals) =
          Run.outputs assemble none (Run.inputsOf addressee (some hash) arrivals) ∧
        (afterTurns denote disk arrivals).tray hash =
          Run.final assemble none (Run.inputsOf addressee (some hash) arrivals)) ∧
      (afterTurns denote disk arrivals).disk =
        replay denote disk (writes denote disk arrivals) := by
  obtain ⟨hfinal, hlog⟩ := run_loopState denote disk arrivals
  refine ⟨fun hash => ?_, disk_final_replay denote (startReceiver disk) arrivals⟩
  have hstart : LoopState.trayFor (some hash) (LoopState.start disk) = none := by
    simp [LoopState.trayFor, LoopState.start, Receiver.tray, startReceiver]
  have hview := (loop_parts denote).view_final (some hash) (LoopState.start disk) arrivals
  have houts := (loop_parts denote).outputsFor_log (some hash) (LoopState.start disk) arrivals
  rw [hstart] at hview houts
  rw [LoopState.trayFor, hfinal] at hview
  rw [hlog] at houts
  exact ⟨houts, hview⟩

end EggDelivery
