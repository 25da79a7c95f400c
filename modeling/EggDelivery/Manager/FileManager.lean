import EggDelivery.Manager.Session

/-!
# FileManager

The session store. Every stored session carries the hash it is stored under and
holds the payload of every flag it shows, so a value of type `FileManager` cannot
be out of step with itself; each operation below proves this for its own result.
-/

namespace EggDelivery

open FileTransferSession

structure FileManager where
  downloadDir : Bytes
  sessions : Std.ExtTreeMap Bytes FileTransferSession
  keyed : ∀ (h : Bytes) (s : FileTransferSession), sessions[h]? = some s → s.fileHash = h
  held : ∀ (h : Bytes) (s : FileTransferSession), sessions[h]? = some s → s.Held
deriving DecidableEq

def defaultChunkSize : UInt32 := 64 * 1024

/-! ## Map facts in terms of equality -/

theorem getElem?_insert_eq {β : Type} (m : Std.ExtTreeMap Bytes β) (k a : Bytes) (v : β) :
    (m.insert k v)[a]? = if k = a then some v else m[a]? := by
  rw [Std.ExtTreeMap.getElem?_insert]
  simp only [Std.LawfulEqCmp.compare_eq_iff_eq]

theorem getElem?_erase_eq {β : Type} (m : Std.ExtTreeMap Bytes β) (k a : Bytes) :
    (m.erase k)[a]? = if k = a then none else m[a]? := by
  rw [Std.ExtTreeMap.getElem?_erase]
  simp only [Std.LawfulEqCmp.compare_eq_iff_eq]

namespace FileManager

/-- The constructor; a failing `create_directories` is only reported. -/
def new (dir : Bytes) : FileManager where
  downloadDir := dir
  sessions := ∅
  keyed := by simp
  held := by simp

def find (fm : FileManager) (hash : Bytes) : Option FileTransferSession := fm.sessions[hash]?

def put (fm : FileManager) (s : FileTransferSession) (hs : s.Held) : FileManager :=
  { fm with
    sessions := fm.sessions.insert s.fileHash s
    keyed := by
      intro h t ht
      rw [getElem?_insert_eq] at ht
      split at ht
      next heq =>
        cases ht
        exact heq
      next => exact fm.keyed h t ht
    held := by
      intro h t ht
      rw [getElem?_insert_eq] at ht
      split at ht
      next =>
        cases ht
        exact hs
      next => exact fm.held h t ht }

/-- `sessions_.erase`. -/
def drop (fm : FileManager) (hash : Bytes) : FileManager :=
  { fm with
    sessions := fm.sessions.erase hash
    keyed := by
      intro h t ht
      rw [getElem?_erase_eq] at ht
      split at ht
      next => cases ht
      next => exact fm.keyed h t ht
    held := by
      intro h t ht
      rw [getElem?_erase_eq] at ht
      split at ht
      next => cases ht
      next => exact fm.held h t ht }

/-! ## Operations -/

/-- `created` is whether `create_directories(dir)` returns. -/
def setDownloadDirectory (fm : FileManager) (dir : Bytes) (created : Bool) : Bool × FileManager :=
  if created then (true, { fm with downloadDir := dir }) else (false, fm)

def getDownloadDirectory (fm : FileManager) : Bytes := fm.downloadDir

/-- `download_dir_ + "/" + file_name`. -/
def savePath (fm : FileManager) (fileName : Bytes) : Bytes := fm.downloadDir ++ ascii "/" ++ fileName

def createTransferSession (fm : FileManager) (fileHash fileName : Bytes) (totalChunks : UInt32)
    (now : Time) : Bool × FileManager :=
  match fm.find fileHash with
  | some _ => (false, fm)
  | none =>
      (true, fm.put (FileTransferSession.new fileHash (fm.savePath fileName) totalChunks now)
        (new_held _ _ _ _))

def addChunkToSession (fm : FileManager) (fileHash : Bytes) (chunkId : UInt32) (chunkData : Bytes)
    (now : Time) : Bool × FileManager :=
  match h : fm.find fileHash with
  | none => (false, fm)
  | some s =>
      ((s.addChunk chunkId chunkData now).1,
        fm.put (s.addChunk chunkId chunkData now).2
          (addChunk_held (fm.held fileHash s h) chunkId chunkData now))

def getSessionProgress (fm : FileManager) (fileHash : Bytes) : Int32 :=
  match fm.find fileHash with
  | none => -1
  | some s => s.getProgressPercentage.toInt32

def isTransferComplete (fm : FileManager) (fileHash : Bytes) : Bool :=
  match fm.find fileHash with
  | none => false
  | some s => s.isComplete

structure CompleteResult (Node : Type) where
  returned : Bool
  manager : FileManager
  disk : Disk Node
  assembly : Option (AssembleResult Node)

def completeTransfer {Node : Type} [DecidableEq Node] (denote : Bytes → Node) (fm : FileManager)
    (fileHash : Bytes) (env : DiskBehaviour) (disk : Disk Node) : CompleteResult Node :=
  match fm.find fileHash with
  | none => ⟨false, fm, disk, none⟩
  | some s =>
      let r := s.assembleFile denote env disk
      if r.returned then ⟨true, fm.drop fileHash, r.disk, some r⟩
      else ⟨false, fm, r.disk, some r⟩

/-- `clearCache` runs on the entry that the next statement erases. -/
def cancelTransfer (fm : FileManager) (fileHash : Bytes) : Bool × FileManager :=
  match fm.find fileHash with
  | none => (false, fm)
  | some _ => (true, fm.drop fileHash)

def getActiveSessions (fm : FileManager) : List Bytes := fm.sessions.keys

structure CleanupResult where
  removed : Nat
  cleaned : List Bytes
  manager : FileManager

/-- The loop of `cleanupIdleSessions` over the entries still to visit. The clock
is read once for the test and once more for the message of a removal; `k` counts
the readings taken. -/
def cleanupLoop (maxIdleSeconds : UInt32) (clock : Nat → Time) :
    List (Bytes × FileTransferSession) → Nat → FileManager → CleanupResult
  | [], _, fm => ⟨0, [], fm⟩
  | (hash, s) :: rest, k, fm =>
      if (maxIdleSeconds.toNat : ℚ) < s.secondsIdle (clock k) then
        let r := cleanupLoop maxIdleSeconds clock rest (k + 2) (fm.drop hash)
        ⟨r.removed + 1, hash :: r.cleaned, r.manager⟩
      else cleanupLoop maxIdleSeconds clock rest (k + 1) fm

def cleanupIdleSessions (fm : FileManager) (maxIdleSeconds : UInt32) (clock : Nat → Time) :
    CleanupResult :=
  cleanupLoop maxIdleSeconds clock fm.sessions.toList 0 fm

def sessionCount (fm : FileManager) : Nat := fm.sessions.size

/-! ## What each operation does to a lookup -/

@[simp] theorem find_new (dir hash : Bytes) : (new dir).find hash = none := by
  simp [find, new]

theorem find_put (fm : FileManager) (s : FileTransferSession) (hs : s.Held) (hash : Bytes) :
    (fm.put s hs).find hash = if s.fileHash = hash then some s else fm.find hash :=
  getElem?_insert_eq _ _ _ _

theorem find_drop (fm : FileManager) (hash other : Bytes) :
    (fm.drop hash).find other = if hash = other then none else fm.find other :=
  getElem?_erase_eq _ _ _

theorem of_find_drop {fm : FileManager} {hash other : Bytes} {s : FileTransferSession}
    (h : (fm.drop hash).find other = some s) : hash ≠ other ∧ fm.find other = some s := by
  rwa [find_drop, Option.ite_none_left_eq_some] at h

@[simp] theorem downloadDir_drop (fm : FileManager) (hash : Bytes) :
    (fm.drop hash).downloadDir = fm.downloadDir := rfl

theorem ext_find {fm fm' : FileManager} (hd : fm.downloadDir = fm'.downloadDir)
    (hf : ∀ hash, fm.find hash = fm'.find hash) : fm = fm' := by
  have hs : fm.sessions = fm'.sessions := Std.ExtTreeMap.ext_getElem? hf
  cases fm
  cases fm'
  cases hd
  cases hs
  rfl

theorem createTransferSession_some {fm : FileManager} {hash : Bytes} {s : FileTransferSession}
    (h : fm.find hash = some s) (name : Bytes) (total : UInt32) (now : Time) :
    fm.createTransferSession hash name total now = (false, fm) := by
  rw [createTransferSession, h]

theorem createTransferSession_none {fm : FileManager} {hash : Bytes} (h : fm.find hash = none)
    (name : Bytes) (total : UInt32) (now : Time) :
    fm.createTransferSession hash name total now =
      (true, fm.put (FileTransferSession.new hash (fm.savePath name) total now)
        (new_held _ _ _ _)) := by
  rw [createTransferSession, h]

theorem downloadDir_createTransferSession (fm : FileManager) (hash name : Bytes)
    (total : UInt32) (now : Time) :
    (fm.createTransferSession hash name total now).2.downloadDir = fm.downloadDir := by
  cases h : fm.find hash with
  | some s => rw [createTransferSession_some h]
  | none =>
      rw [createTransferSession_none h]
      rfl

theorem find_createTransferSession (fm : FileManager) (hash name : Bytes) (total : UInt32)
    (now : Time) (other : Bytes) :
    (fm.createTransferSession hash name total now).2.find other =
      if hash = other ∧ fm.find hash = none then
        some (FileTransferSession.new hash (fm.savePath name) total now)
      else fm.find other := by
  cases h : fm.find hash with
  | some s => rw [createTransferSession_some h, if_neg (by simp)]
  | none =>
      rw [createTransferSession_none h, find_put]
      simp only [and_true]
      rfl

theorem addChunkToSession_none {fm : FileManager} {hash : Bytes} (h : fm.find hash = none)
    (id : UInt32) (data : Bytes) (now : Time) :
    fm.addChunkToSession hash id data now = (false, fm) := by
  unfold addChunkToSession
  split
  next => rfl
  next s heq => cases h.symm.trans heq

theorem addChunkToSession_some {fm : FileManager} {hash : Bytes} {s : FileTransferSession}
    (h : fm.find hash = some s) (id : UInt32) (data : Bytes) (now : Time) :
    fm.addChunkToSession hash id data now =
      ((s.addChunk id data now).1,
        fm.put (s.addChunk id data now).2 (addChunk_held (fm.held hash s h) id data now)) := by
  unfold addChunkToSession
  split
  next heq => cases h.symm.trans heq
  next s' heq =>
    obtain rfl : s = s' := Option.some.inj (h.symm.trans heq)
    rfl

theorem downloadDir_addChunkToSession (fm : FileManager) (hash : Bytes) (id : UInt32)
    (data : Bytes) (now : Time) :
    (fm.addChunkToSession hash id data now).2.downloadDir = fm.downloadDir := by
  cases h : fm.find hash with
  | none => rw [addChunkToSession_none h]
  | some s =>
      rw [addChunkToSession_some h]
      rfl

theorem find_addChunkToSession (fm : FileManager) (hash : Bytes) (id : UInt32) (data : Bytes)
    (now : Time) (other : Bytes) :
    (fm.addChunkToSession hash id data now).2.find other =
      if hash = other then (fm.find hash).map fun s => (s.addChunk id data now).2
      else fm.find other := by
  cases h : fm.find hash with
  | none =>
      rw [addChunkToSession_none h]
      split
      next heq => rw [← heq, h, Option.map_none]
      next => rfl
  | some s =>
      rw [addChunkToSession_some h, find_put, FileTransferSession.addChunk_fileHash,
        fm.keyed hash s h]
      rfl

theorem isTransferComplete_eq_true_iff (fm : FileManager) (hash : Bytes) :
    fm.isTransferComplete hash = true ↔ ∃ s, fm.find hash = some s ∧ s.isComplete = true := by
  cases h : fm.find hash with
  | none => simp [isTransferComplete, h]
  | some s => simp [isTransferComplete, h]

theorem cancelTransfer_eq (fm : FileManager) (hash : Bytes) :
    fm.cancelTransfer hash = ((fm.find hash).isSome, fm.drop hash) := by
  cases h : fm.find hash with
  | some s => rw [cancelTransfer, h, Option.isSome_some]
  | none =>
      have hdrop : fm.drop hash = fm := ext_find rfl fun other => by
        rw [find_drop]
        split
        next heq => rw [← heq, h]
        next => rfl
      rw [cancelTransfer, h, Option.isSome_none, hdrop]

/-- The loop takes away the sessions it names, whatever the clock says, and
nothing else. -/
theorem cleanupLoop_spec (maxIdleSeconds : UInt32) (clock : Nat → Time)
    (entries : List (Bytes × FileTransferSession)) (k : Nat) (fm : FileManager) :
    (cleanupLoop maxIdleSeconds clock entries k fm).manager.downloadDir = fm.downloadDir ∧
      ∀ other, (cleanupLoop maxIdleSeconds clock entries k fm).manager.find other =
        if other ∈ (cleanupLoop maxIdleSeconds clock entries k fm).cleaned then none
        else fm.find other := by
  induction entries generalizing k fm with
  | nil => simp [cleanupLoop]
  | cons entry rest ih =>
      obtain ⟨hash, s⟩ := entry
      rw [cleanupLoop]
      split
      next =>
        obtain ⟨hdir, hfind⟩ := ih (k + 2) (fm.drop hash)
        refine ⟨hdir, fun other => ?_⟩
        simp only [hfind, find_drop, List.mem_cons]
        by_cases hmem :
            other ∈ (cleanupLoop maxIdleSeconds clock rest (k + 2) (fm.drop hash)).cleaned
        · simp [hmem]
        · simp [hmem, eq_comm]
      next => exact ih (k + 1) fm

theorem find_cleanupIdleSessions (fm : FileManager) (maxIdleSeconds : UInt32)
    (clock : Nat → Time) (other : Bytes) :
    (fm.cleanupIdleSessions maxIdleSeconds clock).manager.find other =
      if other ∈ (fm.cleanupIdleSessions maxIdleSeconds clock).cleaned then none
      else fm.find other :=
  (cleanupLoop_spec maxIdleSeconds clock _ 0 fm).2 other

theorem of_find_cleanupIdleSessions {fm : FileManager} {maxIdleSeconds : UInt32}
    {clock : Nat → Time} {other : Bytes} {s : FileTransferSession}
    (h : (fm.cleanupIdleSessions maxIdleSeconds clock).manager.find other = some s) :
    other ∉ (fm.cleanupIdleSessions maxIdleSeconds clock).cleaned ∧ fm.find other = some s := by
  rwa [find_cleanupIdleSessions, Option.ite_none_left_eq_some] at h

theorem completeTransfer_returned {Node : Type} [DecidableEq Node] (denote : Bytes → Node)
    {fm : FileManager} {hash : Bytes} {s : FileTransferSession} (h : fm.find hash = some s)
    (env : DiskBehaviour) (disk : Disk Node) :
    (fm.completeTransfer denote hash env disk).returned =
      (s.isComplete && env.createDirectories && env.isOpen) := by
  rw [← FileTransferSession.assembleFile_returned denote s env disk, completeTransfer, h]
  cases hret : (s.assembleFile denote env disk).returned <;> simp [hret]

/-- The two ways a completion goes: the session of a complete transfer is
assembled and dropped, or the manager stays as it is. -/
theorem completeTransfer_cases {Node : Type} [DecidableEq Node] (denote : Bytes → Node)
    (fm : FileManager) (hash : Bytes) (env : DiskBehaviour) (disk : Disk Node) :
    (∃ s, fm.find hash = some s ∧ s.isComplete = true ∧ env.createDirectories = true ∧
      env.isOpen = true ∧ (fm.completeTransfer denote hash env disk).returned = true ∧
      (fm.completeTransfer denote hash env disk).manager = fm.drop hash ∧
      (fm.completeTransfer denote hash env disk).disk =
        Function.update disk (denote s.savePath) (some (env.store s.written))) ∨
    ((fm.completeTransfer denote hash env disk).returned = false ∧
      (fm.completeTransfer denote hash env disk).manager = fm ∧
      (fm.completeTransfer denote hash env disk).disk = disk) := by
  cases h : fm.find hash with
  | none =>
      refine Or.inr ?_
      rw [completeTransfer, h]
      exact ⟨rfl, rfl, rfl⟩
  | some s =>
      cases hc : s.isComplete with
      | false =>
          refine Or.inr ?_
          simp [completeTransfer, h, FileTransferSession.assembleFile, hc]
      | true =>
          cases hd : env.createDirectories with
          | false =>
              refine Or.inr ?_
              simp [completeTransfer, h, FileTransferSession.assembleFile, hc, hd]
          | true =>
              cases ho : env.isOpen with
              | false =>
                  refine Or.inr ?_
                  simp [completeTransfer, h, FileTransferSession.assembleFile, hc, hd, ho]
              | true =>
                  refine Or.inl ⟨s, rfl, hc, rfl, rfl, ?_⟩
                  simp [completeTransfer, h, FileTransferSession.assembleFile, hc, hd, ho]

theorem downloadDir_completeTransfer {Node : Type} [DecidableEq Node] (denote : Bytes → Node)
    (fm : FileManager) (hash : Bytes) (env : DiskBehaviour) (disk : Disk Node) :
    (fm.completeTransfer denote hash env disk).manager.downloadDir = fm.downloadDir := by
  rcases completeTransfer_cases denote fm hash env disk with
    ⟨s, -, -, -, -, -, hman, -⟩ | ⟨-, hman, -⟩
  · rw [hman, downloadDir_drop]
  · rw [hman]

theorem find_completeTransfer {Node : Type} [DecidableEq Node] (denote : Bytes → Node)
    (fm : FileManager) (hash : Bytes) (env : DiskBehaviour) (disk : Disk Node) (other : Bytes) :
    (fm.completeTransfer denote hash env disk).manager.find other =
      if hash = other ∧ (fm.completeTransfer denote hash env disk).returned = true then none
      else fm.find other := by
  rcases completeTransfer_cases denote fm hash env disk with
    ⟨s, -, -, -, -, hret, hman, -⟩ | ⟨hret, hman, -⟩
  · rw [hman, hret, find_drop]
    simp only [and_true]
  · rw [hman, if_neg (by simp [hret])]

theorem of_find_completeTransfer {Node : Type} [DecidableEq Node] {denote : Bytes → Node}
    {fm : FileManager} {hash other : Bytes} {env : DiskBehaviour} {disk : Disk Node}
    {s : FileTransferSession}
    (h : (fm.completeTransfer denote hash env disk).manager.find other = some s) :
    ¬(hash = other ∧ (fm.completeTransfer denote hash env disk).returned = true) ∧
      fm.find other = some s := by
  rwa [find_completeTransfer, Option.ite_none_left_eq_some] at h

theorem completeTransfer_of_complete {Node : Type} [DecidableEq Node] (denote : Bytes → Node)
    {fm : FileManager} {hash : Bytes} {s : FileTransferSession} {env : DiskBehaviour}
    (disk : Disk Node) (h : fm.find hash = some s) (hc : s.isComplete = true)
    (henv : env.Succeeds) :
    (fm.completeTransfer denote hash env disk).returned = true ∧
      (fm.completeTransfer denote hash env disk).manager = fm.drop hash ∧
      (fm.completeTransfer denote hash env disk).disk =
        Function.update disk (denote s.savePath) (some s.written) ∧
      (fm.completeTransfer denote hash env disk).assembly.bind AssembleResult.wrote =
        some (s.savePath, s.written) := by
  have hstore := henv.store_eq s.written
  obtain ⟨hd, ho, -⟩ := henv
  simp [completeTransfer, h, FileTransferSession.assembleFile, hc, hd, ho, hstore]

end FileManager

end EggDelivery
