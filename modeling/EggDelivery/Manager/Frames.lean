import EggDelivery.Manager.Runs

/-!
# What a call leaves alone

A call that answers `false` has changed nothing, so a run goes on as if it had not
been made. The only call that writes a file is a completion, and it writes the file
at the save path of its own session. Which hashes share a file is up to their names:
the manager compares hashes and never paths.
-/

namespace EggDelivery

section Frames

variable {Node : Type} [DecidableEq Node] (denote : Bytes → Node)

/-! ## Failed calls -/

theorem FileManager.put_of_find {fm : FileManager} {s : FileTransferSession} (hs : s.Held)
    (h : fm.find s.fileHash = some s) : fm.put s hs = fm := by
  refine FileManager.ext_find rfl fun hash => ?_
  rw [FileManager.find_put]
  split
  next heq => rw [← heq, h]
  next => rfl

theorem FileTransferSession.addChunk_of_refused {s : FileTransferSession} {chunkId : UInt32}
    {data : Bytes} {now : Time} (h : (s.addChunk chunkId data now).1 = false) :
    (s.addChunk chunkId data now).2 = s := by
  rw [FileTransferSession.addChunk_returned, decide_eq_false_iff_not, UInt32.not_lt] at h
  rw [FileTransferSession.addChunk, dif_pos h]

theorem FileManager.addChunkToSession_of_refused {fm : FileManager} {hash : Bytes}
    {chunkId : UInt32} {data : Bytes} {now : Time}
    (h : (fm.addChunkToSession hash chunkId data now).1 = false) :
    (fm.addChunkToSession hash chunkId data now).2 = fm := by
  cases hfind : fm.find hash with
  | none => rw [FileManager.addChunkToSession_none hfind]
  | some s =>
      rw [FileManager.addChunkToSession_some hfind] at h ⊢
      have hsame : (s.addChunk chunkId data now).2 = s :=
        FileTransferSession.addChunk_of_refused h
      have hheld := FileTransferSession.addChunk_held (fm.held hash s hfind) chunkId data now
      exact FileManager.put_of_find hheld (by rw [hsame, fm.keyed hash s hfind, hfind])

/-- A call that answers `false` leaves the manager and the disk as they were. -/
theorem step_of_refused {w : World Node} {op : Op} (h : (step denote w op).2 = .flag false) :
    (step denote w op).1 = w := by
  cases op with
  | setDownloadDirectory dir created =>
      cases created with
      | true => cases h
      | false => rfl
  | create hash name total now =>
      cases hfind : w.manager.find hash with
      | none => simp [step, FileManager.createTransferSession_none hfind] at h
      | some s => simp only [step, FileManager.createTransferSession_some hfind]
  | add hash chunkId data now =>
      have hadd := FileManager.addChunkToSession_of_refused (Answer.flag.inj h)
      simp only [step, hadd]
  | complete hash env =>
      rcases FileManager.completeTransfer_cases denote w.manager hash env w.disk with
        ⟨s, -, -, -, -, hret, -, -⟩ | ⟨-, hman, hdisk⟩
      · simp [step, hret] at h
      · simp only [step, hman, hdisk]
  | cancel hash =>
      cases hfind : w.manager.find hash with
      | none => simp only [step, FileManager.cancelTransfer, hfind]
      | some s => simp [step, FileManager.cancelTransfer, hfind] at h
  | cleanup maxIdleSeconds clock => cases h

variable (dir : Bytes) (disk : Disk Node)

def answers (ops : List Op) : List Answer :=
  Run.outputs (step denote) ⟨FileManager.new dir, disk⟩ ops

/-- In every run a call that answers `false` changes nothing at once, and every
continuation ends in the same state and gives the same answers as without it. -/
theorem failed_call_changes_nothing {ops : List Op} {op : Op}
    (hfail : (step denote (after denote dir disk ops) op).2 = .flag false) :
    (step denote (after denote dir disk ops) op).1 = after denote dir disk ops ∧
      ∀ later,
        after denote dir disk (ops ++ op :: later) = after denote dir disk (ops ++ later) ∧
          (answers denote dir disk (ops ++ op :: later)).eraseIdx ops.length =
            answers denote dir disk (ops ++ later) := by
  have hsame := step_of_refused denote hfail
  exact ⟨hsame, fun later => Run.exec_skip (step denote) hsame later⟩

def waiting : List Op := [.create (ascii "h") (ascii "f") 1 0]

theorem failed_call_changes_nothing_waiting :
    (step id (after id (ascii "d") (fun _ => none) waiting) (.complete (ascii "h") {})).1 =
      after id (ascii "d") (fun _ => none) waiting ∧
      ∀ later,
        after id (ascii "d") (fun _ => none) (waiting ++ .complete (ascii "h") {} :: later) =
          after id (ascii "d") (fun _ => none) (waiting ++ later) ∧
          (answers id (ascii "d") (fun _ => none)
              (waiting ++ .complete (ascii "h") {} :: later)).eraseIdx waiting.length =
            answers id (ascii "d") (fun _ => none) (waiting ++ later) :=
  failed_call_changes_nothing id (ascii "d") (fun _ => none) (by decide)

/-! ## Files -/

def SavesAt (w : World Node) (hash : Bytes) (node : Node) : Prop :=
  ∃ s, w.manager.find hash = some s ∧ denote s.savePath = node

/-- In this state the call is a completion that returns `true` and writes this file. -/
def Overwrites (w : World Node) (op : Op) (node : Node) : Prop :=
  ∃ hash env, op = .complete hash env ∧ (step denote w op).2 = .flag true ∧
    SavesAt denote w hash node

theorem step_disk (w : World Node) (op : Op) (node : Node) :
    (step denote w op).1.disk node = w.disk node ∨ Overwrites denote w op node := by
  cases op with
  | complete hash env =>
      rcases FileManager.completeTransfer_cases denote w.manager hash env w.disk with
        ⟨s, hfind, -, -, -, hret, -, hdisk⟩ | ⟨-, -, hdisk⟩
      · by_cases hnode : denote s.savePath = node
        · exact Or.inr ⟨hash, env, rfl, congrArg Answer.flag hret, s, hfind, hnode⟩
        · left
          simp only [step, hdisk]
          exact Function.update_of_ne (Ne.symm hnode) _ _
      · left
        simp only [step, hdisk]
  | setDownloadDirectory dir created => exact Or.inl rfl
  | create hash name total now => exact Or.inl rfl
  | add hash chunkId data now => exact Or.inl rfl
  | cancel hash => exact Or.inl rfl
  | cleanup maxIdleSeconds clock => exact Or.inl rfl

theorem disk_final {w : World Node} {node : Node} {later : List Op}
    (h : ∀ past op, past ++ [op] <+: later →
      ¬Overwrites denote (Run.final (step denote) w past) op node) :
    (Run.final (step denote) w later).disk node = w.disk node := by
  refine (Run.history_invariant (step denote)
    (A := fun past op => ¬Overwrites denote (Run.final (step denote) w past) op node)
    (P := fun past t => t = Run.final (step denote) w past ∧ t.disk node = w.disk node)
    ⟨rfl, rfl⟩ (fun past t op hop ht => ?_) later h).2
  obtain ⟨rfl, hdisk⟩ := ht
  refine ⟨by rw [Run.final_append]; rfl, ?_⟩
  rcases step_disk denote (Run.final (step denote) w past) op node with hsame | hover
  · exact hsame.trans hdisk
  · exact absurd hover hop

/-- Once a completion has returned `true`, a later call changes the bytes at its save path
only if it is itself a completion that returns `true` with a save path to the same file;
without such a call they stay for good. -/
theorem completed_file_kept {ops : List Op} {hash : Bytes} {env : DiskBehaviour}
    (hdone : (step denote (after denote dir disk ops) (.complete hash env)).2 = .flag true) :
    ∃ s content, (after denote dir disk ops).manager.find hash = some s ∧
      (after denote dir disk (ops ++ [.complete hash env])).disk (denote s.savePath) =
        some content ∧
      (∀ later op,
        (after denote dir disk (ops ++ .complete hash env :: later ++ [op])).disk
            (denote s.savePath) =
          (after denote dir disk (ops ++ .complete hash env :: later)).disk (denote s.savePath) ∨
        Overwrites denote (after denote dir disk (ops ++ .complete hash env :: later)) op
          (denote s.savePath)) ∧
      ∀ later,
        (∀ past op, past ++ [op] <+: later →
          ¬Overwrites denote (after denote dir disk (ops ++ .complete hash env :: past)) op
            (denote s.savePath)) →
        (after denote dir disk (ops ++ .complete hash env :: later)).disk (denote s.savePath) =
          some content := by
  have hafter : ∀ later, after denote dir disk (ops ++ .complete hash env :: later) =
      Run.final (step denote) (step denote (after denote dir disk ops) (.complete hash env)).1
        later := fun later => Run.final_append _ _ _ _
  rcases FileManager.completeTransfer_cases denote (after denote dir disk ops).manager hash env
    (after denote dir disk ops).disk with ⟨s, hfind, -, -, -, -, -, hdisk⟩ | ⟨hno, -, -⟩
  · have hcontent : (step denote (after denote dir disk ops) (.complete hash env)).1.disk
        (denote s.savePath) = some (env.store s.written) := by
      simp only [step, hdisk, Function.update_self]
    refine ⟨s, env.store s.written, hfind, ?_, fun later op => ?_, fun later hlater => ?_⟩
    · rw [hafter []]
      exact hcontent
    · have hlast : after denote dir disk (ops ++ .complete hash env :: later ++ [op]) =
          (step denote (after denote dir disk (ops ++ .complete hash env :: later)) op).1 :=
        Run.final_append _ _ _ _
      rw [hlast]
      exact step_disk denote _ op _
    · simp only [hafter] at hlater ⊢
      rw [disk_final denote hlater, hcontent]
  · simp [step, hno] at hdone

end Frames

def sharedName : List Op :=
  [.create (ascii "a") (ascii "f") 0 0, .create (ascii "b") (ascii "f") 1 0,
    .add (ascii "b") 0 [7] 0]

theorem completed_file_kept_sharedName :
    ∃ s content, (after id (ascii "d") (fun _ => none) sharedName).manager.find (ascii "a") =
        some s ∧
      (after id (ascii "d") (fun _ => none) (sharedName ++ [.complete (ascii "a") {}])).disk
          (id s.savePath) = some content ∧
      (∀ later op,
        (after id (ascii "d") (fun _ => none)
            (sharedName ++ .complete (ascii "a") {} :: later ++ [op])).disk (id s.savePath) =
          (after id (ascii "d") (fun _ => none)
            (sharedName ++ .complete (ascii "a") {} :: later)).disk (id s.savePath) ∨
        Overwrites id
          (after id (ascii "d") (fun _ => none) (sharedName ++ .complete (ascii "a") {} :: later))
          op (id s.savePath)) ∧
      ∀ later,
        (∀ past op, past ++ [op] <+: later →
          ¬Overwrites id
            (after id (ascii "d") (fun _ => none) (sharedName ++ .complete (ascii "a") {} :: past))
            op (id s.savePath)) →
        (after id (ascii "d") (fun _ => none)
            (sharedName ++ .complete (ascii "a") {} :: later)).disk (id s.savePath) =
          some content :=
  completed_file_kept id (ascii "d") (fun _ => none) (by decide)

def Op.hash : Op → Option Bytes
  | .create hash _ _ _ => some hash
  | .add hash _ _ _ => some hash
  | .complete hash _ => some hash
  | .cancel hash => some hash
  | _ => none

def CompletedFilesKept {Node : Type} [DecidableEq Node] (denote : Bytes → Node) (dir : Bytes)
    (disk : Disk Node) : Prop :=
  ∀ ops h₁ env s later h₂ op, h₁ ≠ h₂ →
    (after denote dir disk ops).manager.find h₁ = some s →
    (step denote (after denote dir disk ops) (.complete h₁ env)).2 = .flag true →
    (∃ e ∈ history denote dir disk (ops ++ .complete h₁ env :: later), Creates h₂ e) →
    op.hash = some h₂ →
    (after denote dir disk (ops ++ .complete h₁ env :: later ++ [op])).disk (denote s.savePath) =
      (after denote dir disk (ops ++ .complete h₁ env :: later)).disk (denote s.savePath)

/-- The second completion replaces the file that the first one left. -/
theorem not_completedFilesKept_sharedName :
    ¬CompletedFilesKept id (ascii "d") (fun _ => none) := by
  intro h
  have hcreated : (Op.create (ascii "b") (ascii "f") 1 0, Answer.flag true) ∈
      history id (ascii "d") (fun _ => none) (sharedName ++ [.complete (ascii "a") {}]) :=
    List.mem_of_getElem? (i := 1) rfl
  have hkept := h sharedName (ascii "a") {} (FileTransferSession.new (ascii "a") (ascii "d/f") 0 0)
    [] (ascii "b") (.complete (ascii "b") {}) (by decide) (by decide) (by decide)
    ⟨_, hcreated, ascii "f", 1, 0, rfl⟩ rfl
  exact absurd hkept (by decide)

end EggDelivery
