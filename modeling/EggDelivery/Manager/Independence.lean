import EggDelivery.Library.Independent
import EggDelivery.Manager.Runs

/-!
# Sessions do not see each other

The manager serves many hashes at once. Seen from one hash it is a machine with at
most one session, and the calls of other hashes can be left out of any run.
-/

namespace EggDelivery

/-- A call about one session; `env` is how the file system behaves during it. -/
inductive Request where
  | create (name : Bytes) (total : UInt32) (now : Time)
  | add (chunkId : UInt32) (data : Bytes) (now : Time)
  | progress
  | isComplete
  | complete (env : DiskBehaviour)
  | cancel

inductive Reply where
  | flag (returned : Bool)
  | progress (percentage : Int32)
deriving DecidableEq

section Serve

variable {Node : Type} [DecidableEq Node] (denote : Bytes → Node)

def serve (w : World Node) (c : Bytes × Request) : World Node × Reply :=
  match c.2 with
  | .create name total now =>
      let r := w.manager.createTransferSession c.1 name total now
      ({ w with manager := r.2 }, .flag r.1)
  | .add chunkId data now =>
      let r := w.manager.addChunkToSession c.1 chunkId data now
      ({ w with manager := r.2 }, .flag r.1)
  | .progress => (w, .progress (w.manager.getSessionProgress c.1))
  | .isComplete => (w, .flag (w.manager.isTransferComplete c.1))
  | .complete env =>
      let r := w.manager.completeTransfer denote c.1 env w.disk
      (⟨r.manager, r.disk⟩, .flag r.returned)
  | .cancel =>
      let r := w.manager.cancelTransfer c.1
      ({ w with manager := r.2 }, .flag r.1)

def served (dir : Bytes) (disk : Disk Node) (calls : List (Bytes × Request)) : World Node :=
  Run.final (serve denote) ⟨FileManager.new dir, disk⟩ calls

def exchanges (dir : Bytes) (disk : Disk Node) (calls : List (Bytes × Request)) :
    List ((Bytes × Request) × Reply) :=
  Run.log (serve denote) ⟨FileManager.new dir, disk⟩ calls

end Serve

/-! ## A single session -/

/-- What one hash sees of the manager: the directory for new files and its session. -/
structure Slot where
  dir : Bytes
  session : Option FileTransferSession

/-- The single-session machine. -/
def Slot.serve (slot : Slot) (c : Bytes × Request) : Slot × Reply :=
  match c.2, slot.session with
  | .create name total now, none =>
      (⟨slot.dir, some (FileTransferSession.new c.1 (slot.dir ++ ascii "/" ++ name) total now)⟩,
        .flag true)
  | .create _ _ _, some _ => (slot, .flag false)
  | .add _ _ _, none => (slot, .flag false)
  | .add chunkId data now, some s =>
      (⟨slot.dir, some (s.addChunk chunkId data now).2⟩, .flag (s.addChunk chunkId data now).1)
  | .progress, none => (slot, .progress (-1))
  | .progress, some s => (slot, .progress s.getProgressPercentage.toInt32)
  | .isComplete, none => (slot, .flag false)
  | .isComplete, some s => (slot, .flag s.isComplete)
  | .complete _, none => (slot, .flag false)
  | .complete env, some s =>
      if s.isComplete && env.createDirectories && env.isOpen then (⟨slot.dir, none⟩, .flag true)
      else (slot, .flag false)
  | .cancel, none => (slot, .flag false)
  | .cancel, some _ => (⟨slot.dir, none⟩, .flag true)

theorem Slot.serve_dir (slot : Slot) (c : Bytes × Request) : (slot.serve c).1.dir = slot.dir := by
  unfold Slot.serve
  split
  case h_10 => split <;> rfl
  all_goals rfl

def slotOf {Node : Type} (hash : Bytes) (w : World Node) : Slot :=
  ⟨w.manager.downloadDir, w.manager.find hash⟩

section Refinement

variable {Node : Type} [DecidableEq Node] (denote : Bytes → Node)

theorem serve_downloadDir (w : World Node) (c : Bytes × Request) :
    (serve denote w c).1.manager.downloadDir = w.manager.downloadDir := by
  obtain ⟨hash, request⟩ := c
  cases request with
  | create name total now => exact FileManager.downloadDir_createTransferSession _ _ _ _ _
  | add chunkId data now => exact FileManager.downloadDir_addChunkToSession _ _ _ _ _
  | progress => rfl
  | isComplete => rfl
  | complete env => exact FileManager.downloadDir_completeTransfer _ _ _ _ _
  | cancel => simp only [serve, FileManager.cancelTransfer_eq, FileManager.downloadDir_drop]

theorem serve_find_other (w : World Node) (c : Bytes × Request) {other : Bytes}
    (hne : c.1 ≠ other) :
    (serve denote w c).1.manager.find other = w.manager.find other := by
  obtain ⟨hash, request⟩ := c
  cases request with
  | create name total now =>
      exact (FileManager.find_createTransferSession _ _ _ _ _ _).trans (if_neg fun h => hne h.1)
  | add chunkId data now =>
      exact (FileManager.find_addChunkToSession _ _ _ _ _ _).trans (if_neg hne)
  | progress => rfl
  | isComplete => rfl
  | complete env =>
      exact (FileManager.find_completeTransfer _ _ _ _ _ _).trans (if_neg fun h => hne h.1)
  | cancel =>
      simp only [serve, FileManager.cancelTransfer_eq]
      exact (FileManager.find_drop _ _ _).trans (if_neg hne)

/-- On its own session a request does what the single-session machine does. -/
theorem serve_own (w : World Node) (c : Bytes × Request) :
    (serve denote w c).1.manager.find c.1 = ((slotOf c.1 w).serve c).1.session ∧
      (serve denote w c).2 = ((slotOf c.1 w).serve c).2 := by
  obtain ⟨hash, request⟩ := c
  cases h : w.manager.find hash with
  | none =>
      cases request with
      | create name total now =>
          simp [serve, Slot.serve, slotOf, h, FileManager.createTransferSession_none h,
            FileManager.find_put, FileTransferSession.new, FileManager.savePath]
      | add chunkId data now =>
          simp [serve, Slot.serve, slotOf, h, FileManager.addChunkToSession_none h]
      | progress => simp [serve, Slot.serve, slotOf, h, FileManager.getSessionProgress]
      | isComplete => simp [serve, Slot.serve, slotOf, h, FileManager.isTransferComplete]
      | complete env => simp [serve, Slot.serve, slotOf, h, FileManager.completeTransfer]
      | cancel => simp [serve, Slot.serve, slotOf, h, FileManager.cancelTransfer]
  | some s =>
      cases request with
      | create name total now =>
          simp [serve, Slot.serve, slotOf, h, FileManager.createTransferSession_some h]
      | add chunkId data now =>
          simp [serve, Slot.serve, slotOf, h, FileManager.addChunkToSession_some h,
            FileManager.find_put, w.manager.keyed hash s h]
      | progress => simp [serve, Slot.serve, slotOf, h, FileManager.getSessionProgress]
      | isComplete => simp [serve, Slot.serve, slotOf, h, FileManager.isTransferComplete]
      | complete env =>
          have hret := FileManager.completeTransfer_returned denote h env w.disk
          simp only [serve, Slot.serve, slotOf, h, FileManager.find_completeTransfer, hret]
          cases s.isComplete && env.createDirectories && env.isOpen <;> simp
      | cancel =>
          simp [serve, Slot.serve, slotOf, h, FileManager.cancelTransfer, FileManager.find_drop]

/-- The slots are independent, and each is the single-session machine. -/
theorem slots_independent :
    Run.IndependentParts (serve denote) Prod.fst slotOf Slot.serve where
  own_view w c := by
    obtain ⟨hsession, -⟩ := serve_own denote w c
    have hdir : ((slotOf c.1 w).serve c).1.dir = w.manager.downloadDir := Slot.serve_dir _ _
    rw [slotOf, hsession, serve_downloadDir, ← hdir]
  own_output w c := (serve_own denote w c).2
  other_view w c hash hne := by
    rw [slotOf, serve_downloadDir, serve_find_other denote w c hne, slotOf]

end Refinement

/-! ## The active sessions -/

theorem lt_of_compare_eq_lt {a b : Bytes} (h : compare a b = .lt) : a < b := by
  induction a generalizing b with
  | nil =>
      cases b with
      | nil => cases h
      | cons y ys => exact List.nil_lt_cons y ys
  | cons x xs ih =>
      cases b with
      | nil => cases h
      | cons y ys =>
          change List.compareLex compare (x :: xs) (y :: ys) = .lt at h
          rw [List.compareLex_cons_cons, Ordering.then_eq_lt] at h
          rw [List.cons_lt_cons_iff]
          rcases h with h | ⟨h, hrest⟩
          · exact Or.inl (Std.compare_eq_lt.mp h)
          · exact Or.inr ⟨Std.LawfulEqCmp.eq_of_compare h, ih hrest⟩

namespace FileManager

theorem getActiveSessions_sorted (fm : FileManager) : fm.getActiveSessions.Pairwise (· < ·) :=
  fm.sessions.ordered_keys.imp lt_of_compare_eq_lt

theorem mem_getActiveSessions (fm : FileManager) (hash : Bytes) :
    hash ∈ fm.getActiveSessions ↔ (fm.find hash).isSome := by
  rw [getActiveSessions, Std.ExtTreeMap.mem_keys, Std.ExtTreeMap.mem_iff_isSome_getElem?]
  rfl

theorem sessionCount_put (fm : FileManager) (s : FileTransferSession) (hs : s.Held) :
    (fm.put s hs).sessionCount =
      if (fm.find s.fileHash).isSome then fm.sessionCount else fm.sessionCount + 1 := by
  rw [sessionCount, put, Std.ExtTreeMap.size_insert, Std.ExtTreeMap.contains_eq_isSome_getElem?]
  rfl

theorem sessionCount_drop {fm : FileManager} {hash : Bytes} (h : (fm.find hash).isSome) :
    (fm.drop hash).sessionCount + 1 = fm.sessionCount := by
  have hpos : 0 < fm.sessions.size := by
    rw [← Std.ExtTreeMap.length_keys]
    exact List.length_pos_of_mem ((fm.mem_getActiveSessions hash).mpr h)
  have hcontains : fm.sessions.contains hash = true := by
    rw [Std.ExtTreeMap.contains_eq_isSome_getElem?]
    exact h
  rw [sessionCount, drop, Std.ExtTreeMap.size_erase, if_pos hcontains]
  exact Nat.sub_add_cancel hpos

end FileManager

def opens : (Bytes × Request) × Reply → Bool
  | ((_, .create _ _ _), .flag returned) => returned
  | _ => false

def closes : (Bytes × Request) × Reply → Bool
  | ((_, .complete _), .flag returned) => returned
  | ((_, .cancel), .flag returned) => returned
  | _ => false

section Counting

variable {Node : Type} [DecidableEq Node] (denote : Bytes → Node)

/-- A request moves the number of sessions by what its reply says. -/
theorem serve_sessionCount (w : World Node) (c : Bytes × Request) :
    (serve denote w c).1.manager.sessionCount + [(c, (serve denote w c).2)].countP closes =
      w.manager.sessionCount + [(c, (serve denote w c).2)].countP opens := by
  obtain ⟨hash, request⟩ := c
  cases request with
  | create name total now =>
      cases h : w.manager.find hash with
      | some s => simp [serve, FileManager.createTransferSession_some h, opens, closes]
      | none =>
          simp [serve, FileManager.createTransferSession_none h, FileManager.sessionCount_put,
            FileTransferSession.new, h, opens, closes]
  | add chunkId data now =>
      cases h : w.manager.find hash with
      | none => simp [serve, FileManager.addChunkToSession_none h, opens, closes]
      | some s =>
          simp [serve, FileManager.addChunkToSession_some h, FileManager.sessionCount_put,
            w.manager.keyed hash s h, h, opens, closes]
  | progress => rfl
  | isComplete => rfl
  | complete env =>
      rcases FileManager.completeTransfer_cases denote w.manager hash env w.disk with
        ⟨s, h, -, -, -, hret, hman, -⟩ | ⟨hret, hman, -⟩
      · have hdrop := FileManager.sessionCount_drop (Option.isSome_of_eq_some h)
        simp [serve, hret, hman, hdrop, opens, closes]
      · simp [serve, hret, hman, opens, closes]
  | cancel =>
      cases h : w.manager.find hash with
      | none => simp [serve, FileManager.cancelTransfer, h, opens, closes]
      | some s =>
          have hdrop := FileManager.sessionCount_drop (Option.isSome_of_eq_some h)
          simp [serve, FileManager.cancelTransfer, h, hdrop, opens, closes]

theorem sessionCount_served (dir : Bytes) (disk : Disk Node) (calls : List (Bytes × Request)) :
    (served denote dir disk calls).manager.sessionCount +
        (exchanges denote dir disk calls).countP closes =
      (exchanges denote dir disk calls).countP opens := by
  refine Run.log_invariant (serve denote) (A := fun _ => True)
    (P := fun past w => w.manager.sessionCount + past.countP closes = past.countP opens)
    rfl (fun past w c _ h => ?_) calls fun _ _ => trivial
  have hstep := serve_sessionCount denote w c
  rw [List.countP_append, List.countP_append]
  omega

/-- In every run each hash gets the replies, and ends with the session, of the run of its
own calls, which is a run of the single-session machine. The list of active sessions is
sorted, and its length is the number of sessions opened and not closed. -/
theorem sessions_independent (dir : Bytes) (disk : Disk Node) (calls : List (Bytes × Request)) :
    (∀ hash,
      Run.outputs (serve denote) ⟨FileManager.new dir, disk⟩ (Run.inputsOf Prod.fst hash calls) =
          Run.outputsFor Prod.fst hash (exchanges denote dir disk calls) ∧
        (served denote dir disk (Run.inputsOf Prod.fst hash calls)).manager.find hash =
          (served denote dir disk calls).manager.find hash ∧
        Run.outputsFor Prod.fst hash (exchanges denote dir disk calls) =
          Run.outputs Slot.serve ⟨dir, none⟩ (Run.inputsOf Prod.fst hash calls) ∧
        (served denote dir disk calls).manager.find hash =
          (Run.final Slot.serve ⟨dir, none⟩ (Run.inputsOf Prod.fst hash calls)).session) ∧
      (served denote dir disk calls).manager.getActiveSessions.Pairwise (· < ·) ∧
      (∀ hash, hash ∈ (served denote dir disk calls).manager.getActiveSessions ↔
        ((served denote dir disk calls).manager.find hash).isSome) ∧
      (served denote dir disk calls).manager.getActiveSessions.length =
        (served denote dir disk calls).manager.sessionCount ∧
      (served denote dir disk calls).manager.sessionCount +
          (exchanges denote dir disk calls).countP closes =
        (exchanges denote dir disk calls).countP opens := by
  have hparts := slots_independent denote
  have hstart : ∀ hash, slotOf hash ⟨FileManager.new dir, disk⟩ = ⟨dir, none⟩ := fun hash => by
    rw [slotOf, FileManager.find_new]
    rfl
  refine ⟨fun hash => ⟨hparts.outputs_inputsOf hash _ calls, ?_, ?_, ?_⟩,
    FileManager.getActiveSessions_sorted _, FileManager.mem_getActiveSessions _,
    Std.ExtTreeMap.length_keys, sessionCount_served denote dir disk calls⟩
  · exact congrArg Slot.session (hparts.view_inputsOf hash _ calls)
  · rw [← hstart hash]
    exact hparts.outputsFor_log hash _ calls
  · rw [← hstart hash, ← hparts.view_final]
    rfl

end Counting

end EggDelivery
