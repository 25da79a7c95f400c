import EggDelivery.Manager.Frames
import EggDelivery.Manager.SavePath

/-!
# Directories

Here the answers of the file system come from a disk with files and directories. A
manager with such a disk runs as the manager alone does with these answers. A failed
call leaves its sessions and files as they were and takes no directory away, but it may
leave new directories behind, and a later call can fail because of them.
-/

namespace EggDelivery

open LexicalPath

/-! ## A disk with directories -/

/-- Files and directories by their places, and the names that the disk takes. The place
where paths begin is a directory without an entry. -/
structure FileSystem where
  files : Disk (Place Bytes)
  directories : Place Bytes → Bool
  admits : Bytes → Bool

namespace FileSystem

def isDirectory (fs : FileSystem) (p : Place Bytes) : Bool := p.names.isEmpty || fs.directories p

/-- A directory `n` in `p`, unless there is one; a file of that name is in the way. -/
def makeDirectory (fs : FileSystem) (p : Place Bytes) (n : Bytes) : Option FileSystem :=
  let q := walk p (.name n)
  if fs.isDirectory q then some fs
  else if (fs.files q).isSome || !fs.admits n then none
  else some { fs with directories := Function.update fs.directories q true }

/-- One directory after the other. What is made before a failure stays. -/
def makeWay (fs : FileSystem) (p : Place Bytes) : List (Component Bytes) → Bool × FileSystem
  | [] => (true, fs)
  | .name n :: cs =>
      match fs.makeDirectory p n with
      | none => (false, fs)
      | some fs' => fs'.makeWay (walk p (.name n)) cs
  | c :: cs => fs.makeWay (walk p c) cs

variable (fmt : PathFormat)

/-- `fs::create_directories`. -/
def createDirectories (fs : FileSystem) (path : Bytes) : Bool × FileSystem :=
  if path = [] then (false, fs) else fs.makeWay (origin fmt path) (components fmt path)

/-- Whether an output stream opens: the last component is a name that is no directory,
in a directory that is there. -/
def opens (fs : FileSystem) (path : Bytes) : Bool :=
  match (components fmt path).reverse with
  | .name n :: way =>
      let dir := follow (origin fmt path) way.reverse
      fs.isDirectory dir && !fs.isDirectory (walk dir (.name n)) && fs.admits n
  | _ => false

def serve (fs : FileSystem) (call : FileCall) : FileSystem :=
  match call with
  | .createParent _ => (fs.createDirectories fmt (call.path fmt)).2
  | .openOutput _ => fs

def behaviour (fs : FileSystem) (savePath : Bytes) : DiskBehaviour where
  createDirectories := (fs.createDirectories fmt ((FileCall.createParent savePath).path fmt)).1
  isOpen := (fs.serve fmt (.createParent savePath)).opens fmt
    ((FileCall.openOutput savePath).path fmt)

/-! ### What a call leaves of a disk -/

/-- The files are the same, and every directory is still there. -/
structure Grows (fs fs' : FileSystem) : Prop where
  files : fs'.files = fs.files
  admits : fs'.admits = fs.admits
  directories : ∀ p, fs.isDirectory p = true → fs'.isDirectory p = true

theorem Grows.refl (fs : FileSystem) : fs.Grows fs := ⟨rfl, rfl, fun _ => id⟩

theorem Grows.trans {fs₁ fs₂ fs₃ : FileSystem} (h : fs₁.Grows fs₂) (h' : fs₂.Grows fs₃) :
    fs₁.Grows fs₃ :=
  ⟨h'.files.trans h.files, h'.admits.trans h.admits,
    fun p hp => h'.directories p (h.directories p hp)⟩

def Disjoint (fs : FileSystem) : Prop := ∀ p, fs.isDirectory p = true → fs.files p = none

variable {fs fs' : FileSystem}

theorem makeDirectory_cases {p : Place Bytes} {n : Bytes} (h : fs.makeDirectory p n = some fs') :
    fs' = fs ∨ fs.files (walk p (.name n)) = none ∧
      fs' = { fs with directories := Function.update fs.directories (walk p (.name n)) true } := by
  unfold makeDirectory at h
  dsimp only at h
  split at h
  next => exact Or.inl (Option.some.inj h).symm
  next =>
    split at h
    next => cases h
    next hfree =>
      rw [Bool.or_eq_true, not_or] at hfree
      exact Or.inr ⟨Option.not_isSome_iff_eq_none.mp hfree.1, (Option.some.inj h).symm⟩

theorem makeDirectory_grows {p : Place Bytes} {n : Bytes} (h : fs.makeDirectory p n = some fs') :
    fs.Grows fs' := by
  rcases makeDirectory_cases h with rfl | ⟨-, rfl⟩
  · exact Grows.refl _
  · refine ⟨rfl, rfl, fun q hq => ?_⟩
    simp only [isDirectory, Function.update_apply, Bool.or_eq_true] at hq ⊢
    exact hq.imp_right fun hq => by simp [hq]

theorem makeDirectory_disjoint {p : Place Bytes} {n : Bytes} (hfs : fs.Disjoint)
    (h : fs.makeDirectory p n = some fs') : fs'.Disjoint := by
  rcases makeDirectory_cases h with rfl | ⟨hfree, rfl⟩
  · exact hfs
  · intro q hq
    simp only [isDirectory, Function.update_apply, Bool.or_eq_true] at hq
    by_cases heq : q = walk p (.name n)
    · rw [heq]
      exact hfree
    · rw [if_neg heq] at hq
      exact hfs q (by simpa [isDirectory] using hq)

/-- Making one directory keeps `P`. -/
def Stable (P : FileSystem → Prop) : Prop :=
  ∀ ⦃fs fs' p n⦄, P fs → fs.makeDirectory p n = some fs' → P fs'

theorem grows_stable (fs : FileSystem) : Stable fs.Grows :=
  fun _ _ _ _ h hmade => h.trans (makeDirectory_grows hmade)

theorem disjoint_stable : Stable Disjoint := fun _ _ _ _ => makeDirectory_disjoint

section
variable {P : FileSystem → Prop} (stable : Stable P)
include stable

theorem makeWay_keeps (hfs : P fs) (p : Place Bytes) (cs : List (Component Bytes)) :
    P (fs.makeWay p cs).2 := by
  induction cs generalizing fs p with
  | nil => exact hfs
  | cons c cs ih =>
      cases c with
      | here => exact ih hfs _
      | up => exact ih hfs _
      | name n =>
          rw [makeWay]
          split
          next => exact hfs
          next hmade => exact ih (stable hfs hmade) _

theorem createDirectories_keeps (hfs : P fs) (path : Bytes) :
    P (fs.createDirectories fmt path).2 := by
  unfold createDirectories
  split
  · exact hfs
  · exact makeWay_keeps stable hfs _ _

theorem serve_keeps (hfs : P fs) (calls : List FileCall) :
    P (calls.foldl (serve fmt) fs) := by
  induction calls generalizing fs with
  | nil => exact hfs
  | cons call calls ih =>
      cases call with
      | createParent savePath => exact ih (createDirectories_keeps fmt stable hfs _)
      | openOutput savePath => exact ih hfs

end

theorem isDirectory_of_opens {path : Bytes} (h : fs.opens fmt path = true) :
    fs.isDirectory (place fmt path) = false := by
  unfold opens at h
  split at h
  next n way hsplit =>
    have hcomponents : components fmt path = way.reverse ++ [.name n] := by
      rw [← List.reverse_reverse (components fmt path), hsplit, List.reverse_cons]
    rw [place, hcomponents, follow_append]
    simp only [Bool.and_eq_true, Bool.not_eq_true'] at h
    exact h.1.2
  next => cases h

end FileSystem

/-! ## A manager with its disk -/

structure Host where
  manager : FileManager
  disk : FileSystem

inductive Host.Call where
  | setDownloadDirectory (dir : Bytes)
  | create (hash name : Bytes) (total : UInt32) (now : Time)
  | add (hash : Bytes) (chunkId : UInt32) (data : Bytes) (now : Time)
  | complete (hash : Bytes)
  | cancel (hash : Bytes)
  | cleanup (maxIdleSeconds : UInt32) (clock : Nat → Time)

namespace Host

def world (h : Host) : World (Place Bytes) := ⟨h.manager, h.disk.files⟩

variable (fmt : PathFormat)

def fileAt (path : Bytes) : Place Bytes := place fmt (cStr path)

/-- The constructor: the manager starts whether or not its directory can be made. -/
def new (dir : Bytes) (disk : FileSystem) : Host :=
  ⟨FileManager.new dir, (disk.createDirectories fmt (cStr dir)).2⟩

/-- The call with what the disk answers to it. -/
def op (h : Host) : Call → Op
  | .setDownloadDirectory dir =>
      .setDownloadDirectory dir (h.disk.createDirectories fmt (cStr dir)).1
  | .create hash name total now => .create hash name total now
  | .add hash chunkId data now => .add hash chunkId data now
  | .complete hash =>
      .complete hash ((h.manager.find hash).elim {} fun s => h.disk.behaviour fmt s.savePath)
  | .cancel hash => .cancel hash
  | .cleanup maxIdleSeconds clock => .cleanup maxIdleSeconds clock

def asked (h : Host) : Op → List FileCall
  | .complete hash env =>
      (h.manager.completeTransfer (fileAt fmt) hash env h.disk.files).assembly.elim []
        AssembleResult.touched
  | _ => []

def made (h : Host) (call : Call) : FileSystem :=
  match call with
  | .setDownloadDirectory dir => (h.disk.createDirectories fmt (cStr dir)).2
  | _ => (h.asked fmt (h.op fmt call)).foldl (FileSystem.serve fmt) h.disk

def step (h : Host) (call : Call) : Host × Answer :=
  let r := EggDelivery.step (fileAt fmt) h.world (h.op fmt call)
  (⟨r.1.manager, { h.made fmt call with files := r.1.disk }⟩, r.2)

/-! ### Runs -/

variable {fmt}

theorem made_keeps {P : FileSystem → Prop} (stable : FileSystem.Stable P) {h : Host}
    (hdisk : P h.disk) (call : Call) : P (h.made fmt call) := by
  cases call with
  | setDownloadDirectory dir => exact FileSystem.createDirectories_keeps fmt stable hdisk _
  | _ => exact FileSystem.serve_keeps fmt stable hdisk _

theorem made_grows (h : Host) (call : Call) : h.disk.Grows (h.made fmt call) :=
  made_keeps (FileSystem.grows_stable h.disk) (FileSystem.Grows.refl h.disk) call

/-- A run over a disk is a run of the manager with the answers of the disk. -/
theorem run_is_run_of_manager (h : Host) (calls : List Call) :
    Run.final (EggDelivery.step (fileAt fmt)) h.world
        (Run.feeds (Host.step fmt) (op fmt) h calls) =
        (Run.final (Host.step fmt) h calls).world ∧
      Run.outputs (EggDelivery.step (fileAt fmt)) h.world
        (Run.feeds (Host.step fmt) (op fmt) h calls) =
        Run.outputs (Host.step fmt) h calls :=
  Run.exec_feeds _ (fun _ _ => rfl) h calls

/-- A call that answers `false` keeps the sessions, the directory setting, every file
and every directory. -/
theorem step_of_refused {h : Host} {call : Call}
    (hfail : (h.step fmt call).2 = .flag false) :
    (h.step fmt call).1.manager = h.manager ∧
      h.disk.Grows (h.step fmt call).1.disk := by
  have hsame := EggDelivery.step_of_refused (fileAt fmt) hfail
  obtain ⟨-, hadmits, hdirectories⟩ : h.disk.Grows (h.made fmt call) := made_grows h call
  exact ⟨congrArg World.manager hsame, congrArg World.disk hsame, hadmits, hdirectories⟩

/-- If it makes no directory either, the rest of the run is as if it had not been made. -/
theorem run_of_refused {h : Host} {past : List Call} {call : Call}
    (hfail : ((Run.final (Host.step fmt) h past).step fmt call).2 = .flag false)
    (hmade : ((Run.final (Host.step fmt) h past).made fmt call).directories =
      (Run.final (Host.step fmt) h past).disk.directories) (later : List Call) :
    Run.final (Host.step fmt) h (past ++ call :: later) =
        Run.final (Host.step fmt) h (past ++ later) ∧
      (Run.outputs (Host.step fmt) h (past ++ call :: later)).eraseIdx past.length =
        Run.outputs (Host.step fmt) h (past ++ later) := by
  refine Run.exec_skip (Host.step fmt) ?_ later
  have hworld := EggDelivery.step_of_refused (fileAt fmt) hfail
  have hadmits : ((Run.final (Host.step fmt) h past).made fmt call).admits =
      (Run.final (Host.step fmt) h past).disk.admits := (made_grows _ call).admits
  rw [Host.step]
  dsimp only
  rw [hworld, hmade, hadmits]
  rfl

theorem op_complete {h : Host} {hash : Bytes} {s : FileTransferSession}
    (hfind : h.manager.find hash = some s) :
    h.op fmt (.complete hash) = .complete hash (h.disk.behaviour fmt s.savePath) := by
  rw [op, hfind, Option.elim_some]

theorem isDirectory_of_overwrites {h : Host} {call : Call} {p : Place Bytes}
    (hover : Overwrites (fileAt fmt) h.world (h.op fmt call) p) :
    (h.made fmt call).isDirectory p = false := by
  obtain ⟨hash, env, hop, hret, s, hfind, rfl⟩ := hover
  cases call with
  | complete hash' =>
      obtain ⟨rfl, rfl⟩ := Op.complete.inj hop
      rw [op_complete hfind] at hret
      have hcomplete := Answer.flag.inj hret
      rw [FileManager.completeTransfer_returned (fileAt fmt) hfind, Bool.and_eq_true,
        Bool.and_eq_true] at hcomplete
      obtain ⟨⟨hc, hd⟩, ho⟩ := hcomplete
      have hmade : h.made fmt (.complete hash') = h.disk.serve fmt (.createParent s.savePath) := by
        simp only [made, op_complete hfind]
        simp [asked, FileManager.completeTransfer, show h.manager.find hash' = some s from hfind,
          FileTransferSession.assembleFile, hc, hd, ho, FileSystem.serve]
      rw [hmade]
      exact FileSystem.isDirectory_of_opens fmt ho
  | _ => cases hop

/-- In no run does a place become a file and a directory. -/
theorem disjoint_final {h : Host} (hdisk : h.disk.Disjoint) (calls : List Call) :
    (Run.final (Host.step fmt) h calls).disk.Disjoint := by
  refine Run.invariant (Host.step fmt) (P := fun h => h.disk.Disjoint)
    (fun h call hdisk => ?_) hdisk calls
  intro p hp
  have hmade : (h.made fmt call).Disjoint := made_keeps FileSystem.disjoint_stable hdisk call
  have hfiles : (h.made fmt call).files = h.disk.files := (made_grows h call).files
  rcases step_disk (fileAt fmt) h.world (h.op fmt call) p with hsame | hover
  · exact hsame.trans ((congrFun hfiles p).symm.trans (hmade p hp))
  · have hmade : (h.made fmt call).isDirectory p = true := hp
    rw [isDirectory_of_overwrites hover] at hmade
    cases hmade

end Host

def emptyDisk : FileSystem := ⟨fun _ => none, fun _ => false, fun name => name.length ≤ 255⟩

/-- After any run, a call that answers `false` makes no difference to the answers of
those behind it. -/
def FailedCallsMakeNoDifference (fmt : PathFormat) (h : Host) : Prop :=
  ∀ past call later,
    ((Run.final (Host.step fmt) h past).step fmt call).2 = .flag false →
      (Run.outputs (Host.step fmt) h (past ++ call :: later)).eraseIdx past.length =
        Run.outputs (Host.step fmt) h (past ++ later)

/-- A name that ends in a separator, and the same name without it. -/
def blocking : List Host.Call :=
  [.create (ascii "a") (ascii "f/") 0 0, .create (ascii "b") (ascii "f") 0 0]

/-- The completion that fails has made the directory `f`. -/
theorem not_failedCallsMakeNoDifference_blocking :
    ¬FailedCallsMakeNoDifference .posix (Host.new .posix (ascii "d") emptyDisk) := by
  intro h
  have hanswers := h blocking (.complete (ascii "a")) [.complete (ascii "b")] (by decide)
  exact absurd hanswers (by decide)

end EggDelivery
