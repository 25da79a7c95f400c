import EggDelivery.Hash.Streaming
import EggDelivery.Manager.Runs

/-!
# What a completion leaves on the disk

The history fixes the bytes that `completeTransfer` writes. Whether they are the
file that the hash names is another matter: the call compares the two and returns
`true` either way.
-/

namespace EggDelivery

open FileTransferSession

def latestPayloads (hash : Bytes) (total : UInt32) (since : History) : Bytes :=
  (List.range total.toNat).flatMap fun i =>
    (latestPayload hash (UInt32.ofNat i) since).getD []

section Completion

variable {Node : Type} [DecidableEq Node] (denote : Bytes → Node) (dir : Bytes)
  (disk : Disk Node)

/-- A completion that returns `true`, read back from the history. -/
theorem complete_after {ops : List Op} {hash : Bytes} {env : DiskBehaviour}
    (hret : (step denote (after denote dir disk ops) (.complete hash env)).2 = .flag true) :
    ∃ s before name since, (after denote dir disk ops).manager.find hash = some s ∧
      Opened hash (history denote dir disk ops) before name s.totalChunks since ∧
      s.savePath = directoryAfter dir before ++ ascii "/" ++ name ∧
      (∀ id : UInt32, id < s.totalChunks → (latestPayload hash id since).isSome) ∧
      (step denote (after denote dir disk ops) (.complete hash env)).1.disk =
        Function.update (after denote dir disk ops).disk (denote s.savePath)
          (some (env.store (latestPayloads hash s.totalChunks since))) := by
  rcases FileManager.completeTransfer_cases denote (after denote dir disk ops).manager hash env
    (after denote dir disk ops).disk with ⟨s, hfind, hcomplete, -, -, -, -, hdisk⟩ | ⟨hno, -, -⟩
  · obtain ⟨before, name, since, hopen, hpath, hchunks⟩ :=
      (tells_after denote dir disk ops).session hash s hfind
    refine ⟨s, before, name, since, hfind, hopen, hpath, fun id hid => ?_, ?_⟩
    · rw [← hchunks]
      exact (Held.isComplete_iff ((after denote dir disk ops).manager.held hash s hfind)).mp
        hcomplete id hid
    · have hwritten : s.written = latestPayloads hash s.totalChunks since := by
        simp only [written, latestPayloads, hchunks]
      rw [← hwritten]
      exact hdisk
  · simp [step, hno] at hret

/-- The file that a completed transfer writes is, chunk by chunk, what was added
last since the latest creation of its hash. -/
theorem completed_transfer_writes {ops : List Op} {hash : Bytes} {env : DiskBehaviour}
    (henv : env.Succeeds)
    (hret : (step denote (after denote dir disk ops) (.complete hash env)).2 = .flag true) :
    ∃ before name total since,
      Opened hash (history denote dir disk ops) before name total since ∧
      (∀ id : UInt32, id < total → (latestPayload hash id since).isSome) ∧
      (step denote (after denote dir disk ops) (.complete hash env)).1.disk
          (denote (directoryAfter dir before ++ ascii "/" ++ name)) =
        some (latestPayloads hash total since) := by
  obtain ⟨s, before, name, since, -, hopen, hpath, hall, hdisk⟩ :=
    complete_after denote dir disk hret
  refine ⟨before, name, s.totalChunks, since, hopen, hall, ?_⟩
  rw [hdisk, ← hpath, Function.update_self, henv.store_eq]

def rewrittenChunk : List Op :=
  [.create (ascii "h") (ascii "f") 2 0, .add (ascii "h") 1 [3, 4] 1, .add (ascii "h") 0 [9] 2,
    .add (ascii "h") 0 [1, 2] 3]

theorem completed_transfer_writes_rewritten :
    ∃ before name total since,
      Opened (ascii "h") (history id (ascii "d") (fun _ => none) rewrittenChunk) before name
        total since ∧
      (∀ id : UInt32, id < total → (latestPayload (ascii "h") id since).isSome) ∧
      (step id (after id (ascii "d") (fun _ => none) rewrittenChunk)
          (.complete (ascii "h") {})).1.disk
          (id (directoryAfter (ascii "d") before ++ ascii "/" ++ name)) =
        some (latestPayloads (ascii "h") total since) :=
  completed_transfer_writes id (ascii "d") (fun _ => none) ⟨rfl, rfl, rfl⟩ (by decide)

/-! ## The hash of a completed file -/

def Completes (ops pre : List Op) (hash : Bytes) (env : DiskBehaviour) : Prop :=
  (pre ++ [.complete hash env]) <+: ops ∧
    (step denote (after denote dir disk pre) (.complete hash env)).2 = .flag true

/-- Every completion of the run that returns `true` leaves a file with the hash of
its session at the save path. -/
def CompletedMeansVerified (ops : List Op) : Prop :=
  ∀ pre hash env, Completes denote dir disk ops pre hash env →
    ∃ s content, (after denote dir disk pre).manager.find hash = some s ∧
      (after denote dir disk (pre ++ [.complete hash env])).disk (denote s.savePath) =
        some content ∧
      Fips180.hexDigest content = hash

/-- At this point of the run the transfer has all its chunks, and the file system lets
its output open. -/
def ReadyToComplete (ops pre : List Op) (hash : Bytes) (env : DiskBehaviour) : Prop :=
  (pre ++ [.complete hash env]) <+: ops ∧
    (after denote dir disk pre).manager.isTransferComplete hash = true ∧
    env.createDirectories = true ∧ env.isOpen = true

theorem completes_iff_ready (ops pre : List Op) (hash : Bytes) (env : DiskBehaviour) :
    Completes denote dir disk ops pre hash env ↔ ReadyToComplete denote dir disk ops pre hash env := by
  refine and_congr_right fun _ => ?_
  cases hfind : (after denote dir disk pre).manager.find hash with
  | none => simp [step, FileManager.completeTransfer, FileManager.isTransferComplete, hfind]
  | some s =>
      simp only [step, Answer.flag.injEq]
      rw [FileManager.completeTransfer_returned denote hfind, Bool.and_eq_true, Bool.and_eq_true,
        and_assoc, FileManager.isTransferComplete, hfind]

/-- The payloads added last, as the file system stores them, hash to `hash`. -/
def PayloadsCheckOut (past : History) (hash : Bytes) (env : DiskBehaviour) : Prop :=
  ∃ before name total since, Opened hash past before name total since ∧
    Fips180.hexDigest (env.store (latestPayloads hash total since)) = hash

/-- The manager adds no check of its own: exactly the runs whose callers supplied
matching payloads, on a disk that stored them, complete with verified files. -/
theorem completedMeansVerified_iff (ops : List Op) :
    CompletedMeansVerified denote dir disk ops ↔
      ∀ pre hash env, ReadyToComplete denote dir disk ops pre hash env →
        PayloadsCheckOut (history denote dir disk pre) hash env := by
  simp only [CompletedMeansVerified, completes_iff_ready]
  refine forall_congr' fun pre => forall_congr' fun hash => forall_congr' fun env =>
    imp_congr_right fun hready => ?_
  have hc := (completes_iff_ready denote dir disk ops pre hash env).mpr hready
  obtain ⟨s, before, name, since, hfind, hopen, -, -, hdisk⟩ :=
    complete_after denote dir disk hc.2
  have hafter : (after denote dir disk (pre ++ [.complete hash env])).disk (denote s.savePath) =
      some (env.store (latestPayloads hash s.totalChunks since)) := by
    rw [after, Run.final_append, Run.final_cons, Run.final_nil, ← after, hdisk,
      Function.update_self]
  constructor
  · rintro ⟨t, content, ht, hcontent, hhash⟩
    obtain rfl : s = t := Option.some.inj (hfind.symm.trans ht)
    refine ⟨before, name, s.totalChunks, since, hopen, ?_⟩
    rw [Option.some.inj (hafter.symm.trans hcontent), hhash]
  · rintro ⟨before', name', total, since', hopen', hhash⟩
    obtain ⟨-, -, rfl, rfl⟩ := hopen.unique hopen'
    exact ⟨s, _, hfind, hafter, hhash⟩

end Completion

def unrelatedPayload : List Op :=
  [.create (ascii "abc") (ascii "f") 1 0, .add (ascii "abc") 0 [1] 1, .complete (ascii "abc") {}]

theorem unrelatedPayload_not_verified :
    ¬CompletedMeansVerified id (ascii "d") (fun _ => none) unrelatedPayload := by
  intro h
  obtain ⟨s, content, -, -, hhash⟩ :=
    h (unrelatedPayload.take 2) (ascii "abc") {} ⟨⟨[], rfl⟩, by decide⟩
  have hlen := Fips180.hexDigest_length content
  rw [hhash] at hlen
  exact absurd hlen (by decide)

end EggDelivery
