import EggDelivery.Library.Run
import EggDelivery.Manager.FileManager

/-!
# Runs of a FileManager

`Op` is a call that can change the manager. A history is the list of the calls
made so far with their answers, and `Tells` says how much of the manager it
determines: the directory in force and, for each live session, the latest
successful creation of its hash and the payloads added since.
-/

namespace EggDelivery

inductive Op where
  | setDownloadDirectory (dir : Bytes) (created : Bool)
  | create (hash name : Bytes) (total : UInt32) (now : Time)
  | add (hash : Bytes) (chunkId : UInt32) (data : Bytes) (now : Time)
  | complete (hash : Bytes) (env : DiskBehaviour)
  | cancel (hash : Bytes)
  | cleanup (maxIdleSeconds : UInt32) (clock : Nat → Time)

/-- What a call gives back: a flag, or what `cleanupIdleSessions` counts and
prints. -/
inductive Answer where
  | flag (returned : Bool)
  | cleaned (removed : Nat) (hashes : List Bytes)
deriving DecidableEq

structure World (Node : Type) where
  manager : FileManager
  disk : Disk Node

abbrev History := List (Op × Answer)

section Step

variable {Node : Type} [DecidableEq Node] (denote : Bytes → Node)

def step (w : World Node) : Op → World Node × Answer
  | .setDownloadDirectory dir created =>
      let r := w.manager.setDownloadDirectory dir created
      ({ w with manager := r.2 }, .flag r.1)
  | .create hash name total now =>
      let r := w.manager.createTransferSession hash name total now
      ({ w with manager := r.2 }, .flag r.1)
  | .add hash chunkId data now =>
      let r := w.manager.addChunkToSession hash chunkId data now
      ({ w with manager := r.2 }, .flag r.1)
  | .complete hash env =>
      let r := w.manager.completeTransfer denote hash env w.disk
      (⟨r.manager, r.disk⟩, .flag r.returned)
  | .cancel hash =>
      let r := w.manager.cancelTransfer hash
      ({ w with manager := r.2 }, .flag r.1)
  | .cleanup maxIdleSeconds clock =>
      let r := w.manager.cleanupIdleSessions maxIdleSeconds clock
      ({ w with manager := r.manager }, .cleaned r.removed r.cleaned)

def after (dir : Bytes) (disk : Disk Node) (ops : List Op) : World Node :=
  Run.final (step denote) ⟨FileManager.new dir, disk⟩ ops

def history (dir : Bytes) (disk : Disk Node) (ops : List Op) : History :=
  Run.log (step denote) ⟨FileManager.new dir, disk⟩ ops

end Step

/-! ## Reading a history -/

def directoryAfter (dir : Bytes) (past : History) : Bytes :=
  past.foldl
    (fun dir e =>
      match e with
      | (.setDownloadDirectory new _, .flag true) => new
      | _ => dir)
    dir

def Creates (hash : Bytes) (e : Op × Answer) : Prop :=
  ∃ name total now, e = (.create hash name total now, .flag true)

/-- A successful completion or cancellation of `hash`, or a cleanup that took it. -/
def Removes (hash : Bytes) : Op × Answer → Prop
  | (.complete h _, .flag true) => h = hash
  | (.cancel h, .flag true) => h = hash
  | (.cleanup _ _, .cleaned _ hashes) => hash ∈ hashes
  | _ => False

def addedPayload (hash : Bytes) (id : UInt32) : Op × Answer → Option Bytes
  | (.add h i data _, .flag true) => if h = hash ∧ i = id then some data else none
  | _ => none

/-- The payload of the most recent successful `add` of this chunk. -/
def latestPayload (hash : Bytes) (id : UInt32) (past : History) : Option Bytes :=
  past.reverse.findSome? (addedPayload hash id)

/-- The history splits at the latest successful creation of `hash`, and nothing
has removed it since. -/
structure Opened (hash : Bytes) (past before : History) (name : Bytes) (total : UInt32)
    (since : History) : Prop where
  split : ∃ now, past = before ++ (.create hash name total now, .flag true) :: since
  latest : ∀ e ∈ since, ¬Creates hash e
  kept : ∀ e ∈ since, ¬Removes hash e

@[simp] theorem latestPayload_nil (hash : Bytes) (id : UInt32) :
    latestPayload hash id [] = none := rfl

theorem latestPayload_concat (hash : Bytes) (id : UInt32) (past : History) (e : Op × Answer) :
    latestPayload hash id (past ++ [e]) =
      (addedPayload hash id e).or (latestPayload hash id past) := by
  rw [latestPayload, List.reverse_append, List.findSome?_append, List.reverse_singleton,
    List.findSome?_singleton]
  rfl

theorem latestPayload_eq_some_iff {hash : Bytes} {id : UInt32} {past : History}
    {data : Bytes} :
    latestPayload hash id past = some data ↔
      ∃ before now since, past = before ++ (.add hash id data now, .flag true) :: since ∧
        ∀ e ∈ since, addedPayload hash id e = none := by
  rw [latestPayload, List.findSome?_eq_some_iff]
  constructor
  · rintro ⟨l₁, e, l₂, hsplit, he, hnone⟩
    have hpast : past = l₂.reverse ++ e :: l₁.reverse := by
      rw [← List.reverse_reverse past, hsplit]
      simp
    obtain ⟨now, rfl⟩ : ∃ now, e = (.add hash id data now, .flag true) := by
      unfold addedPayload at he
      split at he
      next h i data' now =>
        split at he
        next heq =>
          obtain ⟨rfl, rfl⟩ := heq
          exact ⟨now, by rw [Option.some.inj he]⟩
        next => cases he
      next => cases he
    exact ⟨l₂.reverse, now, l₁.reverse, hpast, fun e' he' => hnone e' (by simpa using he')⟩
  · rintro ⟨before, now, since, rfl, hnone⟩
    refine ⟨since.reverse, (.add hash id data now, .flag true), before.reverse, by simp, ?_, ?_⟩
    · simp [addedPayload]
    · intro e' he'
      exact hnone e' (by simpa using he')

theorem directoryAfter_concat (dir : Bytes) (past : History) (e : Op × Answer) :
    directoryAfter dir (past ++ [e]) = directoryAfter (directoryAfter dir past) [e] := by
  rw [directoryAfter, List.foldl_append]
  rfl

theorem Opened.fresh (hash : Bytes) (past : History) (name : Bytes) (total : UInt32)
    (now : Time) :
    Opened hash (past ++ [(.create hash name total now, .flag true)]) past name total [] where
  split := ⟨now, rfl⟩
  latest := by simp
  kept := by simp

theorem Opened.extend {hash : Bytes} {past before : History} {name : Bytes} {total : UInt32}
    {since : History} (h : Opened hash past before name total since) {e : Op × Answer}
    (hc : ¬Creates hash e) (hr : ¬Removes hash e) :
    Opened hash (past ++ [e]) before name total (since ++ [e]) where
  split := by
    obtain ⟨now, rfl⟩ := h.split
    exact ⟨now, by simp⟩
  latest := by
    intro e' he'
    rcases List.mem_append.mp he' with he' | he'
    · exact h.latest e' he'
    · rwa [List.mem_singleton.mp he']
  kept := by
    intro e' he'
    rcases List.mem_append.mp he' with he' | he'
    · exact h.kept e' he'
    · rwa [List.mem_singleton.mp he']

theorem Opened.unique {hash : Bytes} {past b₁ b₂ : History} {n₁ n₂ : Bytes}
    {t₁ t₂ : UInt32} {s₁ s₂ : History} (h₁ : Opened hash past b₁ n₁ t₁ s₁)
    (h₂ : Opened hash past b₂ n₂ t₂ s₂) : b₁ = b₂ ∧ n₁ = n₂ ∧ t₁ = t₂ ∧ s₁ = s₂ := by
  obtain ⟨now₁, hs₁⟩ := h₁.split
  obtain ⟨now₂, hs₂⟩ := h₂.split
  rw [hs₁] at hs₂
  rcases List.append_eq_append_iff.mp hs₂ with ⟨mid, hb, hm⟩ | ⟨mid, hb, hm⟩
  all_goals cases mid with
    | nil =>
        simp only [List.nil_append, List.cons.injEq, Prod.mk.injEq, Op.create.injEq] at hm
        obtain ⟨⟨⟨-, hn, ht, -⟩, -⟩, hs⟩ := hm
        simp_all
    | cons e mid =>
        obtain ⟨rfl, hs⟩ := List.cons.inj hm
        exfalso
        first
          | exact h₁.latest _ (by rw [hs]; simp) ⟨n₂, t₂, now₂, rfl⟩
          | exact h₂.latest _ (by rw [hs]; simp) ⟨n₁, t₁, now₁, rfl⟩

/-! ## The history determines the manager -/

/-- What a history says about the session stored under `hash`. -/
def SessionTold (dir hash : Bytes) (past : History) (s : FileTransferSession) : Prop :=
  ∃ before name since, Opened hash past before name s.totalChunks since ∧
    s.savePath = directoryAfter dir before ++ ascii "/" ++ name ∧
    ∀ id, s.chunks[id]? = latestPayload hash id since

structure Tells (dir : Bytes) (past : History) (fm : FileManager) : Prop where
  directory : fm.downloadDir = directoryAfter dir past
  session : ∀ hash s, fm.find hash = some s → SessionTold dir hash past s

theorem tells_new (dir : Bytes) : Tells dir [] (FileManager.new dir) where
  directory := rfl
  session := by simp

/-- A session that survives an entry gains at most the payload the entry added. -/
theorem SessionTold.carry {dir hash : Bytes} {past : History} {s s' : FileTransferSession}
    {e : Op × Answer} (h : SessionTold dir hash past s) (hc : ¬Creates hash e)
    (hr : ¬Removes hash e) (hp : s'.savePath = s.savePath)
    (ht : s'.totalChunks = s.totalChunks)
    (hg : ∀ id, s'.chunks[id]? = (addedPayload hash id e).or s.chunks[id]?) :
    SessionTold dir hash (past ++ [e]) s' := by
  obtain ⟨before, name, since, hopen, hpath, hchunks⟩ := h
  refine ⟨before, name, since ++ [e], ?_, hp.trans hpath, fun id => ?_⟩
  · rw [ht]
    exact hopen.extend hc hr
  · rw [hg, hchunks, latestPayload_concat]

/-- An entry about another hash, or one that changed nothing, leaves a session told. -/
theorem SessionTold.skip {dir hash : Bytes} {past : History} {s : FileTransferSession}
    {e : Op × Answer} (h : SessionTold dir hash past s) (hc : ¬Creates hash e)
    (hr : ¬Removes hash e) (ha : ∀ id, addedPayload hash id e = none) :
    SessionTold dir hash (past ++ [e]) s :=
  h.carry hc hr rfl rfl fun id => by rw [ha id, Option.none_or]

theorem tells_create {dir : Bytes} {past : History} {fm : FileManager} (h : Tells dir past fm)
    (hash name : Bytes) (total : UInt32) (now : Time) :
    Tells dir
      (past ++ [(.create hash name total now,
        .flag (fm.createTransferSession hash name total now).1)])
      (fm.createTransferSession hash name total now).2 := by
  cases hfind : fm.find hash with
  | some s =>
      rw [FileManager.createTransferSession_some hfind]
      refine ⟨by rw [directoryAfter_concat]; exact h.directory, fun other t ht => ?_⟩
      refine (h.session other t ht).skip ?_ (by simp [Removes]) fun id => rfl
      rintro ⟨name', total', now', heq⟩
      simp at heq
  | none =>
      rw [FileManager.createTransferSession_none hfind]
      refine ⟨by rw [directoryAfter_concat]; exact h.directory, fun other t ht => ?_⟩
      rw [FileManager.find_put] at ht
      split at ht
      next heq =>
        obtain rfl : hash = other := heq
        cases ht
        refine ⟨past, name, [], Opened.fresh hash past name total now, ?_, fun id => ?_⟩
        · rw [← h.directory]
          rfl
        · simp [FileTransferSession.new]
      next hne =>
        refine (h.session other t ht).skip ?_ (by simp [Removes]) fun id => rfl
        rintro ⟨name', total', now', heq⟩
        simp only [Prod.mk.injEq, Op.create.injEq] at heq
        exact hne heq.1.1

theorem tells_add {dir : Bytes} {past : History} {fm : FileManager} (h : Tells dir past fm)
    (hash : Bytes) (chunkId : UInt32) (data : Bytes) (now : Time) :
    Tells dir
      (past ++ [(.add hash chunkId data now,
        .flag (fm.addChunkToSession hash chunkId data now).1)])
      (fm.addChunkToSession hash chunkId data now).2 := by
  cases hfind : fm.find hash with
  | none =>
      rw [FileManager.addChunkToSession_none hfind]
      refine ⟨by rw [directoryAfter_concat]; exact h.directory, fun other t ht => ?_⟩
      exact (h.session other t ht).skip (by simp [Creates]) (by simp [Removes]) fun id => rfl
  | some s =>
      rw [FileManager.addChunkToSession_some hfind]
      refine ⟨by rw [directoryAfter_concat]; exact h.directory, fun other t ht => ?_⟩
      rw [FileManager.find_put, FileTransferSession.addChunk_fileHash, fm.keyed hash s hfind] at ht
      split at ht
      next heq =>
        obtain rfl : hash = other := heq
        cases ht
        refine (h.session hash s hfind).carry (by simp [Creates]) (by simp [Removes]) (by simp)
          (by simp) fun id => ?_
        rw [FileTransferSession.addChunk_chunks, FileTransferSession.addChunk_returned]
        by_cases hlt : chunkId < s.totalChunks
        · by_cases hid : chunkId = id
          · simp [addedPayload, hlt, ← hid]
          · simp [addedPayload, hlt, hid]
        · simp [addedPayload, hlt]
      next hne =>
        refine (h.session other t ht).skip (by simp [Creates]) (by simp [Removes]) fun id => ?_
        cases (s.addChunk chunkId data now).1 <;> simp [addedPayload, hne]

theorem tells_remove {dir : Bytes} {past : History} {fm fm' : FileManager} {e : Op × Answer}
    (h : Tells dir past fm) (hdir : fm'.downloadDir = fm.downloadDir)
    (he : ∀ dir, directoryAfter dir [e] = dir)
    (hfind : ∀ other s, fm'.find other = some s → fm.find other = some s ∧ ¬Removes other e)
    (hc : ∀ other, ¬Creates other e) (ha : ∀ other id, addedPayload other id e = none) :
    Tells dir (past ++ [e]) fm' where
  directory := by rw [directoryAfter_concat, he, hdir, h.directory]
  session := by
    intro other s hs
    obtain ⟨hold, hr⟩ := hfind other s hs
    exact (h.session other s hold).skip (hc other) hr (ha other)

theorem tells_step {Node : Type} [DecidableEq Node] (denote : Bytes → Node) {dir : Bytes}
    {past : History} {w : World Node} (h : Tells dir past w.manager) (op : Op) :
    Tells dir (past ++ [(op, (step denote w op).2)]) (step denote w op).1.manager := by
  cases op with
  | setDownloadDirectory dir' created =>
      cases created with
      | true =>
          refine ⟨by rw [directoryAfter_concat]; rfl, fun other t ht => ?_⟩
          exact (h.session other t ht).skip (by simp [Creates]) (by simp [Removes]) fun id => rfl
      | false =>
          refine ⟨by rw [directoryAfter_concat]; exact h.directory, fun other t ht => ?_⟩
          exact (h.session other t ht).skip (by simp [Creates]) (by simp [Removes]) fun id => rfl
  | create hash name total now => exact tells_create h hash name total now
  | add hash chunkId data now => exact tells_add h hash chunkId data now
  | complete hash env =>
      simp only [step]
      refine tells_remove h (FileManager.downloadDir_completeTransfer _ _ _ _ _) (fun _ => rfl)
        (fun other t ht => ?_) (by simp [Creates]) fun _ _ => rfl
      obtain ⟨hne, hold⟩ := FileManager.of_find_completeTransfer ht
      refine ⟨hold, ?_⟩
      cases hret : (w.manager.completeTransfer denote hash env w.disk).returned with
      | true => exact fun heq => hne ⟨heq, hret⟩
      | false => exact id
  | cancel hash =>
      simp only [step, FileManager.cancelTransfer_eq]
      refine tells_remove h rfl (fun _ => rfl) (fun other t ht => ?_) (by simp [Creates])
        fun _ _ => rfl
      obtain ⟨hne, hold⟩ := FileManager.of_find_drop ht
      refine ⟨hold, ?_⟩
      cases (w.manager.find hash).isSome with
      | true => exact hne
      | false => exact id
  | cleanup maxIdleSeconds clock =>
      refine tells_remove h (FileManager.cleanupLoop_spec _ _ _ _ _).1 (fun _ => rfl)
        (fun other t ht => ?_) (by simp [Creates]) fun _ _ => rfl
      exact (FileManager.of_find_cleanupIdleSessions ht).symm

/-- After every run the history tells the manager. -/
theorem tells_after {Node : Type} [DecidableEq Node] (denote : Bytes → Node) (dir : Bytes)
    (disk : Disk Node) (ops : List Op) :
    Tells dir (history denote dir disk ops) (after denote dir disk ops).manager :=
  Run.log_invariant (step denote) (A := fun _ => True)
    (P := fun past w => Tells dir past w.manager) (tells_new dir)
    (fun _ _ op _ h => tells_step denote h op) ops fun _ _ => trivial

end EggDelivery
