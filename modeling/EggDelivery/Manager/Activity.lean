import EggDelivery.Manager.Cleanup

/-!
# Idle sessions over whole runs

A session is idle since its creation or its latest successful `addChunkToSession`,
whichever came last. What `cleanupIdleSessions` decides about a session is read off the
calls of the whole run, queries included.
-/

namespace EggDelivery

/-! ## Runs with queries -/

inductive Query where
  | getDownloadDirectory
  | getSessionProgress (hash : Bytes)
  | isTransferComplete (hash : Bytes)
  | getActiveSessions
  | sessionCount

inductive QueryReply where
  | directory (dir : Bytes)
  | progress (percentage : Int32)
  | flag (complete : Bool)
  | hashes (active : List Bytes)
  | count (n : Nat)
deriving DecidableEq

def FileManager.ask (fm : FileManager) : Query → QueryReply
  | .getDownloadDirectory => .directory fm.getDownloadDirectory
  | .getSessionProgress hash => .progress (fm.getSessionProgress hash)
  | .isTransferComplete hash => .flag (fm.isTransferComplete hash)
  | .getActiveSessions => .hashes fm.getActiveSessions
  | .sessionCount => .count fm.sessionCount

abbrev CallLog := List ((Op ⊕ Query) × (Answer ⊕ QueryReply))

section Calls

variable {Node : Type} [DecidableEq Node] (denote : Bytes → Node)

def call (w : World Node) : Op ⊕ Query → World Node × (Answer ⊕ QueryReply)
  | .inl op => ((step denote w op).1, .inl (step denote w op).2)
  | .inr query => (w, .inr (w.manager.ask query))

def called (dir : Bytes) (disk : Disk Node) (calls : List (Op ⊕ Query)) : World Node :=
  Run.final (call denote) ⟨FileManager.new dir, disk⟩ calls

def callLog (dir : Bytes) (disk : Disk Node) (calls : List (Op ⊕ Query)) : CallLog :=
  Run.log (call denote) ⟨FileManager.new dir, disk⟩ calls

end Calls

/-! ## The latest activity -/

/-- The clock reading of a successful creation of this hash, or of a successful `add` to it. -/
def activityOf (hash : Bytes) : (Op ⊕ Query) × (Answer ⊕ QueryReply) → Option Time
  | (.inl (.create h _ _ now), .inl (.flag true)) => if h = hash then some now else none
  | (.inl (.add h _ _ now), .inl (.flag true)) => if h = hash then some now else none
  | _ => none

def lastActivity (hash : Bytes) (past : CallLog) : Option Time :=
  past.reverse.findSome? (activityOf hash)

theorem lastActivity_concat (hash : Bytes) (past : CallLog)
    (e : (Op ⊕ Query) × (Answer ⊕ QueryReply)) :
    lastActivity hash (past ++ [e]) = (activityOf hash e).or (lastActivity hash past) := by
  rw [lastActivity, List.reverse_append, List.findSome?_append, List.reverse_singleton,
    List.findSome?_singleton]
  rfl

/-- Every session was last active when the calls say it was. -/
def ActiveAsTold (past : CallLog) (fm : FileManager) : Prop :=
  ∀ hash s, fm.find hash = some s → lastActivity hash past = some s.lastActive

/-- A call that is no activity and leaves no session but old ones. -/
theorem ActiveAsTold.skip {past : CallLog} {fm fm' : FileManager} (h : ActiveAsTold past fm)
    {e : (Op ⊕ Query) × (Answer ⊕ QueryReply)}
    (hfind : ∀ hash s, fm'.find hash = some s → fm.find hash = some s)
    (he : ∀ hash, activityOf hash e = none) : ActiveAsTold (past ++ [e]) fm' := by
  intro hash s hs
  rw [lastActivity_concat, he, Option.none_or]
  exact h hash s (hfind hash s hs)

theorem activeAsTold_create {past : CallLog} {fm : FileManager} (h : ActiveAsTold past fm)
    (hash name : Bytes) (total : UInt32) (now : Time) :
    ActiveAsTold
      (past ++ [(.inl (.create hash name total now),
        .inl (.flag (fm.createTransferSession hash name total now).1))])
      (fm.createTransferSession hash name total now).2 := by
  cases hfind : fm.find hash with
  | some s =>
      rw [FileManager.createTransferSession_some hfind]
      exact h.skip (fun _ _ ht => ht) fun _ => rfl
  | none =>
      rw [FileManager.createTransferSession_none hfind]
      intro other t ht
      rw [lastActivity_concat, activityOf]
      rw [FileManager.find_put] at ht
      split at ht
      next heq =>
        obtain rfl : hash = other := heq
        cases ht
        rw [if_pos rfl]
        rfl
      next hne =>
        have hother : hash ≠ other := hne
        rw [if_neg hother, Option.none_or]
        exact h other t ht

theorem activeAsTold_add {past : CallLog} {fm : FileManager} (h : ActiveAsTold past fm)
    (hash : Bytes) (chunkId : UInt32) (data : Bytes) (now : Time) :
    ActiveAsTold
      (past ++ [(.inl (.add hash chunkId data now),
        .inl (.flag (fm.addChunkToSession hash chunkId data now).1))])
      (fm.addChunkToSession hash chunkId data now).2 := by
  cases hfind : fm.find hash with
  | none =>
      rw [FileManager.addChunkToSession_none hfind]
      exact h.skip (fun _ _ ht => ht) fun _ => rfl
  | some s =>
      rw [FileManager.addChunkToSession_some hfind]
      intro other t ht
      rw [lastActivity_concat]
      rw [FileManager.find_put, FileTransferSession.addChunk_fileHash, fm.keyed hash s hfind] at ht
      split at ht
      next heq =>
        obtain rfl : hash = other := heq
        cases ht
        rw [FileTransferSession.addChunk_lastActive, FileTransferSession.addChunk_returned]
        by_cases hlt : chunkId < s.totalChunks
        · simp [activityOf, hlt]
        · simp [activityOf, hlt, h hash s hfind]
      next hne =>
        have hother : activityOf other (.inl (.add hash chunkId data now),
            .inl (.flag (s.addChunk chunkId data now).1)) = none := by
          cases (s.addChunk chunkId data now).1 <;> simp [activityOf, hne]
        rw [hother, Option.none_or]
        exact h other t ht

theorem activeAsTold_call {Node : Type} [DecidableEq Node] (denote : Bytes → Node)
    {past : CallLog} {w : World Node} (h : ActiveAsTold past w.manager) (c : Op ⊕ Query) :
    ActiveAsTold (past ++ [(c, (call denote w c).2)]) (call denote w c).1.manager := by
  cases c with
  | inr query => exact h.skip (fun _ _ hs => hs) fun _ => rfl
  | inl op =>
      cases op with
      | setDownloadDirectory dir created =>
          cases created <;> exact h.skip (fun _ _ hs => hs) fun _ => rfl
      | create hash name total now => exact activeAsTold_create h hash name total now
      | add hash chunkId data now => exact activeAsTold_add h hash chunkId data now
      | complete hash env =>
          exact h.skip (fun _ _ hs => (FileManager.of_find_completeTransfer hs).2) fun _ => rfl
      | cancel hash =>
          refine h.skip (fun other s hs => ?_) fun _ => rfl
          simp only [call, step, FileManager.cancelTransfer_eq] at hs
          exact (FileManager.of_find_drop hs).2
      | cleanup maxIdleSeconds clock =>
          exact h.skip (fun _ _ hs => (FileManager.of_find_cleanupIdleSessions hs).2) fun _ => rfl

theorem activeAsTold_called {Node : Type} [DecidableEq Node] (denote : Bytes → Node) (dir : Bytes)
    (disk : Disk Node) (calls : List (Op ⊕ Query)) :
    ActiveAsTold (callLog denote dir disk calls) (called denote dir disk calls).manager :=
  Run.log_invariant (call denote) (A := fun _ => True)
    (P := fun past w => ActiveAsTold past w.manager) (fun _ _ hs => by simp at hs)
    (fun _ _ c _ h => activeAsTold_call denote h c) calls fun _ _ => trivial

/-! ## Cleanup in a run -/

/-- What a cleanup does to the manager `fm` that the calls `past` have led to. -/
structure CleansExactly (past : CallLog) (fm : FileManager) (maxIdleSeconds : UInt32)
    (clock : Nat → Time) : Prop where
  /-- Erasing while iterating is what the model of the call computes. -/
  walk : fm.cleanupIdleSessions maxIdleSeconds clock =
    ⟨(fm.cleanupWalk maxIdleSeconds clock).removed, (fm.cleanupWalk maxIdleSeconds clock).cleaned,
      (fm.cleanupWalk maxIdleSeconds clock).manager⟩
  /-- Each session is tested once, in the order of the hashes. -/
  visits : (fm.cleanupWalk maxIdleSeconds clock).tested.map Prod.fst = fm.getActiveSessions
  once : fm.getActiveSessions.Nodup
  /-- A session is removed exactly if its last activity lies too far before the reading. -/
  removes : ∀ hash now, (hash, now) ∈ (fm.cleanupWalk maxIdleSeconds clock).tested →
    ∃ last, lastActivity hash past = some last ∧
      ((fm.cleanupWalk maxIdleSeconds clock).manager.find hash = none ↔
        (maxIdleSeconds.toNat : ℚ) < now - last)
  /-- Every other session is as it was. -/
  keeps : ∀ hash, (fm.cleanupWalk maxIdleSeconds clock).manager.find hash = none ∨
    (fm.cleanupWalk maxIdleSeconds clock).manager.find hash = fm.find hash
  returned : ∀ hash, hash ∈ (fm.cleanupWalk maxIdleSeconds clock).cleaned ↔
    (fm.find hash).isSome ∧ (fm.cleanupWalk maxIdleSeconds clock).manager.find hash = none
  removed : (fm.cleanupWalk maxIdleSeconds clock).removed =
    (fm.cleanupWalk maxIdleSeconds clock).cleaned.length
  count : (fm.cleanupWalk maxIdleSeconds clock).manager.sessionCount +
    (fm.cleanupWalk maxIdleSeconds clock).removed = fm.sessionCount

/-- After any calls to a fresh manager, a cleanup with any limit and any readings of the
clock removes the idle sessions and no others. -/
theorem cleanup_exact {Node : Type} [DecidableEq Node] (denote : Bytes → Node) (dir : Bytes)
    (disk : Disk Node) (calls : List (Op ⊕ Query)) (maxIdleSeconds : UInt32)
    (clock : Nat → Time) :
    CleansExactly (callLog denote dir disk calls) (called denote dir disk calls).manager
      maxIdleSeconds clock := by
  have htold := activeAsTold_called denote dir disk calls
  generalize callLog denote dir disk calls = past at htold ⊢
  generalize (called denote dir disk calls).manager = fm at htold ⊢
  have hwalk := FileManager.cleanedSoFar_walk fm maxIdleSeconds clock
  have hcleaned : ∀ hash, hash ∈ (fm.cleanupWalk maxIdleSeconds clock).cleaned ↔
      (fm.find hash).isSome ∧ (fm.cleanupWalk maxIdleSeconds clock).manager.find hash = none := by
    intro hash
    rw [hwalk.find]
    constructor
    · intro hmem
      exact ⟨(fm.mem_getActiveSessions hash).mp (hwalk.within hash hmem), if_pos hmem⟩
    · rintro ⟨hpresent, hgone⟩
      by_contra hnot
      rw [if_neg hnot] at hgone
      rw [hgone] at hpresent
      cases hpresent
  refine ⟨FileManager.cleanupIdleSessions_eq_walk maxIdleSeconds clock fm, hwalk.visits,
    Std.ExtTreeMap.nodup_keys, fun hash now htested => ?_, fun hash => ?_, hcleaned,
    hwalk.removed, hwalk.count⟩
  · obtain ⟨s, hs, hiff⟩ := hwalk.decides hash now htested
    refine ⟨s.lastActive, htold hash s hs, ?_⟩
    rw [hcleaned, hs] at hiff
    simpa [FileTransferSession.secondsIdle] using hiff
  · rw [hwalk.find]
    exact ite_eq_or_eq _ _ _

/-- Created at 0 s and at 7 s, with a limit of 5 s at 10 s. -/
example :
    let fm := (called id (ascii "d") (fun _ => none)
      [.inl (.create (ascii "a") (ascii "f") 1 0),
        .inl (.create (ascii "b") (ascii "g") 1 7)]).manager
    let cleanup := fm.cleanupIdleSessions 5 fun _ => 10
    cleanup.cleaned = [ascii "a"] ∧ cleanup.manager.getActiveSessions = [ascii "b"] := by
  decide +kernel

end EggDelivery
