import EggDelivery.Library.Run
import EggDelivery.Manager.Session

/-!
# Runs of one session

A session on its own under any sequence of `addChunk`, `touch` and `clearCache`. Its
flags record which ids have been offered and nothing else, so every view of the
progress is a statement about that set.
-/

namespace EggDelivery

inductive SessionCall where
  | addChunk (chunkId : UInt32) (data : Bytes) (now : Time)
  | touch (now : Time)
  | clearCache

def SessionCall.offers : SessionCall → Option UInt32
  | .addChunk chunkId _ _ => some chunkId
  | _ => none

def offered (calls : List SessionCall) : List UInt32 := calls.filterMap SessionCall.offers

def idsBelow (total : UInt32) : List UInt32 := (List.range total.toNat).map UInt32.ofNat

def received (total : UInt32) (calls : List SessionCall) : Nat :=
  (idsBelow total).countP fun id => id ∈ offered calls

namespace FileTransferSession

def perform (s : FileTransferSession) : SessionCall → FileTransferSession × Option Bool
  | .addChunk chunkId data now =>
      ((s.addChunk chunkId data now).2, some (s.addChunk chunkId data now).1)
  | .touch now => (s.touch now, none)
  | .clearCache => (s.clearCache, none)

def afterCalls (s : FileTransferSession) (calls : List SessionCall) : FileTransferSession :=
  Run.final perform s calls

theorem afterCalls_append (s : FileTransferSession) (calls more : List SessionCall) :
    s.afterCalls (calls ++ more) = (s.afterCalls calls).afterCalls more :=
  Run.final_append perform s calls more

end FileTransferSession

/-! ## Ids -/

theorem offered_append (calls more : List SessionCall) :
    offered (calls ++ more) = offered calls ++ offered more :=
  List.filterMap_append

@[simp] theorem idsBelow_length (total : UInt32) : (idsBelow total).length = total.toNat := by
  simp [idsBelow]

theorem toNat_of_lt {total : UInt32} {i : Nat} (hi : i < total.toNat) :
    (UInt32.ofNat i).toNat = i :=
  UInt32.toNat_ofNat_of_lt' (lt_trans hi total.toNat_lt)

theorem getElem?_idsBelow {total : UInt32} {i : Nat} (hi : i < total.toNat) :
    (idsBelow total)[i]? = some (UInt32.ofNat i) := by
  rw [idsBelow, List.getElem?_map, List.getElem?_range hi, Option.map_some]

theorem mem_idsBelow {total id : UInt32} : id ∈ idsBelow total ↔ id < total := by
  simp only [idsBelow, List.mem_map, List.mem_range, UInt32.lt_iff_toNat_lt]
  constructor
  · rintro ⟨i, hi, rfl⟩
    rwa [toNat_of_lt hi]
  · intro hid
    exact ⟨id.toNat, hid, UInt32.ofNat_toNat⟩

theorem idsBelow_sorted (total : UInt32) : (idsBelow total).Pairwise (· < ·) := by
  rw [idsBelow, List.pairwise_map]
  refine List.pairwise_lt_range.imp_of_mem fun hi hj hlt => ?_
  rw [UInt32.lt_iff_toNat_lt, toNat_of_lt (List.mem_range.mp hi),
    toNat_of_lt (List.mem_range.mp hj)]
  exact hlt

/-! ## The flags -/

def flagsFor (total : UInt32) (ids : List UInt32) : List Bool :=
  (idsBelow total).map fun id => decide (id ∈ ids)

theorem flagsFor_concat (total : UInt32) (ids : List UInt32) (id : UInt32) :
    flagsFor total (ids ++ [id]) = (flagsFor total ids).set id.toNat true := by
  refine List.ext_getElem? fun i => ?_
  by_cases hi : i < total.toNat
  · simp only [flagsFor, List.getElem?_set, List.getElem?_map, getElem?_idsBelow hi,
      List.length_map, idsBelow_length]
    by_cases heq : id.toNat = i
    · have hid : UInt32.ofNat i = id := by rw [← heq, UInt32.ofNat_toNat]
      simp [heq, hi, hid]
    · have hid : UInt32.ofNat i ≠ id := by
        rintro rfl
        exact heq (toNat_of_lt hi)
      simp [heq, hid]
  · rw [List.getElem?_eq_none (by simpa [flagsFor] using hi),
      List.getElem?_eq_none (by simpa [flagsFor] using hi)]

namespace FileTransferSession

theorem addChunk_receivedFlags (s : FileTransferSession) (chunkId : UInt32) (data : Bytes)
    (now : Time) :
    (s.addChunk chunkId data now).2.receivedFlags = s.receivedFlags.set chunkId.toNat true := by
  unfold addChunk
  split
  next h =>
    refine (List.set_eq_of_length_le ?_).symm
    rw [s.flags_length]
    exact UInt32.le_iff_toNat_le.mp h
  next => rfl

/-- The flags show the ids that were offered; `touch` and `clearCache` leave them alone. -/
structure Offered (total : UInt32) (past : List SessionCall) (s : FileTransferSession) :
    Prop where
  total_eq : s.totalChunks = total
  flags_eq : s.receivedFlags = flagsFor total (offered past)

theorem offered_new (hash path : Bytes) (total : UInt32) (now : Time) :
    Offered total [] (new hash path total now) where
  total_eq := rfl
  flags_eq := by
    simp [new, flagsFor, offered, idsBelow, Function.comp_def]

theorem offered_step {total : UInt32} {past : List SessionCall} {s : FileTransferSession}
    (h : Offered total past s) (c : SessionCall) : Offered total (past ++ [c]) (s.perform c).1 := by
  cases c with
  | addChunk chunkId data now =>
      refine ⟨by rw [perform, addChunk_totalChunks, h.total_eq], ?_⟩
      rw [perform, addChunk_receivedFlags, h.flags_eq, offered_append]
      exact (flagsFor_concat total (offered past) chunkId).symm
  | touch now =>
      refine ⟨h.total_eq, ?_⟩
      rw [offered_append]
      exact h.flags_eq.trans (congrArg _ (List.append_nil _).symm)
  | clearCache =>
      refine ⟨h.total_eq, ?_⟩
      rw [offered_append]
      exact h.flags_eq.trans (congrArg _ (List.append_nil _).symm)

theorem offered_after (hash path : Bytes) (total : UInt32) (now : Time)
    (calls : List SessionCall) :
    Offered total calls ((new hash path total now).afterCalls calls) :=
  Run.history_invariant perform (A := fun _ _ => True) (offered_new hash path total now)
    (fun _ _ c _ h => offered_step h c) calls fun _ _ _ => trivial

/-! ## The views of the progress -/

section Views

variable {total : UInt32} {past : List SessionCall} {s : FileTransferSession}

theorem Offered.getMissingChunks_eq (h : Offered total past s) :
    s.getMissingChunks = (idsBelow total).filter fun id => id ∉ offered past := by
  rw [getMissingChunks, h.total_eq, h.flags_eq, idsBelow, List.filter_map]
  refine congrArg _ (List.filter_congr fun i hi => ?_)
  rw [flagsFor, List.getElem?_map, getElem?_idsBelow (List.mem_range.mp hi)]
  simp

theorem Offered.mem_getMissingChunks (h : Offered total past s) {id : UInt32} :
    id ∈ s.getMissingChunks ↔ id < total ∧ id ∉ offered past := by
  rw [h.getMissingChunks_eq, List.mem_filter, mem_idsBelow, decide_eq_true_iff]

theorem Offered.isComplete_iff (h : Offered total past s) :
    s.isComplete = true ↔ ∀ id, id < total → id ∈ offered past := by
  rw [isComplete, h.flags_eq, flagsFor, List.all_map, List.all_eq_true]
  simp [mem_idsBelow]

/-- Counting in `uint32_t` does not wrap as long as the flags are that few. -/
theorem foldl_count {flags : List Bool} {n : UInt32}
    (h : n.toNat + flags.length < 2 ^ 32) :
    (flags.foldl (fun count flag => if flag then count + 1 else count) n).toNat =
      n.toNat + flags.count true := by
  induction flags generalizing n with
  | nil => rfl
  | cons flag flags ih =>
      rw [List.length_cons] at h
      cases flag with
      | false =>
          rw [List.foldl_cons, if_neg Bool.false_ne_true, ih (by omega), List.count_cons_of_ne]
          decide
      | true =>
          have hnext : (n + 1).toNat = n.toNat + 1 := by
            rw [UInt32.toNat_add, UInt32.toNat_one]
            exact Nat.mod_eq_of_lt (by omega)
          rw [List.foldl_cons, if_pos rfl, ih (by omega), hnext, List.count_cons_self]
          omega

theorem Offered.getReceivedChunkCount_toNat (h : Offered total past s) :
    s.getReceivedChunkCount.toNat = received total past := by
  have hlen : (0 : UInt32).toNat + s.receivedFlags.length < 2 ^ 32 := by
    rw [s.flags_length]
    simpa using s.totalChunks.toNat_lt
  rw [getReceivedChunkCount, foldl_count hlen, h.flags_eq, flagsFor, List.count, List.countP_map,
    received]
  simp [Function.comp_def]

theorem Offered.received_add_missing (h : Offered total past s) :
    received total past + s.getMissingChunks.length = total.toNat := by
  rw [h.getMissingChunks_eq, ← List.countP_eq_length_filter, received, ← idsBelow_length total]
  have hsplit := List.length_eq_countP_add_countP (fun id => decide (id ∈ offered past))
    (l := idsBelow total)
  simpa using hsplit.symm

theorem Offered.isComplete_iff_missing (h : Offered total past s) :
    s.isComplete = true ↔ s.getMissingChunks = [] := by
  rw [h.isComplete_iff, List.eq_nil_iff_forall_not_mem]
  simp [h.mem_getMissingChunks]

end Views

/-- What the accessors say about a session after some calls. -/
structure ViewsAgree (total : UInt32) (calls : List SessionCall) (s : FileTransferSession) :
    Prop where
  missing_sorted : s.getMissingChunks.Pairwise (· < ·)
  mem_missing : ∀ id, id ∈ s.getMissingChunks ↔ id < total ∧ id ∉ offered calls
  count_add_missing : s.getReceivedChunkCount.toNat + s.getMissingChunks.length = total.toNat
  complete_iff_missing : s.isComplete = true ↔ s.getMissingChunks = []
  missing_iff_count : s.getMissingChunks = [] ↔ s.getReceivedChunkCount = total
  refill : ∀ more, (∀ id ∈ s.getMissingChunks, id ∈ offered more) →
    (s.afterCalls more).isComplete = true

/-- In every run of a session the views of its progress agree with each other and with
the ids offered, and the flags depend on nothing else. -/
theorem progress_views (hash path : Bytes) (total : UInt32) (now : Time)
    (calls : List SessionCall) :
    ViewsAgree total calls ((new hash path total now).afterCalls calls) ∧
      ∀ hash' path' now' calls',
        (∀ id, id < total → (id ∈ offered calls ↔ id ∈ offered calls')) →
          ((new hash path total now).afterCalls calls).receivedFlags =
            ((new hash' path' total now').afterCalls calls').receivedFlags := by
  have h := offered_after hash path total now calls
  refine ⟨⟨?_, fun id => h.mem_getMissingChunks, ?_, h.isComplete_iff_missing, ?_,
    fun more hmore => ?_⟩, fun hash' path' now' calls' hsame => ?_⟩
  · rw [h.getMissingChunks_eq]
    exact (idsBelow_sorted total).filter _
  · rw [h.getReceivedChunkCount_toNat, h.received_add_missing]
  · have hsum := h.received_add_missing
    rw [← h.getReceivedChunkCount_toNat] at hsum
    rw [← List.length_eq_zero_iff, ← UInt32.toNat_inj]
    omega
  · rw [← afterCalls_append, (offered_after hash path total now (calls ++ more)).isComplete_iff]
    intro id hid
    rw [offered_append, List.mem_append]
    by_cases hin : id ∈ offered calls
    · exact Or.inl hin
    · exact Or.inr (hmore id (h.mem_getMissingChunks.mpr ⟨hid, hin⟩))
  · rw [h.flags_eq, (offered_after hash' path' total now' calls').flags_eq, flagsFor, flagsFor]
    refine List.map_congr_left fun id hid => ?_
    exact decide_eq_decide.mpr (hsame id (mem_idsBelow.mp hid))

end FileTransferSession

end EggDelivery
