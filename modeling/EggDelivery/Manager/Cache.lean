import Mathlib.Data.List.DropRight
import EggDelivery.Manager.SessionRuns

/-!
# What a session still holds

`clearCache` forgets the payloads and keeps the flags. From then on a chunk can be
neither missing nor there, `assembleFile` skips it and still returns `true`. A
session is sound as long as every id offered to it has been offered since the last
`clearCache`.
-/

namespace EggDelivery

def SessionCall.clears : SessionCall → Bool
  | .clearCache => true
  | _ => false

def SessionCall.payloadFor (id : UInt32) : SessionCall → Option Bytes
  | .addChunk chunkId data _ => if chunkId = id then some data else none
  | _ => none

def lastPayload (id : UInt32) (calls : List SessionCall) : Option Bytes :=
  calls.reverse.findSome? (SessionCall.payloadFor id)

def lastPayloads (total : UInt32) (calls : List SessionCall) : Bytes :=
  (idsBelow total).flatMap fun id => (lastPayload id calls).getD []

def sinceClear (calls : List SessionCall) : List SessionCall :=
  calls.rtakeWhile fun c => !c.clears

/-- Every id of the transfer that has been offered has been offered since the last
`clearCache`. -/
def OfferedSinceClear (total : UInt32) (calls : List SessionCall) : Prop :=
  ∀ id, id < total → id ∈ offered calls → id ∈ offered (sinceClear calls)

/-! ## Payloads -/

theorem lastPayload_append (id : UInt32) (calls more : List SessionCall) :
    lastPayload id (calls ++ more) = (lastPayload id more).or (lastPayload id calls) := by
  rw [lastPayload, List.reverse_append, List.findSome?_append]
  rfl

theorem lastPayload_isSome_iff {id : UInt32} {calls : List SessionCall} :
    (lastPayload id calls).isSome ↔ id ∈ offered calls := by
  rw [lastPayload, List.findSome?_isSome_iff, offered, List.mem_filterMap]
  refine exists_congr fun c => and_congr List.mem_reverse ?_
  cases c with
  | addChunk chunkId data now =>
      by_cases h : chunkId = id <;> simp [SessionCall.payloadFor, SessionCall.offers, h]
  | touch now => simp [SessionCall.payloadFor, SessionCall.offers]
  | clearCache => simp [SessionCall.payloadFor, SessionCall.offers]

theorem sinceClear_append (calls : List SessionCall) {more : List SessionCall}
    (h : ∀ c ∈ more, c.clears = false) : sinceClear (calls ++ more) = sinceClear calls ++ more := by
  have hall : ∀ c ∈ more.reverse, (!c.clears) = true := fun c hc => by
    rw [h c (List.mem_reverse.mp hc), Bool.not_false]
  rw [sinceClear, List.rtakeWhile, List.reverse_append, List.takeWhile_append_of_pos hall,
    List.reverse_append, List.reverse_reverse]
  rfl

theorem sinceClear_suffix (calls : List SessionCall) : sinceClear calls <:+ calls :=
  List.rtakeWhile_suffix _ calls

theorem lastPayload_sinceClear {id : UInt32} {calls : List SessionCall}
    (h : id ∈ offered (sinceClear calls)) :
    lastPayload id (sinceClear calls) = lastPayload id calls := by
  obtain ⟨front, hfront⟩ := sinceClear_suffix calls
  obtain ⟨data, hdata⟩ := Option.isSome_iff_exists.mp (lastPayload_isSome_iff.mpr h)
  conv_rhs => rw [← hfront]
  rw [lastPayload_append, hdata, Option.some_or]

namespace FileTransferSession

/-! ## The cache -/

def Cached (total : UInt32) (past : List SessionCall) (s : FileTransferSession) : Prop :=
  s.totalChunks = total ∧
    ∀ id, s.chunks[id]? = if id < total then lastPayload id (sinceClear past) else none

theorem cached_new (hash path : Bytes) (total : UInt32) (now : Time) :
    Cached total [] (new hash path total now) :=
  ⟨rfl, fun id => by simp [new, sinceClear, lastPayload]⟩

theorem cached_step {total : UInt32} {past : List SessionCall} {s : FileTransferSession}
    (h : Cached total past s) (c : SessionCall) : Cached total (past ++ [c]) (s.perform c).1 := by
  obtain ⟨htotal, hchunks⟩ := h
  cases c with
  | addChunk chunkId data now =>
      refine ⟨by rw [perform, addChunk_totalChunks, htotal], fun id => ?_⟩
      rw [perform, addChunk_chunks, hchunks, htotal,
        sinceClear_append _ (by simp [SessionCall.clears]), lastPayload_append]
      by_cases heq : chunkId = id
      · subst heq
        by_cases hlt : chunkId < total
        · simp [hlt, lastPayload, SessionCall.payloadFor]
        · simp [hlt]
      · simp [heq, lastPayload, SessionCall.payloadFor]
  | touch now =>
      refine ⟨htotal, fun id => ?_⟩
      rw [sinceClear_append _ (by simp [SessionCall.clears]), lastPayload_append]
      exact hchunks id
  | clearCache =>
      refine ⟨htotal, fun id => ?_⟩
      have hnone : sinceClear (past ++ [.clearCache]) = [] :=
        List.rtakeWhile_concat_neg _ _ _ (by simp [SessionCall.clears])
      simp [perform, clearCache, hnone, lastPayload]

theorem cached_after (hash path : Bytes) (total : UInt32) (now : Time)
    (calls : List SessionCall) :
    Cached total calls ((new hash path total now).afterCalls calls) :=
  Run.history_invariant perform (A := fun _ _ => True) (cached_new hash path total now)
    (fun _ _ c _ h => cached_step h c) calls fun _ _ _ => trivial

theorem savePath_step (s : FileTransferSession) (c : SessionCall) :
    (s.perform c).1.savePath = s.savePath := by
  cases c with
  | addChunk chunkId data now => exact addChunk_savePath s chunkId data now
  | touch now => rfl
  | clearCache => rfl

theorem written_eq (s : FileTransferSession) :
    s.written = (idsBelow s.totalChunks).flatMap fun id => (s.chunks[id]?).getD [] := by
  rw [written, idsBelow, List.flatMap_map]

/-- The calls are one `addChunk` for each of these ids, in some order. -/
def Resends (ids : List UInt32) (more : List SessionCall) : Prop :=
  (more.map SessionCall.offers).Perm (ids.map some)

/-- What is not missing is held, what is assembled is the file, and sending what is
missing completes it. -/
structure CacheIsHeld (s : FileTransferSession) (calls : List SessionCall) : Prop where
  held : ∀ id, id < s.totalChunks → id ∉ (s.afterCalls calls).getMissingChunks →
    id ∈ (s.afterCalls calls).chunks ∧ (s.afterCalls calls).chunks[id]? = lastPayload id calls
  assembled : ∀ (Node : Type) [DecidableEq Node] (denote : Bytes → Node) (env : DiskBehaviour)
    (disk : Disk Node), env.store = id →
    ((s.afterCalls calls).assembleFile denote env disk).returned = true →
      (∀ id, id < s.totalChunks → (lastPayload id calls).isSome) ∧
        ((s.afterCalls calls).assembleFile denote env disk).disk (denote s.savePath) =
          some (lastPayloads s.totalChunks calls)
  resent : ∀ more, Resends (s.afterCalls calls).getMissingChunks more →
    ∀ (Node : Type) [DecidableEq Node] (denote : Bytes → Node) (env : DiskBehaviour)
      (disk : Disk Node), env.Succeeds →
      ((s.afterCalls (calls ++ more)).assembleFile denote env disk).returned = true ∧
        ((s.afterCalls (calls ++ more)).assembleFile denote env disk).disk (denote s.savePath) =
          some (lastPayloads s.totalChunks (calls ++ more))

section Runs

variable (hash path : Bytes) (total : UInt32) (now : Time)

theorem savePath_afterCalls (calls : List SessionCall) :
    ((new hash path total now).afterCalls calls).savePath = path :=
  Run.invariant perform (P := fun s => s.savePath = path)
    (fun s c h => (savePath_step s c).trans h) rfl calls

variable {calls : List SessionCall}

theorem written_afterCalls (h : OfferedSinceClear total calls)
    (hall : ∀ id, id < total → id ∈ offered calls) :
    ((new hash path total now).afterCalls calls).written = lastPayloads total calls := by
  obtain ⟨htotal, hchunks⟩ := cached_after hash path total now calls
  rw [written_eq, htotal, lastPayloads, List.flatMap_def, List.flatMap_def]
  refine congrArg List.flatten (List.map_congr_left fun id hid => ?_)
  have hlt := mem_idsBelow.mp hid
  rw [hchunks, if_pos hlt, lastPayload_sinceClear (h id hlt (hall id hlt))]

/-- The assembly succeeds as soon as every id has been offered, whatever the cache still
holds. -/
theorem assembleFile_afterCalls {Node : Type} [DecidableEq Node] (denote : Bytes → Node)
    (env : DiskBehaviour) (disk : Disk Node) :
    (((new hash path total now).afterCalls calls).assembleFile denote env disk).returned = true ↔
      (∀ id, id < total → id ∈ offered calls) ∧ env.createDirectories = true ∧
        env.isOpen = true := by
  rw [assembleFile_returned, Bool.and_eq_true, Bool.and_eq_true,
    (offered_after hash path total now calls).isComplete_iff, and_assoc]

theorem assembleFile_disk {Node : Type} [DecidableEq Node] (denote : Bytes → Node)
    {env : DiskBehaviour} (disk : Disk Node) (hstore : env.store = id)
    (h : OfferedSinceClear total calls)
    (hret : (((new hash path total now).afterCalls calls).assembleFile denote env disk).returned =
      true) :
    (((new hash path total now).afterCalls calls).assembleFile denote env disk).disk
        (denote path) = some (lastPayloads total calls) := by
  obtain ⟨hall, hd, ho⟩ := (assembleFile_afterCalls hash path total now denote env disk).mp hret
  have hc := (offered_after hash path total now calls).isComplete_iff.mpr hall
  simp [assembleFile, hc, hd, ho, savePath_afterCalls,
    written_afterCalls hash path total now h hall, hstore]

/-- Sending each missing id once leaves none out and does not touch the cache of the others. -/
theorem resends_completes {more : List SessionCall}
    (hmore : Resends ((new hash path total now).afterCalls calls).getMissingChunks more)
    (h : OfferedSinceClear total calls) :
    (∀ id, id < total → id ∈ offered (calls ++ more)) ∧
      OfferedSinceClear total (calls ++ more) := by
  have hsent : ∀ c ∈ more, c.clears = false := by
    intro c hc
    obtain ⟨id, -, hid⟩ := List.mem_map.mp (hmore.subset (List.mem_map_of_mem hc))
    cases c with
    | clearCache => cases hid
    | addChunk chunkId data now => rfl
    | touch now => rfl
  have hoffers : ∀ id, id < total → id ∉ offered calls → id ∈ offered more := by
    intro id hlt hnot
    have hmissing :=
      (offered_after hash path total now calls).mem_getMissingChunks.mpr ⟨hlt, hnot⟩
    obtain ⟨c, hc, hid⟩ := List.mem_map.mp (hmore.symm.subset (List.mem_map_of_mem hmissing))
    exact List.mem_filterMap.mpr ⟨c, hc, hid⟩
  constructor
  · intro id hlt
    rw [offered_append, List.mem_append]
    by_cases hin : id ∈ offered calls
    · exact Or.inl hin
    · exact Or.inr (hoffers id hlt hin)
  · intro id hlt _
    rw [sinceClear_append calls hsent, offered_append, List.mem_append]
    by_cases hin : id ∈ offered calls
    · exact Or.inl (h id hlt hin)
    · exact Or.inr (hoffers id hlt hin)

/-- A session holds what it does not report missing in exactly the runs that offer again,
after a `clearCache`, every id offered before it. -/
theorem cacheIsHeld_iff (calls : List SessionCall) :
    CacheIsHeld (new hash path total now) calls ↔ OfferedSinceClear total calls := by
  have hoffered := offered_after hash path total now calls
  obtain ⟨-, hchunks⟩ := cached_after hash path total now calls
  constructor
  · intro h id hlt hin
    have hpresent := fun hmem => (hoffered.mem_getMissingChunks.mp hmem).2 hin
    obtain ⟨hmem, -⟩ := h.held id hlt hpresent
    rw [Std.ExtTreeMap.mem_iff_isSome_getElem?, hchunks, if_pos hlt] at hmem
    exact lastPayload_isSome_iff.mp hmem
  · intro h
    refine ⟨fun id hlt hpresent => ?_, fun Node _ denote env disk hstore hret => ?_,
      fun more hmore Node _ denote env disk henv => ?_⟩
    · have hin : id ∈ offered calls := by
        by_contra hnot
        exact hpresent (hoffered.mem_getMissingChunks.mpr ⟨hlt, hnot⟩)
      have heq : ((new hash path total now).afterCalls calls).chunks[id]? =
          lastPayload id calls := by
        rw [hchunks, ← lastPayload_sinceClear (h id hlt hin)]
        exact if_pos hlt
      rw [Std.ExtTreeMap.mem_iff_isSome_getElem?, heq]
      exact ⟨lastPayload_isSome_iff.mpr hin, rfl⟩
    · obtain ⟨hall, -⟩ := (assembleFile_afterCalls hash path total now denote env disk).mp hret
      exact ⟨fun id hlt => lastPayload_isSome_iff.mpr (hall id hlt),
        assembleFile_disk hash path total now denote disk hstore h hret⟩
    · obtain ⟨hd, ho, hstore⟩ := henv
      obtain ⟨hall, hsince⟩ := resends_completes hash path total now hmore h
      have hret := (assembleFile_afterCalls hash path total now denote env disk).mpr ⟨hall, hd, ho⟩
      exact ⟨hret, assembleFile_disk hash path total now denote disk hstore hsince hret⟩

end Runs

def clearedChunk : List SessionCall := [.addChunk 0 [1] 0, .clearCache]

theorem not_cacheIsHeld_cleared : ¬CacheIsHeld (new [] [] 1 0) clearedChunk := by
  intro h
  have hheld := h.held 0 (by decide) (by decide)
  exact absurd hheld.1 (by decide)

end FileTransferSession

end EggDelivery
