import EggDelivery.Manager.Progress
import EggDelivery.Network.LoopStep

/-!
# The two tables of the receive loop

`recv_file_loop` ignores what `createTransferSession`, `addChunkToSession` and
`completeTransfer` return, and updates `session_map` all the same. The tables drift
apart in one direction only: a hash in `session_map` has a session, while a session whose
assembly failed has lost its entry there and is found again by the next packet.
-/

namespace EggDelivery

open FileManager

/-! ## Progress -/

namespace FileTransferSession

theorem getReceivedChunkCount_le (s : FileTransferSession) :
    s.getReceivedChunkCount.toNat ≤ s.totalChunks.toNat := by
  have hlen : (0 : UInt32).toNat + s.receivedFlags.length < 2 ^ 32 := by
    rw [s.flags_length]
    simpa using s.totalChunks.toNat_lt
  rw [getReceivedChunkCount, foldl_count hlen, ← s.flags_length, UInt32.toNat_zero, Nat.zero_add]
  exact List.count_le_length

/-- A product that wraps only makes the percentage smaller. -/
theorem getProgressPercentage_le (s : FileTransferSession) :
    s.getProgressPercentage.toNat ≤ 100 := by
  rw [getProgressPercentage_toNat]
  refine Nat.div_le_of_le_mul ((Nat.mod_le _ _).trans ?_)
  exact Nat.mul_le_mul_right 100 s.getReceivedChunkCount_le

end FileTransferSession

theorem getSessionProgress_eq_neg_one_iff (fm : FileManager) (hash : Bytes) :
    fm.getSessionProgress hash = -1 ↔ fm.find hash = none := by
  rw [getSessionProgress]
  cases fm.find hash with
  | none => exact iff_of_true rfl rfl
  | some s =>
      refine iff_of_false (fun heq => ?_) (by simp)
      change s.getProgressPercentage.toInt32 = -1 at heq
      have hword : s.getProgressPercentage = 0xFFFFFFFF := by
        rw [← UInt32.toUInt32_toInt32 s.getProgressPercentage, heq]
        rfl
      have hle := s.getProgressPercentage_le
      rw [hword] at hle
      exact absurd hle (by decide)

/-! ## Listed hashes have sessions -/

variable {Node : Type}

/-- Every hash in `session_map` has a session. -/
def ListedLive (r : Receiver Node) : Prop :=
  ∀ hash, (r.sessionMap[hash]?).isSome → (r.fm.find hash).isSome

theorem listedLive_start (disk : Disk Node) : ListedLive (startReceiver disk) := by
  intro hash h
  simp [startReceiver] at h

theorem isSome_find_openSession {r : Receiver Node} (h : ListedLive r) (chunk : FileChunk)
    (now : Time) : ((openSession r chunk now).fm.find chunk.fileHash).isSome := by
  unfold openSession
  split
  next listed hlisted => exact h _ (Option.isSome_of_eq_some hlisted)
  next =>
    dsimp only
    rw [find_createTransferSession]
    split
    next => rfl
    next hother =>
      rw [not_and] at hother
      exact Option.isSome_iff_ne_none.mpr (hother rfl)

/-- The tables agree on the hash of a packet, and elsewhere nothing has changed. -/
theorem ListedLive.elsewhere {r r' : Receiver Node} (h : ListedLive r) {hash : Bytes}
    (hframe : SameElsewhere hash r r')
    (hown : (r'.sessionMap[hash]?).isSome → (r'.fm.find hash).isSome) : ListedLive r' := by
  intro other hother
  by_cases heq : other = hash
  · subst heq
    exact hown hother
  · rw [hframe.find other heq]
    rw [hframe.map other heq] at hother
    exact h other hother

theorem exists_find_afterAdd {r : Receiver Node} (h : ListedLive r) (chunk : FileChunk)
    (a : Arrival) :
    ∃ s, (openSession r chunk a.created).fm.find chunk.fileHash = some s ∧
      (afterAdd r chunk a).fm.find chunk.fileHash =
        some (s.addChunk chunk.chunkId chunk.data a.added).2 := by
  obtain ⟨s, hs⟩ := Option.isSome_iff_exists.mp (isSome_find_openSession h chunk a.created)
  refine ⟨s, hs, ?_⟩
  rw [afterAdd, find_addChunkToSession, if_pos rfl, hs, Option.map_some]

theorem listedLive_afterAdd {r : Receiver Node} (h : ListedLive r) (chunk : FileChunk)
    (a : Arrival) : ListedLive (afterAdd r chunk a) := by
  obtain ⟨s, -, hs⟩ := exists_find_afterAdd h chunk a
  refine h.elsewhere (sameElsewhere_afterAdd r chunk a) fun _ => ?_
  rw [hs]
  rfl

variable [DecidableEq Node] (denote : Bytes → Node)

/-- A completion takes the entry out, whether it succeeds or fails. -/
theorem listedLive_finishSession {r : Receiver Node} (h : ListedLive r) (hash : Bytes)
    (env : DiskBehaviour) : ListedLive (finishSession denote r hash env).1 := by
  refine h.elsewhere (sameElsewhere_finishSession denote r hash env) ?_
  unfold finishSession
  dsimp only
  split
  next =>
    intro hlisted
    rw [getElem?_erase_eq, if_pos rfl] at hlisted
    cases hlisted
  next => exact h hash

theorem listedLive_step {r : Receiver Node} (h : ListedLive r) (a : Arrival) :
    ListedLive (recvFileStep denote r a).1 := by
  rcases deserialize_cases a.pkg with ⟨chunk, hc⟩ | ⟨chunk, hc⟩
  · rw [recvFileStep_accepted denote r hc]
    exact listedLive_finishSession denote (listedLive_afterAdd h chunk a) _ _
  · rwa [recvFileStep_rejected denote r hc]

def afterTurns (disk : Disk Node) (arrivals : List Arrival) : Receiver Node :=
  Run.final (recvFileStep denote) (startReceiver disk) arrivals

theorem listedLive_afterTurns (disk : Disk Node) (arrivals : List Arrival) :
    ListedLive (afterTurns denote disk arrivals) :=
  Run.invariant (recvFileStep denote) (P := ListedLive) (fun _ a h => listedLive_step denote h a)
    (listedLive_start disk) arrivals

/-! ## What a turn reports -/

/-- A turn on an accepted packet: it adds to a session, reports its progress, and assembles
it if it is complete. -/
theorem recvFileStep_report {r : Receiver Node} {a : Arrival} {chunk : FileChunk}
    (hdec : FileChunk.deserialize 64 {} a.pkg = .ok (true, chunk)) {s : FileTransferSession}
    (hs : (afterAdd r chunk a).fm.find chunk.fileHash = some s) :
    (recvFileStep denote r a).2 =
      .stored s.getProgressPercentage.toInt32
        (if s.isComplete then some (s.assembleFile denote a.env r.disk) else none) := by
  rw [recvFileStep_accepted denote r hdec, ← disk_afterAdd r chunk a]
  have hprogress : (afterAdd r chunk a).fm.getSessionProgress chunk.fileHash =
      s.getProgressPercentage.toInt32 := by
    rw [getSessionProgress, hs]
  have hcomplete : (afterAdd r chunk a).fm.isTransferComplete chunk.fileHash = s.isComplete := by
    rw [isTransferComplete, hs]
  simp only [finishSession, hprogress, hcomplete]
  cases hdone : s.isComplete with
  | false => rfl
  | true =>
      simp only [if_true, completeTransfer, hs]
      split <;> rfl

/-- An assembly that fails leaves the session as it was. -/
theorem find_recvFileStep_failed {r : Receiver Node} {a : Arrival} {chunk : FileChunk}
    (hdec : FileChunk.deserialize 64 {} a.pkg = .ok (true, chunk)) {s : FileTransferSession}
    (hs : (afterAdd r chunk a).fm.find chunk.fileHash = some s)
    (hfailed : (s.assembleFile denote a.env r.disk).returned = false) :
    (recvFileStep denote r a).1.fm.find chunk.fileHash = some s := by
  rw [recvFileStep_accepted denote r hdec]
  unfold finishSession
  dsimp only
  split
  next =>
    have hreturned : ((afterAdd r chunk a).fm.completeTransfer denote chunk.fileHash a.env
        (afterAdd r chunk a).disk).returned = false := by
      rw [completeTransfer_returned denote hs,
        ← FileTransferSession.assembleFile_returned denote s a.env r.disk, hfailed]
    rw [find_completeTransfer, if_neg (by simp [hreturned]), hs]
  next => exact hs

theorem find_final_of_others {r : Receiver Node} {hash : Bytes} {others : List Arrival}
    (h : ∀ b ∈ others, ∀ c, FileChunk.deserialize 64 {} b.pkg = .ok (true, c) →
      c.fileHash ≠ hash) :
    (Run.final (recvFileStep denote) r others).fm.find hash = r.fm.find hash := by
  refine Run.log_invariant (recvFileStep denote)
    (A := fun b => ∀ c, FileChunk.deserialize 64 {} b.pkg = .ok (true, c) → c.fileHash ≠ hash)
    (P := fun _ r' => r'.fm.find hash = r.fm.find hash) rfl (fun _ r' b hb hfind => ?_) others h
  rcases deserialize_cases b.pkg with ⟨c, hc⟩ | ⟨c, hc⟩
  · rw [(sameElsewhere_recvFileStep denote r' hc).find hash (Ne.symm (hb c hc)), hfind]
  · rw [recvFileStep_rejected denote r' hc, hfind]

theorem isComplete_addChunk {s : FileTransferSession} (h : s.isComplete = true) (id : UInt32)
    (data : Bytes) (now : Time) : (s.addChunk id data now).2.isComplete = true := by
  rw [FileTransferSession.isComplete, FileTransferSession.addChunk_receivedFlags,
    List.all_eq_true]
  rw [FileTransferSession.isComplete, List.all_eq_true] at h
  intro flag hflag
  rcases List.mem_or_eq_of_mem_set hflag with hold | rfl
  · exact h flag hold
  · rfl

/-- The session `s` of a complete transfer stays, whatever comes for other hashes, and the
next packet accepted for its hash adds to it and has it assembled again. -/
def KeptAndRetried (r : Receiver Node) (hash : Bytes) (s : FileTransferSession) : Prop :=
  ∀ others, (∀ b ∈ others, ∀ c, FileChunk.deserialize 64 {} b.pkg = .ok (true, c) →
      c.fileHash ≠ hash) →
    (Run.final (recvFileStep denote) r others).fm.find hash = some s ∧
      ∀ b c, FileChunk.deserialize 64 {} b.pkg = .ok (true, c) → c.fileHash = hash →
        ∃ progress, (recvFileStep denote (Run.final (recvFileStep denote) r others) b).2 =
          .stored progress (some ((s.addChunk c.chunkId c.data b.added).2.assembleFile denote b.env
            (Run.final (recvFileStep denote) r others).disk))

theorem keptAndRetried {r : Receiver Node} (hlive : ListedLive r) {hash : Bytes}
    {s : FileTransferSession} (hs : r.fm.find hash = some s) (hcomplete : s.isComplete = true) :
    KeptAndRetried denote r hash s := by
  intro others hothers
  have hkept : (Run.final (recvFileStep denote) r others).fm.find hash = some s := by
    rw [find_final_of_others denote hothers, hs]
  refine ⟨hkept, ?_⟩
  rintro b c hdec rfl
  have hlive' : ListedLive (Run.final (recvFileStep denote) r others) :=
    Run.invariant (recvFileStep denote) (P := ListedLive)
      (fun _ a h => listedLive_step denote h a) hlive others
  generalize Run.final (recvFileStep denote) r others = r' at hkept hlive' ⊢
  obtain ⟨t, ht, hadded⟩ := exists_find_afterAdd hlive' c b
  -- the session is found, with or without an entry in `session_map`
  have hsame : (openSession r' c b.created).fm.find c.fileHash = some s := by
    unfold openSession
    split
    next => exact hkept
    next =>
      dsimp only
      rw [find_createTransferSession, if_neg (by simp [hkept]), hkept]
  obtain rfl : t = s := Option.some.inj (ht.symm.trans hsame)
  rw [recvFileStep_report denote hdec hadded,
    if_pos (isComplete_addChunk hcomplete c.chunkId c.data b.added)]
  exact ⟨_, rfl⟩

/-! ## The loop -/

/-- How a turn of the loop on an accepted packet goes. -/
structure TurnServed (r : Receiver Node) (a : Arrival) (chunk : FileChunk) : Prop where
  /-- There is a session to add to, so only an id out of range makes the adding fail. -/
  adds : ∃ s, (openSession r chunk a.created).fm.find chunk.fileHash = some s ∧
    ((openSession r chunk a.created).fm.addChunkToSession chunk.fileHash chunk.chunkId chunk.data
      a.added).1 = decide (chunk.chunkId < s.totalChunks)
  /-- The progress is that of a session, and a failed assembly leaves a complete session
  that is kept and tried again. -/
  reports : ∃ progress assembly, (recvFileStep denote r a).2 = .stored progress assembly ∧
    progress ≠ -1 ∧
    ∀ result, assembly = some result → result.returned = false →
      ∃ s, (afterAdd r chunk a).fm.find chunk.fileHash = some s ∧ s.isComplete = true ∧
        result = s.assembleFile denote a.env r.disk ∧
        KeptAndRetried denote (recvFileStep denote r a).1 chunk.fileHash s

theorem turnServed {r : Receiver Node} (h : ListedLive r) {a : Arrival} {chunk : FileChunk}
    (hdec : FileChunk.deserialize 64 {} a.pkg = .ok (true, chunk)) :
    TurnServed denote r a chunk := by
  obtain ⟨s, hs, hadded⟩ := exists_find_afterAdd h chunk a
  have hreport := recvFileStep_report denote hdec hadded
  generalize hs' : (s.addChunk chunk.chunkId chunk.data a.added).2 = s' at hadded hreport
  refine ⟨⟨s, hs, ?_⟩, _, _, hreport, fun hneg => ?_, fun result hresult hfailed => ?_⟩
  · rw [addChunkToSession_some hs, FileTransferSession.addChunk_returned]
  · have hprogress : (afterAdd r chunk a).fm.getSessionProgress chunk.fileHash = -1 := by
      rw [getSessionProgress, hadded]
      exact hneg
    rw [getSessionProgress_eq_neg_one_iff, hadded] at hprogress
    cases hprogress
  · cases hcomplete : s'.isComplete with
    | false =>
        rw [hcomplete] at hresult
        cases hresult
    | true =>
        rw [hcomplete, if_pos rfl, Option.some.injEq] at hresult
        subst hresult
        exact ⟨s', hadded, hcomplete, rfl, keptAndRetried denote (listedLive_step denote h a)
          (find_recvFileStep_failed denote hdec hadded hfailed) hcomplete⟩

/-- At every head of the loop the hashes of `session_map` have sessions, so every accepted
packet is served. -/
theorem loop_bookkeeping (disk : Disk Node) (arrivals : List Arrival) :
    ListedLive (afterTurns denote disk arrivals) ∧
      ∀ a chunk, FileChunk.deserialize 64 {} a.pkg = .ok (true, chunk) →
        TurnServed denote (afterTurns denote disk arrivals) a chunk :=
  ⟨listedLive_afterTurns denote disk arrivals,
    fun _ _ hdec => turnServed denote (listedLive_afterTurns denote disk arrivals) hdec⟩

/-- A file that does not open at first is stored when its packet comes again. -/
example :
    let pkg := (chunkAt [7] [[1]] 0 [1]).serialize
    let failed := afterTurns id (fun _ => none) [{ pkg := pkg, env := { isOpen := false } }]
    let retried := afterTurns id (fun _ => none)
      [{ pkg := pkg, env := { isOpen := false } }, { pkg := pkg }]
    (failed.fm.find [7]).isSome ∧ failed.disk (savedAs [7]) = none ∧
      retried.fm.find [7] = none ∧ retried.disk (savedAs [7]) = some [1] := by
  decide

end EggDelivery
