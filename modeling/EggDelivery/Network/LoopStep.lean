import EggDelivery.Network.TransferLogic

/-!
# One turn of the receive loop

What a turn leaves alone, and what it does to the one hash its packet names. The
two tables agree on a hash in two ways: neither knows it (`Idle`), or both do and
the session is filling up (`Busy`).
-/

namespace EggDelivery

open FileManager

variable {Node : Type}

def savedAs (hash : Bytes) : Bytes := downloads ++ ascii "/" ++ saveName hash

theorem savedAs_injective {h h' : Bytes} (heq : savedAs h = savedAs h') : h = h' := by
  simpa [savedAs, saveName] using heq

/-! ## Frames -/

/-- The tables differ at most in their entries for `hash`. -/
structure SameElsewhere (hash : Bytes) (r r' : Receiver Node) : Prop where
  dir : r'.fm.downloadDir = r.fm.downloadDir
  find : ∀ other, other ≠ hash → r'.fm.find other = r.fm.find other
  map : ∀ other, other ≠ hash → r'.sessionMap[other]? = r.sessionMap[other]?

theorem SameElsewhere.refl (hash : Bytes) (r : Receiver Node) : SameElsewhere hash r r :=
  ⟨rfl, fun _ _ => rfl, fun _ _ => rfl⟩

theorem SameElsewhere.trans {hash : Bytes} {r₁ r₂ r₃ : Receiver Node}
    (h₁ : SameElsewhere hash r₁ r₂) (h₂ : SameElsewhere hash r₂ r₃) :
    SameElsewhere hash r₁ r₃ where
  dir := h₂.dir.trans h₁.dir
  find other hne := (h₂.find other hne).trans (h₁.find other hne)
  map other hne := (h₂.map other hne).trans (h₁.map other hne)

theorem sameElsewhere_openSession (r : Receiver Node) (chunk : FileChunk) (now : Time) :
    SameElsewhere chunk.fileHash r (openSession r chunk now) := by
  unfold openSession
  split
  next => exact SameElsewhere.refl _ r
  next =>
    refine ⟨?_, fun other hne => ?_, fun other hne => ?_⟩
    · exact downloadDir_createTransferSession _ _ _ _ _
    · rw [find_createTransferSession, if_neg fun hn => hne hn.1.symm]
    · rw [getElem?_insert_eq, if_neg fun hn => hne hn.symm]

/-- The state of an accepted turn before its last branch. -/
def afterAdd (r : Receiver Node) (chunk : FileChunk) (a : Arrival) : Receiver Node :=
  let r := openSession r chunk a.created
  { r with fm := (r.fm.addChunkToSession chunk.fileHash chunk.chunkId chunk.data a.added).2 }

theorem sameElsewhere_afterAdd (r : Receiver Node) (chunk : FileChunk) (a : Arrival) :
    SameElsewhere chunk.fileHash r (afterAdd r chunk a) := by
  refine (sameElsewhere_openSession r chunk a.created).trans ⟨?_, fun other hne => ?_, fun _ _ => rfl⟩
  · exact downloadDir_addChunkToSession _ _ _ _ _
  · rw [afterAdd, find_addChunkToSession, if_neg fun hn => hne hn.symm]

/-! ## Every session is saved under its hash -/

structure SavedUnderHash (r : Receiver Node) : Prop where
  dir : r.fm.downloadDir = downloads
  path : ∀ hash s, r.fm.find hash = some s → s.savePath = savedAs hash

theorem savedUnderHash_start (disk : Disk Node) : SavedUnderHash (startReceiver disk) where
  dir := rfl
  path := by simp [startReceiver]

theorem savedUnderHash_afterAdd {r : Receiver Node} (h : SavedUnderHash r) (chunk : FileChunk)
    (a : Arrival) : SavedUnderHash (afterAdd r chunk a) := by
  have hframe := sameElsewhere_afterAdd r chunk a
  refine ⟨hframe.dir.trans h.dir, fun hash s hs => ?_⟩
  by_cases hne : hash = chunk.fileHash
  · subst hne
    have hopen : ∀ t, (openSession r chunk a.created).fm.find chunk.fileHash = some t →
        t.savePath = savedAs chunk.fileHash := by
      intro t ht
      unfold openSession at ht
      split at ht
      next => exact h.path _ t ht
      next =>
        rw [find_createTransferSession] at ht
        split at ht
        next =>
          cases ht
          simp only [FileTransferSession.new, savePath, h.dir, savedAs]
        next => exact h.path _ t ht
    simp only [afterAdd] at hs
    rw [find_addChunkToSession, if_pos rfl] at hs
    obtain ⟨t, ht, rfl⟩ := Option.map_eq_some_iff.mp hs
    rw [FileTransferSession.addChunk_savePath]
    exact hopen t ht
  · rw [hframe.find hash hne] at hs
    exact h.path hash s hs

/-! ## One hash in both tables -/

def Idle (r : Receiver Node) (hash : Bytes) : Prop :=
  r.fm.find hash = none ∧ r.sessionMap[hash]? = none

/-- Both tables know the hash, and its session holds what has arrived. -/
def Busy (r : Receiver Node) (hash : Bytes) (parts : List Bytes) (arrived : Nat → Prop) : Prop :=
  r.sessionMap[hash]? = some true ∧
    ∃ s, r.fm.find hash = some s ∧ Filling (savedAs hash) parts arrived s

/-- A transfer that waits for chunks: nothing has come yet, or a session is open. -/
def Waiting (r : Receiver Node) (hash : Bytes) (parts : List Bytes) (arrived : Nat → Prop) :
    Prop :=
  (Idle r hash ∧ ∀ j, j < parts.length → ¬arrived j) ∨ Busy r hash parts arrived

/-- Whichever chunk comes first opens the session; each one adds itself. -/
theorem busy_afterAdd {r : Receiver Node} {hash : Bytes} {parts : List Bytes}
    {arrived : Nat → Prop} (hdir : r.fm.downloadDir = downloads)
    (hlen : parts.length < 2 ^ 32) (h : Waiting r hash parts arrived) {i : Nat} {part : Bytes}
    (hi : parts[i]? = some part) (a : Arrival) :
    Busy (afterAdd r (chunkAt hash parts i part) a) hash parts (fun j => arrived j ∨ j = i) := by
  have hopen : Busy (openSession r (chunkAt hash parts i part) a.created) hash parts arrived := by
    rcases h with ⟨⟨hfind, hmap⟩, hnone⟩ | ⟨hmap, s, hfind, hfill⟩
    · have hnew : openSession r (chunkAt hash parts i part) a.created =
          { r with
            fm := (r.fm.createTransferSession hash (saveName hash) (UInt32.ofNat parts.length)
              a.created).2
            sessionMap := r.sessionMap.insert hash true } := by
        simp only [openSession, chunkAt, hmap]
      rw [hnew]
      have hpath : r.fm.savePath (saveName hash) = savedAs hash := by
        rw [savePath, hdir, savedAs]
      refine ⟨by rw [getElem?_insert_eq, if_pos rfl],
        FileTransferSession.new hash (savedAs hash) (UInt32.ofNat parts.length) a.created, ?_, ?_⟩
      · rw [find_createTransferSession, if_pos ⟨rfl, hfind⟩, hpath]
      · exact (Filling.fresh hash (savedAs hash) parts a.created).congr fun j hj =>
          iff_of_false id (hnone j hj)
    · have hold : openSession r (chunkAt hash parts i part) a.created = r := by
        simp only [openSession, chunkAt, hmap]
      rw [hold]
      exact ⟨hmap, s, hfind, hfill⟩
  obtain ⟨hmap, s, hfind, hfill⟩ := hopen
  refine ⟨hmap, (s.addChunk (UInt32.ofNat i) part a.added).2, ?_, (hfill.add hlen hi a.added).2⟩
  rw [afterAdd, find_addChunkToSession]
  simp only [chunkAt] at hfind ⊢
  rw [if_pos trivial, hfind, Option.map_some]

theorem disk_afterAdd (r : Receiver Node) (chunk : FileChunk) (a : Arrival) :
    (afterAdd r chunk a).disk = r.disk := by
  simp only [afterAdd, openSession]
  split <;> rfl

/-! ## The whole turn -/

/-- A packet is accepted or rejected; the decoder never leaves the buffer. -/
theorem deserialize_cases (buf : Bytes) :
    (∃ chunk, FileChunk.deserialize 64 {} buf = .ok (true, chunk)) ∨
      ∃ chunk, FileChunk.deserialize 64 {} buf = .ok (false, chunk) := by
  obtain ⟨⟨accepted, chunk⟩, h⟩ := FileChunk.deserialize_defined (w := 64) (by decide) {} buf
  cases accepted with
  | true => exact Or.inl ⟨chunk, h⟩
  | false => exact Or.inr ⟨chunk, h⟩

variable [DecidableEq Node] (denote : Bytes → Node)

theorem recvFileStep_accepted (r : Receiver Node) {a : Arrival} {chunk : FileChunk}
    (h : FileChunk.deserialize 64 {} a.pkg = .ok (true, chunk)) :
    recvFileStep denote r a =
      finishSession denote (afterAdd r chunk a) chunk.fileHash a.env := by
  rw [recvFileStep, unwrapProtocolV1, h]
  rfl

theorem recvFileStep_rejected (r : Receiver Node) {a : Arrival} {chunk : FileChunk}
    (h : FileChunk.deserialize 64 {} a.pkg = .ok (false, chunk)) :
    recvFileStep denote r a = (r, .dropped) := by
  rw [recvFileStep, unwrapProtocolV1, h]

theorem sameElsewhere_finishSession (r : Receiver Node) (hash : Bytes) (env : DiskBehaviour) :
    SameElsewhere hash r (finishSession denote r hash env).1 := by
  unfold finishSession
  dsimp only
  split
  next =>
    have herase : ∀ other, other ≠ hash →
        (r.sessionMap.erase hash)[other]? = r.sessionMap[other]? := by
      intro other hne
      rw [getElem?_erase_eq, if_neg fun hn => hne hn.symm]
    refine ⟨downloadDir_completeTransfer _ _ _ _ _, fun other hne => ?_, herase⟩
    rw [find_completeTransfer, if_neg fun hn => hne hn.1.symm]
  next => exact SameElsewhere.refl hash r

theorem sameElsewhere_recvFileStep (r : Receiver Node) {a : Arrival} {chunk : FileChunk}
    (h : FileChunk.deserialize 64 {} a.pkg = .ok (true, chunk)) :
    SameElsewhere chunk.fileHash r (recvFileStep denote r a).1 := by
  rw [recvFileStep_accepted denote r h]
  exact (sameElsewhere_afterAdd r chunk a).trans (sameElsewhere_finishSession denote _ _ _)

theorem savedUnderHash_finishSession {r : Receiver Node} (h : SavedUnderHash r) (hash : Bytes)
    (env : DiskBehaviour) : SavedUnderHash (finishSession denote r hash env).1 := by
  refine ⟨(sameElsewhere_finishSession denote r hash env).dir.trans h.dir, fun other s hs => ?_⟩
  refine h.path other s ?_
  unfold finishSession at hs
  dsimp only at hs
  split at hs
  next => exact (of_find_completeTransfer hs).2
  next => exact hs

theorem savedUnderHash_step {r : Receiver Node} (h : SavedUnderHash r) (a : Arrival) :
    SavedUnderHash (recvFileStep denote r a).1 := by
  rcases deserialize_cases a.pkg with ⟨chunk, hc⟩ | ⟨chunk, hc⟩
  · rw [recvFileStep_accepted denote r hc]
    exact savedUnderHash_finishSession denote (savedUnderHash_afterAdd h chunk a) _ _
  · rwa [recvFileStep_rejected denote r hc]

/-- The only file a turn can change is the one of its packet's hash. -/
theorem disk_recvFileStep {r : Receiver Node} (h : SavedUnderHash r) {a : Arrival}
    {chunk : FileChunk} (hdec : FileChunk.deserialize 64 {} a.pkg = .ok (true, chunk))
    {node : Node} (hne : node ≠ denote (savedAs chunk.fileHash)) :
    (recvFileStep denote r a).1.disk node = r.disk node := by
  rw [recvFileStep_accepted denote r hdec, ← disk_afterAdd r chunk a]
  unfold finishSession
  dsimp only
  split
  next =>
    rcases completeTransfer_cases denote (afterAdd r chunk a).fm chunk.fileHash a.env
      (afterAdd r chunk a).disk with ⟨s, hfind, -, -, -, -, -, hdisk⟩ | ⟨-, -, hdisk⟩
    · have hpath := (savedUnderHash_afterAdd h chunk a).path chunk.fileHash s hfind
      rw [hdisk, hpath]
      exact Function.update_of_ne hne _ _
    · rw [hdisk]
  next => rfl

theorem recvFileStep_waiting {r : Receiver Node} {hash : Bytes} {parts : List Bytes}
    {arrived : Nat → Prop} (hdir : r.fm.downloadDir = downloads)
    (hlen : parts.length < 2 ^ 32) (h : Waiting r hash parts arrived) {i : Nat} {part : Bytes}
    (hi : parts[i]? = some part) {a : Arrival}
    (hdec : FileChunk.deserialize 64 {} a.pkg = .ok (true, chunkAt hash parts i part))
    (hmissing : ¬∀ j, j < parts.length → arrived j ∨ j = i) :
    Busy (recvFileStep denote r a).1 hash parts (fun j => arrived j ∨ j = i) ∧
      (recvFileStep denote r a).1.disk = r.disk ∧ (recvFileStep denote r a).2.wrote = none := by
  have hbusy := busy_afterAdd hdir hlen h hi a
  obtain ⟨hmap, s, hfind, hfill⟩ := hbusy
  have hno : (afterAdd r (chunkAt hash parts i part) a).fm.isTransferComplete hash = false := by
    rw [Bool.eq_false_iff]
    exact fun hc => hmissing ((isTransferComplete_iff hfind hfill hlen).mp hc)
  rw [recvFileStep_accepted denote r hdec]
  have hfinish : finishSession denote (afterAdd r (chunkAt hash parts i part) a) hash a.env =
      (afterAdd r (chunkAt hash parts i part) a,
        .stored ((afterAdd r (chunkAt hash parts i part) a).fm.getSessionProgress hash) none) := by
    simp only [finishSession, hno, Bool.false_eq_true, if_false]
  rw [show (chunkAt hash parts i part).fileHash = hash from rfl, hfinish]
  exact ⟨⟨hmap, s, hfind, hfill⟩, disk_afterAdd r _ a, rfl⟩

/-- The chunk that completes its transfer writes the file and clears both tables. -/
theorem recvFileStep_last {r : Receiver Node} {hash : Bytes} {parts : List Bytes}
    {arrived : Nat → Prop} (hdir : r.fm.downloadDir = downloads)
    (hlen : parts.length < 2 ^ 32) (h : Waiting r hash parts arrived) {i : Nat} {part : Bytes}
    (hi : parts[i]? = some part) {a : Arrival}
    (hdec : FileChunk.deserialize 64 {} a.pkg = .ok (true, chunkAt hash parts i part))
    (hall : ∀ j, j < parts.length → arrived j ∨ j = i) (henv : a.env.Succeeds) :
    Idle (recvFileStep denote r a).1 hash ∧
      (recvFileStep denote r a).1.disk =
        Function.update r.disk (denote (savedAs hash)) (some parts.flatten) ∧
      (recvFileStep denote r a).2.wrote = some (savedAs hash, parts.flatten) := by
  obtain ⟨hmap, s, hfind, hfill⟩ := busy_afterAdd hdir hlen h hi a
  have hyes := (isTransferComplete_iff hfind hfill hlen).mpr hall
  obtain ⟨-, hman, hdisk, hwrote⟩ := completeTransfer_of_filled denote
    (afterAdd r (chunkAt hash parts i part) a).disk hfind hfill hlen hall henv
  rw [recvFileStep_accepted denote r hdec, show (chunkAt hash parts i part).fileHash = hash from rfl]
  simp only [finishSession, hyes, if_true]
  refine ⟨⟨?_, ?_⟩, ?_, hwrote⟩
  · rw [hman, find_drop, if_pos rfl]
  · rw [getElem?_erase_eq, if_pos rfl]
  · rw [hdisk, disk_afterAdd]

end EggDelivery
