import EggDelivery.Library.Refinement
import EggDelivery.Manager.Activity
import EggDelivery.Manager.Frames
import EggDelivery.Manager.Tray

/-!
# The manager as a store of uploads

What `FileManager` is for: it keeps a tray for every hash that is being received. The
ordered map, the flags and the chunk maps come to that and nothing more, and of the
clock only the times matter: when an upload was last active, and which reading it is
judged by in a cleanup.
-/

namespace EggDelivery

open Collector

structure Upload where
  path : Bytes
  tray : Tray Bytes
  active : Time

/-- The directory for new uploads, the uploads and the disk. -/
structure Store (Node : Type) where
  directory : Bytes
  uploads : Bytes → Option Upload
  disk : Disk Node

namespace Store

variable {Node : Type}

def empty (dir : Bytes) (disk : Disk Node) : Store Node where
  directory := dir
  uploads _ := none
  disk := disk

def set (s : Store Node) (hash : Bytes) (upload : Option Upload) : Store Node :=
  { s with uploads := Function.update s.uploads hash upload }

/-! ## Operations

A call that is refused has no next state.
-/

def setDirectory (s : Store Node) (dir : Bytes) (created : Bool) : Option (Store Node) :=
  if created then some { s with directory := dir } else none

/-- There is one upload for a hash at a time. -/
def create (s : Store Node) (hash name : Bytes) (total : UInt32) (now : Time) :
    Option (Store Node) :=
  match s.uploads hash with
  | none => some (s.set hash (some
      { path := s.directory ++ ascii "/" ++ name
        tray := List.replicate total.toNat none
        active := now }))
  | some _ => none

def add (s : Store Node) (hash : Bytes) (chunkId : UInt32) (data : Bytes) (now : Time) :
    Option (Store Node) := do
  let upload ← s.uploads hash
  if chunkId.toNat < upload.tray.length then
    some (s.set hash (some
      { upload with
        tray := upload.tray.set chunkId.toNat (some data)
        active := now }))
  else none

/-- A full tray is written and leaves the store. -/
def complete [DecidableEq Node] (denote : Bytes → Node) (s : Store Node) (hash : Bytes)
    (env : DiskBehaviour) : Option (Store Node) := do
  let upload ← s.uploads hash
  if full upload.tray && env.createDirectories && env.isOpen then
    some { s.set hash none with
      disk := Function.update s.disk (denote upload.path)
        (some (env.store upload.tray.reduceOption.flatten)) }
  else none

def cancel (s : Store Node) (hash : Bytes) : Option (Store Node) := do
  let _ ← s.uploads hash
  some (s.set hash none)

structure Lists (s : Store Node) (hashes : List Bytes) : Prop where
  sorted : hashes.Pairwise (· < ·)
  mem : ∀ hash, hash ∈ hashes ↔ (s.uploads hash).isSome

/-- The clock is read for one upload after the other, and those that have been idle for
longer than the limit are removed. -/
structure Cleans (s : Store Node) (maxIdleSeconds : UInt32) (clock : Nat → Time)
    (hashes : List Bytes) : Prop where
  sorted : hashes.Pairwise (· < ·)
  judged : ∃ reading : Bytes → Nat,
    (∀ hash hash', (s.uploads hash).isSome → (s.uploads hash').isSome → hash < hash' →
      reading hash < reading hash') ∧
    ∀ hash, hash ∈ hashes ↔ ∃ upload, s.uploads hash = some upload ∧
      (maxIdleSeconds.toNat : ℚ) < clock (reading hash) - upload.active

/-- These uploads are gone, and nothing else has changed. -/
structure Removes (s : Store Node) (hashes : List Bytes) (s' : Store Node) : Prop where
  directory : s'.directory = s.directory
  disk : s'.disk = s.disk
  gone : ∀ hash, hash ∈ hashes → s'.uploads hash = none
  kept : ∀ hash, hash ∉ hashes → s'.uploads hash = s.uploads hash

/-! ## Calls -/

/-- The call is done, or it is refused and nothing changes; the answer says which. -/
def DoneOrRefused (s : Store Node) (next : Option (Store Node)) (s' : Store Node)
    (reply : Answer ⊕ QueryReply) : Prop :=
  s' = next.getD s ∧ reply = .inl (.flag next.isSome)

/-- What a call of the public interface may do and give back. -/
def Spec [DecidableEq Node] (denote : Bytes → Node) (s : Store Node) (c : Op ⊕ Query)
    (s' : Store Node) (reply : Answer ⊕ QueryReply) : Prop :=
  match c with
  | .inl (.setDownloadDirectory dir created) =>
      DoneOrRefused s (s.setDirectory dir created) s' reply
  | .inl (.create hash name total now) => DoneOrRefused s (s.create hash name total now) s' reply
  | .inl (.add hash chunkId data now) => DoneOrRefused s (s.add hash chunkId data now) s' reply
  | .inl (.complete hash env) => DoneOrRefused s (s.complete denote hash env) s' reply
  | .inl (.cancel hash) => DoneOrRefused s (s.cancel hash) s' reply
  | .inl (.cleanup maxIdleSeconds clock) =>
      ∃ hashes, Cleans s maxIdleSeconds clock hashes ∧ Removes s hashes s' ∧
        reply = .inl (.cleaned hashes.length hashes)
  | .inr .getDownloadDirectory => s' = s ∧ reply = .inr (.directory s.directory)
  | .inr (.getSessionProgress hash) => s' = s ∧ reply = .inr (.progress
      (((s.uploads hash).map fun upload => (percentage upload.tray).toInt32).getD (-1)))
  | .inr (.isTransferComplete hash) => s' = s ∧ reply = .inr (.flag
      (((s.uploads hash).map fun upload => full upload.tray).getD false))
  | .inr .getActiveSessions => s' = s ∧ ∃ hashes, s.Lists hashes ∧ reply = .inr (.hashes hashes)
  | .inr .sessionCount => s' = s ∧ ∃ hashes, s.Lists hashes ∧ reply = .inr (.count hashes.length)

end Store

/-! ## The manager seen as a store -/

def FileTransferSession.upload (s : FileTransferSession) : Upload where
  path := s.savePath
  tray := s.tray
  active := s.lastActive

variable {Node : Type}

def World.store (w : World Node) : Store Node where
  directory := w.manager.downloadDir
  uploads hash := (w.manager.find hash).map FileTransferSession.upload
  disk := w.disk

theorem World.store_start (dir : Bytes) (disk : Disk Node) :
    World.store ⟨FileManager.new dir, disk⟩ = Store.empty dir disk := by
  simp only [World.store, Store.empty, FileManager.find_new, Option.map_none]
  rfl

theorem World.store_eq_set (w : World Node) {fm : FileManager} (hash : Bytes)
    (session : Option FileTransferSession) (hdir : fm.downloadDir = w.manager.downloadDir)
    (hfind : ∀ other, fm.find other = if hash = other then session else w.manager.find other) :
    World.store ⟨fm, w.disk⟩ = w.store.set hash (session.map FileTransferSession.upload) := by
  rw [World.store, Store.set, hdir]
  congr 1
  funext other
  rw [hfind]
  by_cases heq : hash = other
  · subst heq
    rw [if_pos rfl, Function.update_self]
  · rw [if_neg heq, Function.update_of_ne (Ne.symm heq)]
    rfl

namespace Store

theorem uploads_of_find {w : World Node} {hash : Bytes} {session : Option FileTransferSession}
    (h : w.manager.find hash = session) :
    w.store.uploads hash = session.map FileTransferSession.upload := by
  rw [← h]
  rfl

theorem store_drop (w : World Node) (hash : Bytes) :
    World.store ⟨w.manager.drop hash, w.disk⟩ = w.store.set hash none :=
  World.store_eq_set w hash none (FileManager.downloadDir_drop _ _)
    fun other => FileManager.find_drop _ _ other

theorem lists_getActiveSessions (w : World Node) :
    w.store.Lists w.manager.getActiveSessions where
  sorted := w.manager.getActiveSessions_sorted
  mem hash := by rw [w.manager.mem_getActiveSessions, World.store, Option.isSome_map]

theorem reading_lt {hashes : List Bytes} {reading : Bytes → Nat} (hsorted : hashes.Pairwise (· < ·))
    (hreading : hashes.Pairwise fun h h' => reading h < reading h') {hash hash' : Bytes}
    (hmem : hash ∈ hashes) (hmem' : hash' ∈ hashes) (hlt : hash < hash') :
    reading hash < reading hash' := by
  obtain ⟨i, hi, rfl⟩ := List.mem_iff_getElem.mp hmem
  obtain ⟨j, hj, rfl⟩ := List.mem_iff_getElem.mp hmem'
  rcases Nat.lt_trichotomy i j with hij | rfl | hji
  · exact List.pairwise_iff_getElem.mp hreading i j hi hj hij
  · exact (List.lt_irrefl _ hlt).elim
  · exact (List.lt_asymm hlt (List.pairwise_iff_getElem.mp hsorted j i hj hi hji)).elim

/-- The loop removes the sessions that are idle at the readings it takes for them. -/
theorem cleanupLoop_readings (maxIdleSeconds : UInt32) (clock : Nat → Time)
    {entries : List (Bytes × FileTransferSession)} (hnodup : (entries.map Prod.fst).Nodup) (k : Nat)
    (fm : FileManager) :
    ∃ reading : Bytes → Nat,
      (entries.map Prod.fst).Pairwise (fun h h' => reading h < reading h') ∧
      (∀ h ∈ entries.map Prod.fst, k ≤ reading h) ∧
      (FileManager.cleanupLoop maxIdleSeconds clock entries k fm).cleaned =
        (entries.filter fun e =>
          (maxIdleSeconds.toNat : ℚ) < e.2.secondsIdle (clock (reading e.1))).map Prod.fst ∧
      (FileManager.cleanupLoop maxIdleSeconds clock entries k fm).removed =
        (FileManager.cleanupLoop maxIdleSeconds clock entries k fm).cleaned.length := by
  induction entries generalizing k fm with
  | nil => exact ⟨fun _ => 0, by simp [FileManager.cleanupLoop]⟩
  | cons entry rest ih =>
      obtain ⟨hash, s⟩ := entry
      rw [List.map_cons, List.nodup_cons] at hnodup
      have hrest : ∀ k' fm', k < k' → ∃ reading : Bytes → Nat, reading hash = k ∧
          ((hash :: rest.map Prod.fst).Pairwise fun h h' => reading h < reading h') ∧
          (∀ h ∈ hash :: rest.map Prod.fst, k ≤ reading h) ∧
          (FileManager.cleanupLoop maxIdleSeconds clock rest k' fm').cleaned =
            (rest.filter fun e =>
              (maxIdleSeconds.toNat : ℚ) < e.2.secondsIdle (clock (reading e.1))).map Prod.fst ∧
          (FileManager.cleanupLoop maxIdleSeconds clock rest k' fm').removed =
            (FileManager.cleanupLoop maxIdleSeconds clock rest k' fm').cleaned.length := by
        intro k' fm' hk
        obtain ⟨reading, hsorted, hlow, hcleaned, hremoved⟩ := ih hnodup.2 k' fm'
        have hsame : ∀ h ∈ rest.map Prod.fst, Function.update reading hash k h = reading h := by
          intro h hh
          have hne : h ≠ hash := fun heq => hnodup.1 (heq ▸ hh)
          exact Function.update_of_ne hne _ _
        have hself : Function.update reading hash k hash = k := Function.update_self _ _ _
        refine ⟨Function.update reading hash k, hself, ?_, ?_, ?_, hremoved⟩
        · rw [List.pairwise_cons, hself]
          refine ⟨fun h hh => ?_, hsorted.imp_of_mem fun hh hh' hlt => ?_⟩
          · rw [hsame h hh]
            exact Nat.lt_of_lt_of_le hk (hlow h hh)
          · rwa [hsame _ hh, hsame _ hh']
        · intro h hh
          rcases List.mem_cons.mp hh with rfl | hh
          · rw [hself]
          · rw [hsame h hh]
            exact Nat.le_of_lt (Nat.lt_of_lt_of_le hk (hlow h hh))
        · rw [hcleaned]
          refine congrArg (List.map Prod.fst) (List.filter_congr fun e he => ?_)
          rw [hsame e.1 (List.mem_map_of_mem he)]
      rw [FileManager.cleanupLoop, List.map_cons]
      split
      next hidle =>
        obtain ⟨reading, hself, hsorted, hlow, hcleaned, hremoved⟩ :=
          hrest (k + 2) (fm.drop hash) (by omega)
        refine ⟨reading, hsorted, hlow, ?_, ?_⟩
        · rw [List.filter_cons_of_pos (by simpa [hself] using hidle), List.map_cons, ← hcleaned]
        · dsimp only
          rw [hremoved, List.length_cons]
      next hactive =>
        obtain ⟨reading, hself, hsorted, hlow, hcleaned, hremoved⟩ := hrest (k + 1) fm (by omega)
        refine ⟨reading, hsorted, hlow, ?_, hremoved⟩
        rw [List.filter_cons_of_neg (by simpa [hself] using hactive), ← hcleaned]

section Refines

variable [DecidableEq Node] (denote : Bytes → Node) (w : World Node)

/-- A call that answers with a flag refines the operation that is defined exactly when it
succeeds. -/
theorem doneOrRefused_step {op : Op} {returned : Bool} {next : Option (Store Node)}
    (hanswer : (step denote w op).2 = .flag returned)
    (hnext : next = if returned then some (step denote w op).1.store else none) :
    DoneOrRefused w.store next (step denote w op).1.store (.inl (step denote w op).2) := by
  rw [hanswer, hnext]
  cases returned with
  | true => exact ⟨rfl, rfl⟩
  | false =>
      rw [step_of_refused denote hanswer]
      exact ⟨rfl, rfl⟩

theorem setDirectory_refines (dir : Bytes) (created : Bool) :
    Spec denote w.store (.inl (.setDownloadDirectory dir created))
      (step denote w (.setDownloadDirectory dir created)).1.store
      (.inl (step denote w (.setDownloadDirectory dir created)).2) := by
  refine doneOrRefused_step denote w rfl ?_
  cases created <;> rfl

theorem create_refines (hash name : Bytes) (total : UInt32) (now : Time) :
    Spec denote w.store (.inl (.create hash name total now))
      (step denote w (.create hash name total now)).1.store
      (.inl (step denote w (.create hash name total now)).2) := by
  refine doneOrRefused_step denote w rfl ?_
  cases h : w.manager.find hash with
  | some s =>
      rw [create, uploads_of_find h, FileManager.createTransferSession_some h]
      rfl
  | none =>
      have hstore := World.store_eq_set w hash
        (some (FileTransferSession.new hash (w.manager.savePath name) total now))
        (FileManager.downloadDir_createTransferSession w.manager hash name total now)
        fun other => by
          rw [FileManager.find_createTransferSession]
          simp only [h, and_true]
      rw [create, uploads_of_find h, FileManager.createTransferSession_none h, if_pos rfl]
      rw [FileManager.createTransferSession_none h] at hstore
      rw [step, FileManager.createTransferSession_none h]
      dsimp only
      rw [hstore, ← FileTransferSession.tray_new hash (w.manager.savePath name) total now]
      rfl

theorem add_refines (hash : Bytes) (chunkId : UInt32) (data : Bytes) (now : Time) :
    Spec denote w.store (.inl (.add hash chunkId data now))
      (step denote w (.add hash chunkId data now)).1.store
      (.inl (step denote w (.add hash chunkId data now)).2) := by
  refine doneOrRefused_step denote w rfl ?_
  cases h : w.manager.find hash with
  | none =>
      rw [add, uploads_of_find h, FileManager.addChunkToSession_none h]
      rfl
  | some s =>
      have hstore := World.store_eq_set w hash _
        (FileManager.downloadDir_addChunkToSession w.manager hash chunkId data now)
        fun other => by rw [FileManager.find_addChunkToSession, h]
      rw [add, uploads_of_find h, FileManager.addChunkToSession_some h,
        FileTransferSession.addChunk_returned, step]
      dsimp only
      rw [hstore]
      simp only [Option.map_some, Option.bind_eq_bind, Option.bind_some, FileTransferSession.upload,
        FileTransferSession.tray_length, FileTransferSession.tray_addChunk, UInt32.lt_iff_toNat_lt,
        FileTransferSession.addChunk_savePath, decide_eq_true_iff,
        FileTransferSession.addChunk_lastActive]
      split
      next hlt => rfl
      next => rfl

theorem complete_refines (hash : Bytes) (env : DiskBehaviour) :
    Spec denote w.store (.inl (.complete hash env)) (step denote w (.complete hash env)).1.store
      (.inl (step denote w (.complete hash env)).2) := by
  refine doneOrRefused_step denote w rfl ?_
  cases h : w.manager.find hash with
  | none =>
      rw [complete, uploads_of_find h, FileManager.completeTransfer, h]
      rfl
  | some s =>
      have hheld := w.manager.held hash s h
      rw [complete, uploads_of_find h, FileManager.completeTransfer_returned denote h,
        hheld.isComplete_eq]
      simp only [Option.map_some, Option.bind_eq_bind, Option.bind_some, FileTransferSession.upload]
      split
      next hready =>
        have hreturned : (w.manager.completeTransfer denote hash env w.disk).returned = true := by
          rw [FileManager.completeTransfer_returned denote h, hheld.isComplete_eq, hready]
        rcases FileManager.completeTransfer_cases denote w.manager hash env w.disk with
          ⟨s', hs', -, -, -, -, hman, hdisk⟩ | ⟨hret, -, -⟩
        · obtain rfl : s = s' := Option.some.inj (h.symm.trans hs')
          rw [step]
          dsimp only
          rw [hman, hdisk, FileTransferSession.written_eq_tray, ← store_drop]
          rfl
        · rw [hret] at hreturned
          cases hreturned
      next => rfl

theorem cancel_refines (hash : Bytes) :
    Spec denote w.store (.inl (.cancel hash)) (step denote w (.cancel hash)).1.store
      (.inl (step denote w (.cancel hash)).2) := by
  refine doneOrRefused_step denote w rfl ?_
  rw [step, FileManager.cancelTransfer_eq, cancel]
  dsimp only
  rw [store_drop]
  cases h : w.manager.find hash with
  | none => rw [uploads_of_find h]; rfl
  | some s => rw [uploads_of_find h]; rfl

theorem cleanup_refines (maxIdleSeconds : UInt32) (clock : Nat → Time) :
    Spec denote w.store (.inl (.cleanup maxIdleSeconds clock))
      (step denote w (.cleanup maxIdleSeconds clock)).1.store
      (.inl (step denote w (.cleanup maxIdleSeconds clock)).2) := by
  have hkeys : w.manager.sessions.toList.map Prod.fst = w.manager.getActiveSessions :=
    Std.ExtTreeMap.map_fst_toList_eq_keys
  have hsorted := w.manager.getActiveSessions_sorted
  have hactive : ∀ hash, (w.store.uploads hash).isSome ↔ hash ∈ w.manager.getActiveSessions := by
    intro hash
    rw [w.manager.mem_getActiveSessions, World.store, Option.isSome_map]
  have hnodup : (w.manager.sessions.toList.map Prod.fst).Nodup := by
    rw [hkeys]
    exact Std.ExtTreeMap.nodup_keys
  obtain ⟨reading, hreading, -, hcleaned, hremoved⟩ :=
    cleanupLoop_readings maxIdleSeconds clock hnodup 0 w.manager
  rw [hkeys] at hreading
  refine ⟨(w.manager.cleanupIdleSessions maxIdleSeconds clock).cleaned, ⟨?_, reading, ?_, ?_⟩, ?_, ?_⟩
  · rw [FileManager.cleanupIdleSessions, hcleaned]
    refine List.Pairwise.sublist (List.filter_sublist.map Prod.fst) ?_
    rwa [hkeys]
  · intro hash hash' hup hup' hlt
    exact reading_lt hsorted hreading ((hactive hash).mp hup) ((hactive hash').mp hup') hlt
  · intro hash
    rw [FileManager.cleanupIdleSessions, hcleaned]
    simp only [List.mem_map, List.mem_filter, decide_eq_true_iff, World.store,
      Option.map_eq_some_iff]
    constructor
    · rintro ⟨⟨h, s⟩, ⟨hmem, hidle⟩, rfl⟩
      exact ⟨_, ⟨s, Std.ExtTreeMap.mem_toList_iff_getElem?_eq_some.mp hmem, rfl⟩, hidle⟩
    · rintro ⟨-, ⟨s, hs, rfl⟩, hidle⟩
      exact ⟨(hash, s), ⟨Std.ExtTreeMap.mem_toList_iff_getElem?_eq_some.mpr hs, hidle⟩, rfl⟩
  · refine ⟨?_, rfl, fun hash hin => ?_, fun hash hout => ?_⟩
    · exact (FileManager.cleanupLoop_spec maxIdleSeconds clock _ 0 w.manager).1
    · simp only [step, World.store, FileManager.find_cleanupIdleSessions, if_pos hin,
        Option.map_none]
    · simp only [step, World.store, FileManager.find_cleanupIdleSessions, if_neg hout]
  · rw [step, FileManager.cleanupIdleSessions, hremoved]

theorem query_refines (query : Query) :
    Spec denote w.store (.inr query) w.store (.inr (w.manager.ask query)) := by
  cases query with
  | getDownloadDirectory => exact ⟨rfl, rfl⟩
  | getSessionProgress hash =>
      refine ⟨rfl, ?_⟩
      rw [FileManager.ask, FileManager.getSessionProgress]
      cases h : w.manager.find hash with
      | none => rw [uploads_of_find h]; rfl
      | some s =>
          rw [uploads_of_find h]
          dsimp only
          rw [(w.manager.held hash s h).getProgressPercentage_eq]
          rfl
  | isTransferComplete hash =>
      refine ⟨rfl, ?_⟩
      rw [FileManager.ask, FileManager.isTransferComplete]
      cases h : w.manager.find hash with
      | none => rw [uploads_of_find h]; rfl
      | some s =>
          rw [uploads_of_find h]
          dsimp only
          rw [(w.manager.held hash s h).isComplete_eq]
          rfl
  | getActiveSessions => exact ⟨rfl, _, lists_getActiveSessions w, rfl⟩
  | sessionCount =>
      refine ⟨rfl, _, lists_getActiveSessions w, ?_⟩
      rw [FileManager.ask, FileManager.sessionCount, FileManager.getActiveSessions,
        Std.ExtTreeMap.length_keys]

theorem call_refines (c : Op ⊕ Query) :
    Spec denote w.store c (call denote w c).1.store (call denote w c).2 := by
  rcases c with op | query
  · cases op with
    | setDownloadDirectory dir created => exact setDirectory_refines denote w dir created
    | create hash name total now => exact create_refines denote w hash name total now
    | add hash chunkId data now => exact add_refines denote w hash chunkId data now
    | complete hash env => exact complete_refines denote w hash env
    | cancel hash => exact cancel_refines denote w hash
    | cleanup maxIdleSeconds clock => exact cleanup_refines denote w maxIdleSeconds clock
  · exact query_refines denote w query

end Refines

end Store

/-! ## Nothing is hidden -/

/-- A session that is held is determined by its hash and its upload. -/
theorem FileTransferSession.Held.ext_upload {s t : FileTransferSession} (hs : s.Held) (ht : t.Held)
    (hhash : s.fileHash = t.fileHash) (hupload : s.upload = t.upload) : s = t := by
  have hpath : s.savePath = t.savePath := congrArg Upload.path hupload
  have htray : s.tray = t.tray := congrArg Upload.tray hupload
  have hactive : s.lastActive = t.lastActive := congrArg Upload.active hupload
  have htotal : s.totalChunks = t.totalChunks := by
    rw [← UInt32.toNat_inj, ← s.tray_length, ← t.tray_length, htray]
  have hflags : s.receivedFlags = t.receivedFlags := by
    rw [hs.receivedFlags_eq, ht.receivedFlags_eq, htray]
  have hchunks : s.chunks = t.chunks := by
    refine Std.ExtTreeMap.ext_getElem? fun id => ?_
    by_cases hid : id.toNat < s.totalChunks.toNat
    · have hcell := congrArg (fun tray => tray[id.toNat]?) htray
      simpa [tray, ← htotal, hid] using hcell
    · -- an id that is out of range has no flag, and so no payload
      have houtside : ∀ u : FileTransferSession, u.totalChunks = s.totalChunks →
          u.chunks[id]? = none := by
        intro u hu
        by_contra hsome
        have hflag := u.chunks_flagged id (Std.ExtTreeMap.mem_iff_isSome_getElem?.mpr
          (Option.isSome_iff_ne_none.mpr hsome))
        have hlt := (List.getElem?_eq_some_iff.mp hflag).1
        rw [u.flags_length, hu] at hlt
        exact hid hlt
      rw [houtside s rfl, houtside t htotal.symm]
  cases s
  cases t
  simp_all

theorem World.store_injective : Function.Injective (World.store : World Node → Store Node) := by
  intro w w' heq
  have hdisk : w.disk = w'.disk := congrArg Store.disk heq
  have hman : w.manager = w'.manager := by
    refine FileManager.ext_find (congrArg Store.directory heq) fun hash => ?_
    have hup := congrFun (congrArg Store.uploads heq) hash
    simp only [World.store] at hup
    cases h : w.manager.find hash with
    | none =>
        rw [h, Option.map_none] at hup
        exact (Option.map_eq_none_iff.mp hup.symm).symm
    | some s =>
        rw [h, Option.map_some] at hup
        obtain ⟨t, ht, hupload⟩ := Option.map_eq_some_iff.mp hup.symm
        have hhash : s.fileHash = t.fileHash := by
          rw [w.manager.keyed hash s h, w'.manager.keyed hash t ht]
        rw [ht, (w.manager.held hash s h).ext_upload (w'.manager.held hash t ht) hhash hupload.symm]
  cases w
  cases w'
  simp_all

/-- Every run of calls is one that the store allows, with the same answers, and the store
shows all there is: two managers that are the same store on the same disk are equal. -/
theorem manager_refines_store [DecidableEq Node] (denote : Bytes → Node) (dir : Bytes)
    (disk : Disk Node) (calls : List (Op ⊕ Query)) :
    Refinement.Allows (Store.Spec denote) (Store.empty dir disk) calls
        (called denote dir disk calls).store
        (Run.outputs (call denote) ⟨FileManager.new dir, disk⟩ calls) ∧
      Function.Injective (World.store : World Node → Store Node) := by
  refine ⟨?_, World.store_injective⟩
  rw [← World.store_start]
  exact Refinement.Allows.of_step (Store.call_refines denote) _ calls

end EggDelivery
