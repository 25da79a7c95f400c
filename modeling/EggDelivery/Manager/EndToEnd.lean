import EggDelivery.Manager.Filling
import EggDelivery.Manager.Runs

/-!
# From a file to a file

A receiver opens a session for the chunks of one file and then meets deliveries
of them, in any order and number, between calls about other hashes. `Underway`
is the invariant of such a run: the session holds exactly what has been delivered.
The transfer works when the sender's chunk count comes out right, which is the
only condition.
-/

namespace EggDelivery

open Fips180 Slices FileManager

/-- A chunk crosses the wire and is decoded into `target`, or another call comes in. -/
inductive Event where
  | deliver (chunk target : FileChunk) (now : Time)
  | foreign (op : Op)

/-- The calls that may come in between: create, add, complete and cancel, for
other hashes. -/
def Op.IsForeign (hash : Bytes) : Op → Prop
  | .create h _ _ _ => h ≠ hash
  | .add h _ _ _ => h ≠ hash
  | .complete h _ => h ≠ hash
  | .cancel h => h ≠ hash
  | .setDownloadDirectory _ _ => False
  | .cleanup _ _ => False

def Event.Admissible (hash : Bytes) (cs : List FileChunk) : Event → Prop
  | .deliver chunk _ _ => chunk ∈ cs
  | .foreign op => op.IsForeign hash

def delivered (events : List Event) : List FileChunk :=
  events.filterMap fun e =>
    match e with
    | .deliver chunk _ _ => some chunk
    | .foreign _ => none

section Receive

variable {Node : Type} [DecidableEq Node] (denote : Bytes → Node)

/-- `if (c.deserialize(wire)) fm.addChunkToSession(...)`, or the call. -/
def receive (w : World Node) : Event → World Node × Answer
  | .deliver chunk target now =>
      match target.deserialize 64 chunk.serialize with
      | .ok (true, c) => step denote w (.add c.fileHash c.chunkId c.data now)
      | .ok (false, _) => (w, .flag false)
      | .error _ => (w, .flag false)
  | .foreign op => step denote w op

/-- One reception as it should be: every delivery is accepted, the transfer
is complete exactly when all chunks have arrived, and completing it then stores
`content` and ends the session. -/
structure Received (hash path content : Bytes) (cs : List FileChunk) (w : World Node)
    (events : List Event) : Prop where
  accepted : ∀ e ∈ Run.log (receive denote) w events,
    (∃ chunk target now, e.1 = .deliver chunk target now) → e.2 = .flag true
  complete_iff : (Run.final (receive denote) w events).manager.isTransferComplete hash = true ↔
    ∀ c ∈ cs, c ∈ delivered events
  completes : (∀ c ∈ cs, c ∈ delivered events) → ∀ env : DiskBehaviour, env.Succeeds →
    let now := Run.final (receive denote) w events
    (now.manager.completeTransfer denote hash env now.disk).returned = true ∧
      (now.manager.completeTransfer denote hash env now.disk).disk (denote path) =
        some content ∧
      (now.manager.completeTransfer denote hash env now.disk).manager.find hash = none

end Receive

def DeliversEndToEnd (m : Bytes) (chunkSize : UInt32) : Prop :=
  ∃ cs, readAndChunkFile (FileView.ofContent m) chunkSize = .ok cs ∧
    ∀ (Node : Type) [DecidableEq Node] (denote : Bytes → Node) (w : World Node) (name : Bytes)
      (now : Time), w.manager.find (hexDigest m) = none →
      (step denote w (.create (hexDigest m) name (UInt32.ofNat cs.length) now)).2 = .flag true ∧
      ∀ events : List Event, (∀ e ∈ events, e.Admissible (hexDigest m) cs) →
        Received denote (hexDigest m) (w.manager.savePath name) m cs
          (step denote w (.create (hexDigest m) name (UInt32.ofNat cs.length) now)).1 events

/-! ## One transfer, whatever its payloads -/

section Underway

variable {Node : Type} [DecidableEq Node] (denote : Bytes → Node) {hash path : Bytes}
  {parts : List Bytes}

def HasArrived (hash : Bytes) (parts : List Bytes) (events : List Event) (i : Nat) : Prop :=
  ∃ part, parts[i]? = some part ∧ chunkAt hash parts i part ∈ delivered events

def Underway (hash path : Bytes) (parts : List Bytes) (past : List (Event × Answer))
    (w : World Node) : Prop :=
  (∀ e ∈ past, (∃ chunk target now, e.1 = .deliver chunk target now) → e.2 = .flag true) ∧
    ∃ s, w.manager.find hash = some s ∧
      Filling path parts (HasArrived hash parts (past.map Prod.fst)) s

theorem find_step_foreign (w : World Node) {op : Op} (hop : op.IsForeign hash) :
    (step denote w op).1.manager.find hash = w.manager.find hash := by
  cases op with
  | setDownloadDirectory dir created => exact hop.elim
  | create h name total now =>
      simp only [step]
      rw [find_createTransferSession, if_neg fun hn => hop hn.1]
  | add h chunkId data now =>
      simp only [step]
      rw [find_addChunkToSession, if_neg hop]
  | complete h env =>
      simp only [step]
      rw [find_completeTransfer, if_neg fun hn => hop hn.1]
  | cancel h =>
      simp only [step]
      rw [cancelTransfer_eq, find_drop, if_neg hop]
  | cleanup maxIdleSeconds clock => exact hop.elim

theorem hasArrived_concat (hlen : parts.length < 2 ^ 32) {i : Nat} {part : Bytes}
    (hi : parts[i]? = some part) (events : List Event) (target : FileChunk) (now : Time) {j : Nat}
    (hj : j < parts.length) :
    HasArrived hash parts (events ++ [.deliver (chunkAt hash parts i part) target now]) j ↔
      HasArrived hash parts events j ∨ j = i := by
  simp only [HasArrived, delivered, List.filterMap_append, List.filterMap_cons,
    List.filterMap_nil, List.mem_append, List.mem_singleton]
  constructor
  · rintro ⟨p, hp, hmem | heq⟩
    · exact Or.inl ⟨p, hp, hmem⟩
    · have hid := congrArg (fun c => c.chunkId.toNat) heq
      have hilt : i < 2 ^ 32 := lt_trans (List.getElem?_eq_some_iff.mp hi).1 hlen
      have hjlt : j < 2 ^ 32 := lt_trans hj hlen
      simp only [chunkAt] at hid
      rw [UInt32.toNat_ofNat_of_lt' hjlt, UInt32.toNat_ofNat_of_lt' hilt] at hid
      exact Or.inr hid
  · rintro (⟨p, hp, hmem⟩ | rfl)
    · exact ⟨p, hp, Or.inl hmem⟩
    · exact ⟨part, hi, Or.inr rfl⟩

theorem underway_step (hhash : hash.length < 2 ^ 32) (hlen : parts.length < 2 ^ 32)
    (hparts : ∀ part ∈ parts, part.length < 2 ^ 32) {past : List (Event × Answer)}
    {w : World Node} {e : Event} (he : e.Admissible hash (chunked hash parts))
    (h : Underway hash path parts past w) :
    Underway hash path parts (past ++ [(e, (receive denote w e).2)]) (receive denote w e).1 := by
  obtain ⟨hacc, s, hfind, hfill⟩ := h
  cases e with
  | foreign op =>
      refine ⟨fun e' he' hdel => ?_, s, ?_, ?_⟩
      · rcases List.mem_append.mp he' with he' | he'
        · exact hacc e' he' hdel
        · obtain ⟨chunk, target, now, heq⟩ := hdel
          rw [List.mem_singleton.mp he'] at heq
          cases heq
      · exact (find_step_foreign denote w he).trans hfind
      · exact hfill.congr fun i _ => by simp [HasArrived, delivered]
  | deliver chunk target now =>
      obtain ⟨i, part, hi, rfl⟩ := mem_chunked.mp he
      have hpart := hparts part (List.mem_of_getElem? hi)
      have hreceive : receive denote w (.deliver (chunkAt hash parts i part) target now) =
          step denote w (.add hash (UInt32.ofNat i) part now) := by
        rw [receive, deserialize_chunkAt target hhash parts i hpart]
        rfl
      obtain ⟨hret, hfill'⟩ := hfill.add hlen hi now
      rw [hreceive]
      simp only [step]
      refine ⟨fun e' he' hdel => ?_, (s.addChunk (UInt32.ofNat i) part now).2, ?_, ?_⟩
      · rcases List.mem_append.mp he' with he' | he'
        · exact hacc e' he' hdel
        · rw [List.mem_singleton.mp he', addChunkToSession_some hfind, hret]
      · rw [find_addChunkToSession, if_pos rfl, hfind, Option.map_some]
      · rw [List.map_append]
        exact hfill'.congr fun j hj => (hasArrived_concat hlen hi _ target now hj).symm

theorem received_chunked (hhash : hash.length < 2 ^ 32) (hlen : parts.length < 2 ^ 32)
    (hparts : ∀ part ∈ parts, part.length < 2 ^ 32) {w : World Node} {s : FileTransferSession}
    (hfind : w.manager.find hash = some s) (hfill : Filling path parts (fun _ => False) s)
    {events : List Event} (hadm : ∀ e ∈ events, e.Admissible hash (chunked hash parts)) :
    Received denote hash path parts.flatten (chunked hash parts) w events := by
  have hstart : Underway hash path parts [] w := by
    refine ⟨by simp, s, hfind, hfill.congr fun i _ => ?_⟩
    simp [HasArrived, delivered]
  obtain ⟨hacc, t, ht, hfill'⟩ := Run.log_invariant (receive denote)
    (P := fun past w => Underway hash path parts past w) hstart
    (fun _ _ _ he h => underway_step denote hhash hlen hparts he h) events hadm
  have hevents : (Run.log (receive denote) w events).map Prod.fst = events := by
    rw [Run.log, List.map_fst_zip (by simp)]
  rw [hevents] at hfill'
  have hall : (∀ c ∈ chunked hash parts, c ∈ delivered events) ↔
      ∀ i, i < parts.length → HasArrived hash parts events i := by
    constructor
    · intro hc i hi
      have hpart := List.getElem?_eq_getElem hi
      exact ⟨_, hpart, hc _ (mem_chunked.mpr ⟨i, _, hpart, rfl⟩)⟩
    · intro hi c hc
      obtain ⟨i, part, hpart, rfl⟩ := mem_chunked.mp hc
      obtain ⟨part', hpart', hmem⟩ := hi i (List.getElem?_eq_some_iff.mp hpart).1
      rwa [Option.some.inj (hpart.symm.trans hpart')]
  refine ⟨hacc, ?_, fun hc env henv => ?_⟩
  · rw [isTransferComplete_iff ht hfill' hlen, hall]
  · obtain ⟨hret, hman, hdisk, -⟩ :=
      completeTransfer_of_filled denote _ ht hfill' hlen (hall.mp hc) henv
    refine ⟨hret, ?_, ?_⟩
    · rw [hdisk, Function.update_self]
    · rw [hman, find_drop, if_pos rfl]

end Underway

/-! ## Every content and every chunk size -/

theorem received_created {Node : Type} [DecidableEq Node] (denote : Bytes → Node)
    {hash : Bytes} (hhash : hash.length < 2 ^ 32) {parts : List Bytes}
    (hlen : parts.length < 2 ^ 32) (hparts : ∀ part ∈ parts, part.length < 2 ^ 32)
    (w : World Node) (name : Bytes) (now : Time) (hnone : w.manager.find hash = none) :
    (step denote w (.create hash name (UInt32.ofNat (chunked hash parts).length) now)).2 =
        .flag true ∧
      ∀ events : List Event, (∀ e ∈ events, e.Admissible hash (chunked hash parts)) →
        Received denote hash (w.manager.savePath name) parts.flatten (chunked hash parts)
          (step denote w
            (.create hash name (UInt32.ofNat (chunked hash parts).length) now)).1 events := by
  rw [chunked_length]
  simp only [step]
  rw [createTransferSession_none hnone]
  refine ⟨rfl, fun events hadm => ?_⟩
  refine received_chunked denote hhash hlen hparts ?_ (Filling.fresh hash _ parts now) hadm
  rw [find_put]
  exact if_pos rfl

/-- The transfer works exactly when the size plus the chunk size is a value of
`std::streamsize`, where the sender forms that sum. -/
theorem deliversEndToEnd_iff (m : Bytes) (chunkSize : UInt32) (hpos : 0 < chunkSize)
    (hcount : (m.length + chunkSize.toNat - 1) / chunkSize.toNat < 2 ^ 32) :
    DeliversEndToEnd m chunkSize ↔ m.length + chunkSize.toNat < 2 ^ 63 := by
  have hhash : (hexDigest m).length < 2 ^ 32 := by
    rw [hexDigest_length]
    decide
  constructor
  · rintro ⟨cs, hread, hrun⟩
    by_contra hlarge
    have hsum : 2 ^ 63 ≤ m.length + chunkSize.toNat := Nat.not_lt.mp hlarge
    by_cases hopen : m.length < 2 ^ 63
    · rw [readAndChunkFile_overflow hopen hsum] at hread
      cases hread
    · -- the file does not open: the empty list of chunks completes with no bytes
      have hlong : 2 ^ 63 ≤ m.length := Nat.not_lt.mp hopen
      rw [readAndChunkFile_too_long hlong] at hread
      cases hread
      obtain ⟨-, hrecv⟩ := hrun Bytes id ⟨FileManager.new [], fun _ => none⟩ [] 0 (by simp)
      have hzero : ([] : List Bytes).length < 2 ^ 32 := by simp
      obtain ⟨-, hempty⟩ := received_created id hhash hzero (by simp)
        ⟨FileManager.new [], fun _ => none⟩ [] 0 (by simp)
      obtain ⟨-, hdisk, -⟩ := (hrecv [] (by simp)).completes (by simp) {} ⟨rfl, rfl, rfl⟩
      obtain ⟨-, hdisk', -⟩ :=
        (hempty [] (by simp)).completes (by simp [chunked]) {} ⟨rfl, rfl, rfl⟩
      have hm : m = [] := Option.some.inj (hdisk.symm.trans hdisk')
      rw [hm] at hlong
      exact absurd hlong (by decide)
  · intro hsmall
    refine ⟨_, readAndChunkFile_of_lt hpos hsmall, fun Node _ denote w name now hnone => ?_⟩
    have hrecv := received_created denote hhash (payloads_length_lt m chunkSize)
      (fun part hpart => (length_le_of_mem_payloads hpart).trans_lt chunkSize.toNat_lt) w name now
      hnone
    rwa [payloads_flatten hpos hcount] at hrecv

theorem deliversEndToEnd_three_bytes : DeliversEndToEnd [1, 2, 3] 2 :=
  (deliversEndToEnd_iff [1, 2, 3] 2 (by decide) (by decide)).mpr (by decide)

/-- The largest file there can be, in chunks of `2 ^ 31 + 1` bytes. -/
theorem not_deliversEndToEnd_largest :
    ¬∀ (m : Bytes) (chunkSize : UInt32), 0 < chunkSize →
      (m.length + chunkSize.toNat - 1) / chunkSize.toNat < 2 ^ 32 →
      DeliversEndToEnd m chunkSize := by
  intro h
  obtain ⟨cs, hread, -⟩ := h (List.replicate (2 ^ 63 - 1) 0) (2 ^ 31 + 1) (by decide)
    (by rw [List.length_replicate]; decide)
  rw [readAndChunkFile_overflow (by rw [List.length_replicate]; decide)
    (by rw [List.length_replicate]; decide)] at hread
  cases hread

end EggDelivery
