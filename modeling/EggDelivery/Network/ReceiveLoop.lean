import Mathlib.Data.List.TakeWhile
import EggDelivery.Network.Family

/-!
# The receive loop over whole packets

When every result of `recv_bytes` is one packet, the loop delivers any family of
files in any order of their chunks. The sender sets the limit: its chunk count is a
`uint32_t`, and a file with more chunks than that is cut short before it is sent.
-/

namespace EggDelivery

open Fips180 Slices

section Run

variable {Node : Type} {denote : Bytes → Node} {disk : Disk Node} {ts : List Transfer}
  {junk : List Bytes} {arrivals : List Arrival}

/-! ## Arrivals of a family -/

/-- The arrivals are all packets of the family, each once, and noise, in any order. -/
structure Shuffled (ts : List Transfer) (junk : List Bytes) (arrivals : List Arrival) :
    Prop where
  perm : (arrivals.map Arrival.pkg).Perm (ts.flatMap Transfer.packets ++ junk)
  noise : ∀ pkg ∈ junk, pkg ≠ [] ∧ Rejected pkg
  succeeds : ∀ a ∈ arrivals, a.env.Succeeds

theorem Separate.packets_nodup (hsep : Separate denote ts) :
    (ts.flatMap Transfer.packets).Nodup := by
  refine List.nodup_flatMap.mpr ⟨fun t _ => t.packets_nodup, ?_⟩
  refine (List.pairwise_map.mp hsep.hashes).imp fun {t t'} hne pkg hpkg hpkg' => hne ?_
  obtain ⟨i, part, hi, rfl⟩ := Transfer.mem_packets.mp hpkg
  obtain ⟨j, part', hj, heq⟩ := Transfer.mem_packets.mp hpkg'
  exact (Transfer.packet_injective hi hj heq).1

theorem Shuffled.count_le_one (h : Shuffled ts junk arrivals) (hsep : Separate denote ts)
    {t : Transfer} {pkg : Bytes} (hpkg : pkg ∈ t.packets) :
    (arrivals.map Arrival.pkg).count pkg ≤ 1 := by
  have hnoise : junk.count pkg = 0 := List.count_eq_zero.mpr fun hmem =>
    not_rejected_of_mem hpkg (h.noise pkg hmem).2
  rw [h.perm.count_eq, List.count_append, hnoise]
  exact List.nodup_iff_count_le_one.mp hsep.packets_nodup pkg

theorem Shuffled.mem (h : Shuffled ts junk arrivals) {t : Transfer} (ht : t ∈ ts) {pkg : Bytes}
    (hpkg : pkg ∈ t.packets) : pkg ∈ arrivals.map Arrival.pkg :=
  h.perm.mem_iff.mpr (List.mem_append_left _ (List.mem_flatMap.mpr ⟨t, ht, hpkg⟩))

theorem Shuffled.ne_nil (h : Shuffled ts junk arrivals) : ∀ a ∈ arrivals, a.pkg ≠ [] := by
  intro a ha hnil
  rcases List.mem_append.mp (h.perm.mem_iff.mp (List.mem_map_of_mem ha)) with hmem | hmem
  · obtain ⟨t, -, hpkg⟩ := List.mem_flatMap.mp hmem
    exact Transfer.ne_nil_of_mem_packets hpkg hnil
  · exact (h.noise _ hmem).1 hnil

theorem Shuffled.acceptable (h : Shuffled ts junk arrivals) (hsep : Separate denote ts)
    {past rest : List Arrival} {a : Arrival} (hsplit : arrivals = past ++ a :: rest) :
    Acceptable ts past a := by
  have ha : a ∈ arrivals := by simp [hsplit]
  rcases List.mem_append.mp (h.perm.mem_iff.mp (List.mem_map_of_mem ha)) with hmem | hmem
  · obtain ⟨t, ht, hpkg⟩ := List.mem_flatMap.mp hmem
    refine Or.inl ⟨h.succeeds a ha, ⟨t, ht, hpkg⟩, fun hold => ?_⟩
    have hcount := h.count_le_one hsep hpkg
    rw [hsplit, List.map_append, List.map_cons, List.count_append, List.count_cons_self] at hcount
    have := List.count_pos_iff.mpr hold
    omega
  · exact Or.inr (h.noise _ hmem).2

theorem Shuffled.finished_iff (h : Shuffled ts junk arrivals) (hsep : Separate denote ts)
    {t : Transfer} (ht : t ∈ ts) {past rest : List Arrival} (hsplit : arrivals = past ++ rest)
    (hne : t.parts ≠ []) : t.Finished past ↔ ∀ b ∈ rest, b.pkg ∉ t.packets := by
  constructor
  · intro hfin b hb hpkg
    obtain ⟨before, tail, rfl⟩ := List.append_of_mem hb
    have hacc := h.acceptable hsep
      (by rw [hsplit]; simp : arrivals = (past ++ before) ++ b :: tail)
    rcases hacc with ⟨-, -, hnew⟩ | hrej
    · refine not_finished_of_new hpkg (fun hold => hnew ?_) hfin
      rw [List.map_append]
      exact List.mem_append_left _ hold
    · exact not_rejected_of_mem hpkg hrej
  · intro hlast
    refine ⟨hne, fun i hi => ?_⟩
    have hpart := List.getElem?_eq_getElem hi
    have hpkg : (chunkAt t.hash t.parts i t.parts[i]).serialize ∈ t.packets :=
      Transfer.mem_packets.mpr ⟨i, _, hpart, rfl⟩
    refine ⟨_, hpart, ?_⟩
    have hmem := h.mem ht hpkg
    rw [hsplit, List.map_append] at hmem
    rcases List.mem_append.mp hmem with hmem | hmem
    · exact hmem
    · obtain ⟨b, hb, heq⟩ := List.mem_map.mp hmem
      exact (hlast b hb (heq ▸ hpkg)).elim

variable [DecidableEq Node]

theorem Shuffled.progress (h : Shuffled ts junk arrivals) (hsep : Separate denote ts)
    {past rest : List Arrival} (hsplit : arrivals = past ++ rest) :
    Progress denote ts disk past
      (Run.final (recvFileStep denote) (startReceiver disk) past) := by
  refine Run.history_invariant (recvFileStep denote) (A := Acceptable ts)
    (P := Progress denote ts disk) (progress_start denote ts disk)
    (fun _ _ _ ha hp => progress_step hsep ha hp) past fun before a hpre => ?_
  obtain ⟨tail, rfl⟩ := hpre
  exact h.acceptable hsep (by rw [hsplit]; simp : arrivals = before ++ a :: (tail ++ rest))

/-! ## What the loop delivers -/

private theorem exists_last {α : Type} {p : α → Prop} {l : List α} (h : ∃ a ∈ l, p a) :
    ∃ before a after, l = before ++ a :: after ∧ p a ∧ ∀ b ∈ after, ¬p b := by
  induction l with
  | nil => simp at h
  | cons x xs ih =>
      by_cases hxs : ∃ a ∈ xs, p a
      · obtain ⟨before, a, after, rfl, ha, hafter⟩ := ih hxs
        exact ⟨x :: before, a, after, rfl, ha, hafter⟩
      · obtain ⟨a, ha, hpa⟩ := h
        rcases List.mem_cons.mp ha with rfl | ha
        · exact ⟨[], a, xs, rfl, hpa, fun b hb hpb => hxs ⟨b, hb, hpb⟩⟩
        · exact (hxs ⟨a, ha, hpa⟩).elim

private theorem last_unique {α : Type} {p : α → Prop} {before before' after after' : List α}
    {a a' : α} (h : before ++ a :: after = before' ++ a' :: after') (ha : p a)
    (hafter : ∀ b ∈ after, ¬p b) (ha' : p a') (hafter' : ∀ b ∈ after', ¬p b) :
    before = before' := by
  rcases List.append_eq_append_iff.mp h with ⟨mid, rfl, hmid⟩ | ⟨mid, rfl, hmid⟩
  · cases mid with
    | nil => exact (List.append_nil _).symm
    | cons x mid =>
        obtain ⟨rfl, rfl⟩ := List.cons.inj hmid
        exact (hafter a' (by simp) ha').elim
  · cases mid with
    | nil => exact List.append_nil _
    | cons x mid =>
        obtain ⟨rfl, rfl⟩ := List.cons.inj hmid
        exact (hafter' a (by simp) ha).elim

def turn (denote : Bytes → Node) (disk : Disk Node) (past : List Arrival) (a : Arrival) :
    Receiver Node × PacketReport Node :=
  recvFileStep denote (Run.final (recvFileStep denote) (startReceiver disk) past) a

/-- These packets, on a disk that does what it is asked. -/
def plainArrivals (pkgs : List Bytes) : List Arrival := pkgs.map fun pkg => { pkg }

theorem plainArrivals_pkg (pkgs : List Bytes) : (plainArrivals pkgs).map Arrival.pkg = pkgs := by
  rw [plainArrivals, List.map_map]
  exact List.map_id _

theorem plainArrivals_succeeds (pkgs : List Bytes) : ∀ a ∈ plainArrivals pkgs, a.env.Succeeds := by
  intro a ha
  obtain ⟨pkg, -, rfl⟩ := List.mem_map.mp ha
  exact ⟨rfl, rfl, rfl⟩

/-- A family as the loop leaves it: every transfer with chunks is stored, written at
its last chunk, written once, and forgotten. -/
structure FamilyReceived (denote : Bytes → Node) (disk : Disk Node) (ts : List Transfer)
    (arrivals : List Arrival) : Prop where
  stored : ∀ t ∈ ts, t.parts ≠ [] →
    (recvFileLoop denote disk arrivals).1.disk (denote (savedAs t.hash)) = some t.content
  untouched : ∀ node, (∀ t ∈ ts, t.parts ≠ [] → denote (savedAs t.hash) ≠ node) →
    (recvFileLoop denote disk arrivals).1.disk node = disk node
  wrote : ∀ past a rest, arrivals = past ++ a :: rest → ∀ w,
    (turn denote disk past a).2.wrote = some w ↔
      ∃ t ∈ ts, w = (savedAs t.hash, t.content) ∧ a.pkg ∈ t.packets ∧
        ∀ b ∈ rest, b.pkg ∉ t.packets
  once : ∀ t ∈ ts, t.parts ≠ [] →
    ((recvFileLoop denote disk arrivals).2.filterMap PacketReport.wrote).count
      (savedAs t.hash, t.content) = 1
  empty : (recvFileLoop denote disk arrivals).1.sessionMap = ∅ ∧
    (recvFileLoop denote disk arrivals).1.fm.sessions = ∅

theorem recvFileLoop_of_ne_nil (h : ∀ a ∈ arrivals, a.pkg ≠ []) :
    recvFileLoop denote disk arrivals =
      (Run.final (recvFileStep denote) (startReceiver disk) arrivals,
        Run.outputs (recvFileStep denote) (startReceiver disk) arrivals) := by
  rw [recvFileLoop, List.takeWhile_eq_self_iff.mpr fun a ha => by simpa using h a ha]
  rfl

theorem Shuffled.turn_wrote_iff (h : Shuffled ts junk arrivals) (hsep : Separate denote ts)
    {past rest : List Arrival} {a : Arrival} (hsplit : arrivals = past ++ a :: rest)
    (w : Bytes × Bytes) :
    (turn denote disk past a).2.wrote = some w ↔
      ∃ t ∈ ts, w = (savedAs t.hash, t.content) ∧ a.pkg ∈ t.packets ∧
        ∀ b ∈ rest, b.pkg ∉ t.packets := by
  rw [turn, wrote_iff hsep (h.acceptable hsep hsplit) (h.progress hsep hsplit)]
  refine exists_congr fun t => and_congr_right fun ht => and_congr_right fun _ =>
    and_congr_right fun hpkg => ?_
  have hne : t.parts ≠ [] := by
    obtain ⟨i, part, hi, -⟩ := Transfer.mem_packets.mp hpkg
    rintro hnil
    rw [hnil] at hi
    simp at hi
  exact h.finished_iff hsep ht (by rw [hsplit]; simp : arrivals = (past ++ [a]) ++ rest) hne

theorem Shuffled.exists_last_packet (h : Shuffled ts junk arrivals) {t : Transfer} (ht : t ∈ ts)
    (hne : t.parts ≠ []) :
    ∃ past a rest, arrivals = past ++ a :: rest ∧ a.pkg ∈ t.packets ∧
      ∀ b ∈ rest, b.pkg ∉ t.packets := by
  obtain ⟨part, hpart⟩ : ∃ part, t.parts[0]? = some part :=
    ⟨_, List.getElem?_eq_getElem (List.length_pos_iff.mpr hne)⟩
  have hpkg : (chunkAt t.hash t.parts 0 part).serialize ∈ t.packets :=
    Transfer.mem_packets.mpr ⟨0, part, hpart, rfl⟩
  obtain ⟨a, ha, heq⟩ := List.mem_map.mp (h.mem ht hpkg)
  exact exists_last (p := fun b : Arrival => b.pkg ∈ t.packets) ⟨a, ha, heq ▸ hpkg⟩

/-- The turn on its last packet is the only one that writes a transfer. -/
theorem Shuffled.count_wrote (h : Shuffled ts junk arrivals) (hsep : Separate denote ts)
    {t : Transfer} (ht : t ∈ ts) (hne : t.parts ≠ []) :
    ((Run.outputs (recvFileStep denote) (startReceiver disk) arrivals).filterMap
      PacketReport.wrote).count (savedAs t.hash, t.content) = 1 := by
  obtain ⟨past, a, rest, hsplit, hpkg, hlast⟩ := h.exists_last_packet ht hne
  have hturn : (turn denote disk past a).2.wrote = some (savedAs t.hash, t.content) :=
    (h.turn_wrote_iff hsep hsplit _).mpr ⟨t, ht, rfl, hpkg, hlast⟩
  have honly : ∀ past' b rest', past ++ a :: rest = past' ++ b :: rest' →
      (turn denote disk past' b).2.wrote = some (savedAs t.hash, t.content) → past' = past := by
    intro past' b rest' hsplit' hw
    obtain ⟨t', ht', heq, hpkg', hlast'⟩ :=
      (h.turn_wrote_iff hsep (hsplit.trans hsplit') _).mp hw
    have hhash : t.hash = t'.hash := savedAs_injective (congrArg Prod.fst heq)
    obtain rfl := hsep.eq_of_hash ht ht' hhash
    exact last_unique (p := fun b : Arrival => b.pkg ∈ t.packets) hsplit'.symm hpkg' hlast' hpkg hlast
  rw [hsplit]
  exact Run.count_filterMap_outputs (recvFileStep denote) hturn honly

theorem familyReceived (hsep : Separate denote ts) (h : Shuffled ts junk arrivals) :
    FamilyReceived denote disk ts arrivals := by
  have hrun : recvFileLoop denote disk arrivals = _ := recvFileLoop_of_ne_nil h.ne_nil
  have hend : Progress denote ts disk arrivals _ :=
    h.progress hsep (by simp : arrivals = arrivals ++ [])
  have hfin : ∀ t ∈ ts, t.parts ≠ [] → t.Finished arrivals := fun t ht hne =>
    (h.finished_iff hsep ht (by simp : arrivals = arrivals ++ []) hne).mpr (by simp)
  have hidle : ∀ hash, Idle (Run.final (recvFileStep denote) (startReceiver disk) arrivals)
      hash := by
    intro hash
    by_cases hmem : ∃ t ∈ ts, t.parts ≠ [] ∧ t.hash = hash
    · obtain ⟨t, ht, hne, rfl⟩ := hmem
      exact (hend.finished t ht (hfin t ht hne)).1
    · exact hend.foreign hash fun t ht hne heq => hmem ⟨t, ht, hne, heq⟩
  constructor
  case stored =>
    intro t ht hne
    rw [hrun]
    exact (hend.finished t ht (hfin t ht hne)).2
  case untouched =>
    intro node hnode
    rw [hrun]
    exact hend.untouched node hnode
  case wrote => exact fun past a rest hsplit w => h.turn_wrote_iff hsep hsplit w
  case once =>
    intro t ht hne
    rw [hrun]
    exact h.count_wrote hsep ht hne
  case empty =>
    rw [hrun]
    exact ⟨Std.ExtTreeMap.ext_getElem? fun k => by simpa using (hidle k).2,
      Std.ExtTreeMap.ext_getElem? fun k => by simpa [FileManager.find] using (hidle k).1⟩

end Run

/-! ## Files -/

/-- The longest file whose chunk count is a `uint32_t`. -/
def maxFileSize : Nat := (2 ^ 32 - 1) * defaultChunkSize.toNat

/-- The transfer that `send_file` makes of a content; a file that does not open has
no chunks. -/
def fileTransfer (m : Bytes) : Transfer where
  hash := hexDigest m
  parts := if m.length < 2 ^ 63 then payloads m defaultChunkSize else []
  hash_length := by
    rw [hexDigest_length]
    decide
  parts_length := by
    split
    next => exact payloads_length_lt m defaultChunkSize
    next => decide
  part_length := by
    intro part hpart
    split at hpart
    next => exact (length_le_of_mem_payloads hpart).trans_lt defaultChunkSize.toNat_lt
    next => simp at hpart

theorem readAndChunkFile_default {m : Bytes} {cs : List FileChunk}
    (h : readAndChunkFile (FileView.ofContent m) defaultChunkSize = .ok cs) :
    cs = chunked (hexDigest m) (fileTransfer m).parts := by
  by_cases hopen : m.length < 2 ^ 63
  · by_cases hsum : m.length + defaultChunkSize.toNat < 2 ^ 63
    · rw [readAndChunkFile_of_lt (by decide) hsum] at h
      cases h
      simp only [fileTransfer, if_pos hopen]
    · rw [readAndChunkFile_overflow hopen (Nat.not_lt.mp hsum)] at h
      cases h
  · rw [readAndChunkFile_too_long (Nat.not_lt.mp hopen)] at h
    cases h
    simp only [fileTransfer, if_neg hopen]
    rfl

theorem readAndChunkFile_of_le {m : Bytes} (h : m.length ≤ maxFileSize) :
    readAndChunkFile (FileView.ofContent m) defaultChunkSize =
      .ok (chunked (hexDigest m) (fileTransfer m).parts) := by
  have hsize : defaultChunkSize.toNat = 65536 := rfl
  have hmax : maxFileSize = (2 ^ 32 - 1) * 65536 := rfl
  have hsum : m.length + defaultChunkSize.toNat < 2 ^ 63 := by omega
  have hopen : m.length < 2 ^ 63 := by omega
  rw [readAndChunkFile_of_lt (by decide) hsum]
  simp only [fileTransfer, if_pos hopen]

/-- The chunks carry the content exactly up to that size. -/
theorem fileTransfer_content_iff {m : Bytes} (hne : m ≠ []) :
    ((fileTransfer m).parts ≠ [] ∧ (fileTransfer m).content = m) ↔ m.length ≤ maxFileSize := by
  have hsize : defaultChunkSize.toNat = 65536 := rfl
  have hmax : maxFileSize = (2 ^ 32 - 1) * 65536 := rfl
  have hpos : 0 < m.length := List.length_pos_iff.mpr hne
  constructor
  · rintro ⟨-, hcontent⟩
    by_contra hlong
    have hlen := congrArg List.length hcontent
    simp only [Transfer.content, fileTransfer] at hlen
    split at hlen
    next hopen =>
      have hmod := Nat.mod_lt ((m.length + defaultChunkSize.toNat - 1) / defaultChunkSize.toNat)
        (show 0 < 2 ^ 32 by decide)
      rw [payloads, flatten_slices, List.length_take, hsize] at hlen
      rw [hsize] at hmod
      omega
    next => exact hpos.ne' (by simpa using hlen.symm)
  · intro hle
    have hopen : m.length < 2 ^ 63 := by omega
    have hcount : (m.length + defaultChunkSize.toNat - 1) / defaultChunkSize.toNat < 2 ^ 32 := by
      rw [hsize]
      omega
    have hcontent : (fileTransfer m).content = m := by
      simp only [Transfer.content, fileTransfer, if_pos hopen]
      exact payloads_flatten (by decide) hcount
    refine ⟨fun hnil => hne ?_, hcontent⟩
    rw [← hcontent, Transfer.content, hnil, List.flatten_nil]

theorem content_fileTransfer {m : Bytes} (hlen : m.length ≤ maxFileSize) :
    (fileTransfer m).content = m := by
  by_cases hne : m = []
  · subst hne
    rfl
  · exact ((fileTransfer_content_iff hne).mpr hlen).2

structure FilesReceived {Node : Type} [DecidableEq Node] (denote : Bytes → Node)
    (disk : Disk Node) (files : List Bytes) (chunksOf : Bytes → List FileChunk)
    (arrivals : List Arrival) : Prop where
  stored : ∀ m ∈ files,
    (recvFileLoop denote disk arrivals).1.disk (denote (savedAs (hexDigest m))) = some m
  wrote : ∀ past a rest, arrivals = past ++ a :: rest → ∀ w,
    (turn denote disk past a).2.wrote = some w ↔
      ∃ m ∈ files, w = (savedAs (hexDigest m), m) ∧
        a.pkg ∈ (chunksOf m).map FileChunk.serialize ∧
        ∀ b ∈ rest, b.pkg ∉ (chunksOf m).map FileChunk.serialize
  once : ∀ m ∈ files,
    ((recvFileLoop denote disk arrivals).2.filterMap PacketReport.wrote).count
      (savedAs (hexDigest m), m) = 1
  empty : (recvFileLoop denote disk arrivals).1.sessionMap = ∅ ∧
    (recvFileLoop denote disk arrivals).1.fm.sessions = ∅

/-- The loop delivers this family of files, in every order of their packets, on
every disk that keeps their names apart. -/
def ReceivesFamily (files : List Bytes) : Prop :=
  ∃ chunksOf : Bytes → List FileChunk,
    (∀ m ∈ files, readAndChunkFile (FileView.ofContent m) defaultChunkSize = .ok (chunksOf m)) ∧
    ∀ (Node : Type) [DecidableEq Node] (denote : Bytes → Node) (disk : Disk Node)
      (junk : List Bytes) (arrivals : List Arrival),
      (∀ m ∈ files, ∀ m' ∈ files,
        denote (savedAs (hexDigest m)) = denote (savedAs (hexDigest m')) →
          hexDigest m = hexDigest m') →
      (∀ pkg ∈ junk, pkg ≠ [] ∧ Rejected pkg) →
      (arrivals.map Arrival.pkg).Perm
        (files.flatMap (fun m => (chunksOf m).map FileChunk.serialize) ++ junk) →
      (∀ a ∈ arrivals, a.env.Succeeds) →
      FilesReceived denote disk files chunksOf arrivals

private theorem packets_fileTransfer (m : Bytes) :
    (fileTransfer m).packets =
      (chunked (hexDigest m) (fileTransfer m).parts).map FileChunk.serialize := rfl

theorem separate_fileTransfers {Node : Type} {denote : Bytes → Node} {files : List Bytes}
    (hdistinct : (files.map hexDigest).Nodup)
    (hfiles : ∀ m ∈ files, ∀ m' ∈ files,
      denote (savedAs (hexDigest m)) = denote (savedAs (hexDigest m')) →
        hexDigest m = hexDigest m') :
    Separate denote (files.map fileTransfer) := by
  refine ⟨by rw [List.map_map]; exact hdistinct, ?_⟩
  simp only [List.mem_map]
  rintro t ⟨m, hm, rfl⟩ t' ⟨m', hm', rfl⟩ heq
  exact hfiles m hm m' hm' heq

theorem length_le_of_receivesFamily {files : List Bytes} (hne : ∀ m ∈ files, m ≠ [])
    (hdistinct : (files.map hexDigest).Nodup) (h : ReceivesFamily files) :
    ∀ m ∈ files, m.length ≤ maxFileSize := by
  obtain ⟨chunksOf, hread, hrun⟩ := h
  intro m hm
  have hchunks : ∀ m ∈ files,
      (chunksOf m).map FileChunk.serialize = (fileTransfer m).packets := fun m hm => by
    rw [readAndChunkFile_default (hread m hm), packets_fileTransfer]
  have hsep : Separate id (files.map fileTransfer) :=
    separate_fileTransfers hdistinct fun _ _ _ _ heq => savedAs_injective heq
  have hperm : ((plainArrivals ((files.map fileTransfer).flatMap Transfer.packets)).map
      Arrival.pkg).Perm ((files.map fileTransfer).flatMap Transfer.packets ++ []) := by
    rw [plainArrivals_pkg, List.append_nil]
  have hfamily : FamilyReceived id (fun _ => none) (files.map fileTransfer) _ :=
    familyReceived hsep ⟨hperm, by simp, plainArrivals_succeeds _⟩
  have hflat : files.flatMap (fun m => (chunksOf m).map FileChunk.serialize) =
      (files.map fileTransfer).flatMap Transfer.packets := by
    rw [List.flatMap_map]
    exact List.flatMap_congr hchunks
  have hwanted := (hrun Bytes id (fun _ => none) []
    (plainArrivals ((files.map fileTransfer).flatMap Transfer.packets))
    (fun _ _ _ _ heq => savedAs_injective heq) (by simp) (hflat ▸ hperm)
    (plainArrivals_succeeds _)).stored m hm
  refine (fileTransfer_content_iff (hne m hm)).mp ?_
  have hparts : (fileTransfer m).parts ≠ [] := by
    intro hnil
    rw [hfamily.untouched _ ?_] at hwanted
    · cases hwanted
    · intro t ht hpt heq
      obtain ⟨m', hm', rfl⟩ := List.mem_map.mp ht
      have hhash : (fileTransfer m').hash = (fileTransfer m).hash := savedAs_injective heq
      have hsame := hsep.eq_of_hash ht (List.mem_map_of_mem hm) hhash
      exact hpt (by rw [hsame, hnil])
  refine ⟨hparts, ?_⟩
  have hstored := hfamily.stored _ (List.mem_map_of_mem hm) hparts
  exact Option.some.inj (hstored.symm.trans hwanted)

theorem receivesFamily_of_length_le {files : List Bytes} (hne : ∀ m ∈ files, m ≠ [])
    (hdistinct : (files.map hexDigest).Nodup) (hsmall : ∀ m ∈ files, m.length ≤ maxFileSize) :
    ReceivesFamily files := by
  refine ⟨fun m => chunked (hexDigest m) (fileTransfer m).parts,
    fun m hm => readAndChunkFile_of_le (hsmall m hm), ?_⟩
  intro Node _ denote disk junk arrivals hfiles hnoise hperm hsucceeds
  have hsep : Separate denote (files.map fileTransfer) := separate_fileTransfers hdistinct hfiles
  have hshuffled : Shuffled (files.map fileTransfer) junk arrivals :=
    ⟨by rwa [List.flatMap_map], hnoise, hsucceeds⟩
  have hfamily : FamilyReceived denote disk _ arrivals := familyReceived hsep hshuffled
  have hcontent : ∀ m ∈ files, (fileTransfer m).parts ≠ [] ∧ (fileTransfer m).content = m :=
    fun m hm => (fileTransfer_content_iff (hne m hm)).mpr (hsmall m hm)
  refine ⟨fun m hm => ?_, fun past a rest hsplit w => ?_, fun m hm => ?_, hfamily.empty⟩
  · have hstored := hfamily.stored _ (List.mem_map_of_mem hm) (hcontent m hm).1
    rwa [(hcontent m hm).2] at hstored
  · rw [hfamily.wrote past a rest hsplit]
    constructor
    · rintro ⟨t, ht, rfl, hpkg, hlast⟩
      obtain ⟨m, hm, rfl⟩ := List.mem_map.mp ht
      exact ⟨m, hm, by rw [(hcontent m hm).2]; rfl, hpkg, hlast⟩
    · rintro ⟨m, hm, rfl, hpkg, hlast⟩
      exact ⟨fileTransfer m, List.mem_map_of_mem hm, by rw [(hcontent m hm).2]; rfl, hpkg, hlast⟩
  · have honce := hfamily.once _ (List.mem_map_of_mem hm) (hcontent m hm).1
    rwa [(hcontent m hm).2] at honce

/-- A family of non-empty files is received if and only if each of them is short
enough for its sender to count its chunks. -/
theorem receivesFamily_iff (files : List Bytes) (hne : ∀ m ∈ files, m ≠ [])
    (hdistinct : (files.map hexDigest).Nodup) :
    ReceivesFamily files ↔ ∀ m ∈ files, m.length ≤ maxFileSize :=
  ⟨length_le_of_receivesFamily hne hdistinct, receivesFamily_of_length_le hne hdistinct⟩

theorem receivesFamily_two_files : ReceivesFamily [[1], [2, 3]] :=
  (receivesFamily_iff [[1], [2, 3]] (by decide) (by
    rw [funext fun m => (SHA256.hashData_spec m).symm]
    decide +kernel)).mpr (by decide)

/-- A file of `2 ^ 48 + 1` bytes is sent as a single chunk. -/
theorem not_receivesFamily_long :
    ¬∀ files : List Bytes, (∀ m ∈ files, m ≠ []) → (files.map hexDigest).Nodup →
      ReceivesFamily files := by
  intro h
  have hne : ∀ m ∈ [List.replicate (2 ^ 48 + 1) (0 : UInt8)], m ≠ [] := by
    intro m hm hnil
    rw [List.mem_singleton] at hm
    have := congrArg List.length (hm.symm.trans hnil)
    rw [List.length_replicate] at this
    exact absurd this (by decide)
  have hdistinct : ([List.replicate (2 ^ 48 + 1) (0 : UInt8)].map hexDigest).Nodup := by
    rw [List.map_cons]
    exact List.nodup_singleton _
  have hle := length_le_of_receivesFamily hne hdistinct (h _ hne hdistinct) _
    (List.mem_singleton_self _)
  rw [List.length_replicate] at hle
  exact absurd hle (by decide)

end EggDelivery
