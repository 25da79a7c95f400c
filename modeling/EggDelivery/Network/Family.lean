import EggDelivery.Network.LoopStep

/-!
# Several transfers through one loop

A family of transfers, interleaved in any way and mixed with packets that the
decoder rejects. `Progress` is the joint invariant of the two tables and the disk:
a transfer is idle before its first chunk, waits with a session while some are
missing, and is written and forgotten after its last.
-/

namespace EggDelivery

open FileManager

/-- A list of payloads under a hash, within the limits of the wire format. -/
structure Transfer where
  hash : Bytes
  parts : List Bytes
  hash_length : hash.length < 2 ^ 32
  parts_length : parts.length < 2 ^ 32
  part_length : ∀ part ∈ parts, part.length < 2 ^ 32

namespace Transfer

def packets (t : Transfer) : List Bytes := (chunked t.hash t.parts).map FileChunk.serialize

def content (t : Transfer) : Bytes := t.parts.flatten

def Arrived (t : Transfer) (past : List Arrival) (i : Nat) : Prop :=
  ∃ part, t.parts[i]? = some part ∧
    (chunkAt t.hash t.parts i part).serialize ∈ past.map Arrival.pkg

def Finished (t : Transfer) (past : List Arrival) : Prop :=
  t.parts ≠ [] ∧ ∀ i, i < t.parts.length → t.Arrived past i

theorem mem_packets {t : Transfer} {pkg : Bytes} :
    pkg ∈ t.packets ↔ ∃ i part, t.parts[i]? = some part ∧
      pkg = (chunkAt t.hash t.parts i part).serialize := by
  simp only [packets, List.mem_map, mem_chunked]
  constructor
  · rintro ⟨c, ⟨i, part, hi, rfl⟩, rfl⟩
    exact ⟨i, part, hi, rfl⟩
  · rintro ⟨i, part, hi, rfl⟩
    exact ⟨_, ⟨i, part, hi, rfl⟩, rfl⟩

theorem ne_nil_of_mem_packets {t : Transfer} {pkg : Bytes} (h : pkg ∈ t.packets) : pkg ≠ [] := by
  obtain ⟨i, part, -, rfl⟩ := mem_packets.mp h
  exact FileChunk.serialize_ne_nil _

theorem deserialize_packet (t : Transfer) {i : Nat} {part : Bytes}
    (hi : t.parts[i]? = some part) :
    FileChunk.deserialize 64 {} (chunkAt t.hash t.parts i part).serialize =
      .ok (true, chunkAt t.hash t.parts i part) :=
  deserialize_chunkAt {} t.hash_length t.parts i (t.part_length part (List.mem_of_getElem? hi))

theorem packet_injective {t t' : Transfer} {i j : Nat} {part part' : Bytes}
    (hi : t.parts[i]? = some part) (hj : t'.parts[j]? = some part')
    (heq : (chunkAt t.hash t.parts i part).serialize =
      (chunkAt t'.hash t'.parts j part').serialize) : t.hash = t'.hash ∧ i = j := by
  have hdec := t.deserialize_packet hi
  rw [heq, t'.deserialize_packet hj] at hdec
  have hchunk : chunkAt t'.hash t'.parts j part' = chunkAt t.hash t.parts i part := by
    simpa using hdec
  have hilt : i < 2 ^ 32 := lt_trans (List.getElem?_eq_some_iff.mp hi).1 t.parts_length
  have hjlt : j < 2 ^ 32 := lt_trans (List.getElem?_eq_some_iff.mp hj).1 t'.parts_length
  refine ⟨(congrArg FileChunk.fileHash hchunk).symm, ?_⟩
  have hid := congrArg (fun c => c.chunkId.toNat) hchunk
  simp only [chunkAt] at hid
  rw [UInt32.toNat_ofNat_of_lt' hilt, UInt32.toNat_ofNat_of_lt' hjlt] at hid
  exact hid.symm

theorem packets_nodup (t : Transfer) : t.packets.Nodup := by
  rw [List.Nodup, List.pairwise_iff_getElem]
  intro i j hi hj hlt heq
  simp only [packets, List.length_map, chunked_length] at hi hj
  simp only [packets, chunked, List.getElem_map, List.getElem_mapIdx] at heq
  have := (packet_injective (List.getElem?_eq_getElem hi) (List.getElem?_eq_getElem hj) heq).2
  omega

theorem arrived_concat {t : Transfer} {i : Nat} {part : Bytes} (hi : t.parts[i]? = some part)
    {past : List Arrival} {a : Arrival} (ha : a.pkg = (chunkAt t.hash t.parts i part).serialize)
    (j : Nat) : t.Arrived (past ++ [a]) j ↔ t.Arrived past j ∨ j = i := by
  simp only [Arrived, List.map_append, List.map_cons, List.map_nil, List.mem_append,
    List.mem_singleton]
  constructor
  · rintro ⟨part', hj, hmem | heq⟩
    · exact Or.inl ⟨part', hj, hmem⟩
    · exact Or.inr (packet_injective hj hi (heq.trans ha)).2
  · rintro (⟨part', hj, hmem⟩ | rfl)
    · exact ⟨part', hj, Or.inl hmem⟩
    · exact ⟨part, hi, Or.inr ha.symm⟩

theorem arrived_concat_of_not_mem {t : Transfer} {past : List Arrival} {a : Arrival}
    (ha : a.pkg ∉ t.packets) (j : Nat) : t.Arrived (past ++ [a]) j ↔ t.Arrived past j := by
  simp only [Arrived, List.map_append, List.map_cons, List.map_nil, List.mem_append,
    List.mem_singleton]
  constructor
  · rintro ⟨part, hj, hmem | heq⟩
    · exact ⟨part, hj, hmem⟩
    · exact (ha (heq ▸ mem_packets.mpr ⟨j, part, hj, rfl⟩)).elim
  · rintro ⟨part, hj, hmem⟩
    exact ⟨part, hj, Or.inl hmem⟩

theorem finished_concat_of_not_mem {t : Transfer} {past : List Arrival} {a : Arrival}
    (ha : a.pkg ∉ t.packets) : t.Finished (past ++ [a]) ↔ t.Finished past := by
  simp only [Finished, arrived_concat_of_not_mem ha]

end Transfer

/-! ## The joint invariant -/

def Rejected (pkg : Bytes) : Prop := ∃ c, FileChunk.deserialize 64 {} pkg = .ok (false, c)

theorem not_rejected_of_mem {t : Transfer} {pkg : Bytes} (h : pkg ∈ t.packets) :
    ¬Rejected pkg := by
  rintro ⟨c, hc⟩
  obtain ⟨i, part, hi, rfl⟩ := Transfer.mem_packets.mp h
  rw [t.deserialize_packet hi] at hc
  simp at hc

section Family

variable {Node : Type} (denote : Bytes → Node) (ts : List Transfer) (disk : Disk Node)

/-- What may come next: a packet of the family that has not come before, or noise. -/
def Acceptable (past : List Arrival) (a : Arrival) : Prop :=
  (a.env.Succeeds ∧ (∃ t ∈ ts, a.pkg ∈ t.packets) ∧ a.pkg ∉ past.map Arrival.pkg) ∨
    Rejected a.pkg

structure Progress (past : List Arrival) (r : Receiver Node) : Prop where
  dir : r.fm.downloadDir = downloads
  foreign : ∀ hash, (∀ t ∈ ts, t.parts ≠ [] → t.hash ≠ hash) → Idle r hash
  waiting : ∀ t ∈ ts, ¬t.Finished past → Waiting r t.hash t.parts (t.Arrived past)
  finished : ∀ t ∈ ts, t.Finished past →
    Idle r t.hash ∧ r.disk (denote (savedAs t.hash)) = some t.content
  untouched : ∀ node, (∀ t ∈ ts, t.parts ≠ [] → denote (savedAs t.hash) ≠ node) →
    r.disk node = disk node

theorem progress_start : Progress denote ts disk [] (startReceiver disk) := by
  have hidle : ∀ hash, Idle (startReceiver disk) hash := fun hash =>
    ⟨by simp [startReceiver], by simp [startReceiver]⟩
  refine ⟨rfl, fun hash _ => hidle hash, fun t _ _ => Or.inl ⟨hidle t.hash, ?_⟩, ?_, fun _ _ => rfl⟩
  · rintro j - ⟨part, -, hmem⟩
    simp at hmem
  · rintro t - ⟨hne, hall⟩
    obtain ⟨part, -, hmem⟩ := hall 0 (List.length_pos_iff.mpr hne)
    simp at hmem

variable {denote ts disk}

theorem Idle.of_sameElsewhere {hash other : Bytes} {r r' : Receiver Node}
    (hframe : SameElsewhere hash r r') (hne : other ≠ hash) (h : Idle r other) :
    Idle r' other :=
  ⟨(hframe.find other hne).trans h.1, (hframe.map other hne).trans h.2⟩

theorem Waiting.of_sameElsewhere {hash other : Bytes} {parts : List Bytes}
    {arrived : Nat → Prop} {r r' : Receiver Node} (hframe : SameElsewhere hash r r')
    (hne : other ≠ hash) (h : Waiting r other parts arrived) : Waiting r' other parts arrived := by
  rcases h with ⟨hidle, hnone⟩ | ⟨hmap, s, hfind, hfill⟩
  · exact Or.inl ⟨hidle.of_sameElsewhere hframe hne, hnone⟩
  · exact Or.inr ⟨(hframe.map other hne).trans hmap, s, (hframe.find other hne).trans hfind,
      hfill⟩

theorem Waiting.congr {hash : Bytes} {parts : List Bytes} {arrived arrived' : Nat → Prop}
    {r : Receiver Node} (h : Waiting r hash parts arrived)
    (heq : ∀ j, arrived' j ↔ arrived j) : Waiting r hash parts arrived' := by
  rcases h with ⟨hidle, hnone⟩ | ⟨hmap, s, hfind, hfill⟩
  · exact Or.inl ⟨hidle, fun j hj hn => hnone j hj ((heq j).mp hn)⟩
  · exact Or.inr ⟨hmap, s, hfind, hfill.congr fun j _ => (heq j).symm⟩

/-- Distinct transfers have distinct hashes and are stored in distinct files. -/
structure Separate (denote : Bytes → Node) (ts : List Transfer) : Prop where
  hashes : (ts.map Transfer.hash).Nodup
  files : ∀ t ∈ ts, ∀ t' ∈ ts,
    denote (savedAs t.hash) = denote (savedAs t'.hash) → t.hash = t'.hash

theorem Separate.eq_of_hash (h : Separate denote ts) {t t' : Transfer} (ht : t ∈ ts)
    (ht' : t' ∈ ts) (heq : t.hash = t'.hash) : t = t' :=
  List.inj_on_of_nodup_map h.hashes ht ht' heq

theorem Separate.eq_of_mem_packets (h : Separate denote ts) {t t' : Transfer} (ht : t ∈ ts)
    (ht' : t' ∈ ts) {pkg : Bytes} (hpkg : pkg ∈ t.packets) (hpkg' : pkg ∈ t'.packets) :
    t = t' := by
  obtain ⟨i, part, hi, rfl⟩ := Transfer.mem_packets.mp hpkg
  obtain ⟨j, part', hj, heq⟩ := Transfer.mem_packets.mp hpkg'
  exact h.eq_of_hash ht ht' (Transfer.packet_injective hi hj heq).1

variable [DecidableEq Node]

/-- What a packet of the family does, in both of its cases. -/
theorem recvFileStep_packet (denote : Bytes → Node) {past : List Arrival} {r : Receiver Node}
    (hdir : r.fm.downloadDir = downloads) {t : Transfer}
    (hwait : Waiting r t.hash t.parts (t.Arrived past)) {i : Nat} {part : Bytes}
    (hi : t.parts[i]? = some part) {a : Arrival}
    (ha : a.pkg = (chunkAt t.hash t.parts i part).serialize) (henv : a.env.Succeeds) :
    SameElsewhere t.hash r (recvFileStep denote r a).1 ∧
    (¬t.Finished (past ++ [a]) →
      Waiting (recvFileStep denote r a).1 t.hash t.parts (t.Arrived (past ++ [a])) ∧
        (recvFileStep denote r a).1.disk = r.disk ∧ (recvFileStep denote r a).2.wrote = none) ∧
    (t.Finished (past ++ [a]) →
      Idle (recvFileStep denote r a).1 t.hash ∧
        (recvFileStep denote r a).1.disk =
          Function.update r.disk (denote (savedAs t.hash)) (some t.content) ∧
        (recvFileStep denote r a).2.wrote = some (savedAs t.hash, t.content)) := by
  have hdec : FileChunk.deserialize 64 {} a.pkg = .ok (true, chunkAt t.hash t.parts i part) := by
    rw [ha]
    exact t.deserialize_packet hi
  have hne : t.parts ≠ [] := by
    intro hnil
    rw [hnil] at hi
    simp at hi
  refine ⟨sameElsewhere_recvFileStep denote r hdec, fun hmissing => ?_, fun hfin => ?_⟩
  · have hpart : ¬∀ j, j < t.parts.length → t.Arrived past j ∨ j = i := fun hall =>
      hmissing ⟨hne, fun j hj => (Transfer.arrived_concat hi ha j).mpr (hall j hj)⟩
    obtain ⟨⟨hmap, s, hfind, hfill⟩, hdisk, hwrote⟩ :=
      recvFileStep_waiting denote hdir t.parts_length hwait hi hdec hpart
    exact ⟨Or.inr ⟨hmap, s, hfind,
      hfill.congr fun j _ => (Transfer.arrived_concat hi ha j).symm⟩, hdisk, hwrote⟩
  · exact recvFileStep_last denote hdir t.parts_length hwait hi hdec
      (fun j hj => (Transfer.arrived_concat hi ha j).mp (hfin.2 j hj)) henv

theorem not_finished_of_new {t : Transfer} {past : List Arrival} {a : Arrival}
    (hpkg : a.pkg ∈ t.packets) (hnew : a.pkg ∉ past.map Arrival.pkg) : ¬t.Finished past := by
  rintro ⟨-, hall⟩
  obtain ⟨i, part, hi, heq⟩ := Transfer.mem_packets.mp hpkg
  obtain ⟨part', hi', hmem⟩ := hall i (List.getElem?_eq_some_iff.mp hi).1
  rw [Option.some.inj (hi'.symm.trans hi), ← heq] at hmem
  exact hnew hmem

theorem Progress.rejected {past : List Arrival} {r : Receiver Node} {a : Arrival}
    (ha : Rejected a.pkg) (h : Progress denote ts disk past r) :
    Progress denote ts disk (past ++ [a]) (recvFileStep denote r a).1 := by
  have hnot : ∀ t : Transfer, a.pkg ∉ t.packets := fun t hmem => not_rejected_of_mem hmem ha
  obtain ⟨c, hc⟩ := ha
  rw [recvFileStep_rejected denote r hc]
  refine ⟨h.dir, h.foreign, fun t ht hmissing => ?_, fun t ht hfin => ?_, h.untouched⟩
  · rw [Transfer.finished_concat_of_not_mem (hnot t)] at hmissing
    exact (h.waiting t ht hmissing).congr (Transfer.arrived_concat_of_not_mem (hnot t))
  · rw [Transfer.finished_concat_of_not_mem (hnot t)] at hfin
    exact h.finished t ht hfin

theorem progress_step (hsep : Separate denote ts) {past : List Arrival} {r : Receiver Node}
    {a : Arrival} (ha : Acceptable ts past a) (h : Progress denote ts disk past r) :
    Progress denote ts disk (past ++ [a]) (recvFileStep denote r a).1 := by
  rcases ha with ⟨henv, ⟨t, ht, hpkg⟩, hnew⟩ | hrej
  · obtain ⟨i, part, hi, heq⟩ := Transfer.mem_packets.mp hpkg
    have hwait := h.waiting t ht (not_finished_of_new hpkg hnew)
    obtain ⟨hframe, hwaits, hlast⟩ := recvFileStep_packet denote h.dir hwait hi heq henv
    have hother : ∀ t' ∈ ts, t' ≠ t → t'.hash ≠ t.hash ∧ a.pkg ∉ t'.packets := fun t' ht' hne =>
      ⟨fun hh => hne (hsep.eq_of_hash ht' ht hh),
        fun hmem => hne (hsep.eq_of_mem_packets ht' ht hmem hpkg)⟩
    have hdisk : ∀ node, node ≠ denote (savedAs t.hash) →
        (recvFileStep denote r a).1.disk node = r.disk node := by
      intro node hne
      by_cases hfin : t.Finished (past ++ [a])
      · rw [(hlast hfin).2.1, Function.update_of_ne hne]
      · rw [(hwaits hfin).2.1]
    have hne : t.parts ≠ [] := by
      intro hnil
      rw [hnil] at hi
      simp at hi
    refine ⟨hframe.dir.trans h.dir, fun hash hhash => ?_, fun t' ht' hmissing => ?_,
      fun t' ht' hfin => ?_, fun node hnode => ?_⟩
    · exact (h.foreign hash hhash).of_sameElsewhere hframe (hhash t ht hne).symm
    · by_cases hsame : t' = t
      · subst hsame
        exact (hwaits hmissing).1
      · obtain ⟨hhash, hnot⟩ := hother t' ht' hsame
        rw [Transfer.finished_concat_of_not_mem hnot] at hmissing
        exact ((h.waiting t' ht' hmissing).of_sameElsewhere hframe hhash).congr
          (Transfer.arrived_concat_of_not_mem hnot)
    · by_cases hsame : t' = t
      · subst hsame
        obtain ⟨hidle, hd, -⟩ := hlast hfin
        exact ⟨hidle, by rw [hd, Function.update_self]⟩
      · obtain ⟨hhash, hnot⟩ := hother t' ht' hsame
        rw [Transfer.finished_concat_of_not_mem hnot] at hfin
        obtain ⟨hidle, hd⟩ := h.finished t' ht' hfin
        refine ⟨hidle.of_sameElsewhere hframe hhash, ?_⟩
        rw [hdisk _ fun hn => hhash (hsep.files t' ht' t ht hn), hd]
    · rw [hdisk node (hnode t ht hne).symm, h.untouched node hnode]
  · exact h.rejected hrej

/-- A turn writes exactly when it finishes a transfer, and then that transfer's file. -/
theorem wrote_iff (hsep : Separate denote ts) {past : List Arrival} {r : Receiver Node}
    {a : Arrival} (ha : Acceptable ts past a) (h : Progress denote ts disk past r)
    (w : Bytes × Bytes) :
    (recvFileStep denote r a).2.wrote = some w ↔
      ∃ t ∈ ts, w = (savedAs t.hash, t.content) ∧ a.pkg ∈ t.packets ∧ t.Finished (past ++ [a]) := by
  rcases ha with ⟨henv, ⟨t, ht, hpkg⟩, hnew⟩ | hrej
  · obtain ⟨i, part, hi, heq⟩ := Transfer.mem_packets.mp hpkg
    have hwait := h.waiting t ht (not_finished_of_new hpkg hnew)
    obtain ⟨-, hwaits, hlast⟩ := recvFileStep_packet denote h.dir hwait hi heq henv
    constructor
    · intro hw
      by_cases hfin : t.Finished (past ++ [a])
      · rw [(hlast hfin).2.2] at hw
        exact ⟨t, ht, (Option.some.inj hw).symm, hpkg, hfin⟩
      · rw [(hwaits hfin).2.2] at hw
        cases hw
    · rintro ⟨t', ht', rfl, hpkg', hfin⟩
      obtain rfl := hsep.eq_of_mem_packets ht' ht hpkg' hpkg
      exact (hlast hfin).2.2
  · obtain ⟨c, hc⟩ := hrej
    rw [recvFileStep_rejected denote r hc]
    constructor
    · intro hw
      cases hw
    · rintro ⟨t', -, -, hpkg', -⟩
      exact (not_rejected_of_mem hpkg' ⟨c, hc⟩).elim

end Family

end EggDelivery
