import EggDelivery.Network.AtLeastOnce
import EggDelivery.Network.Decodable

/-!
# Many files in one stream

`send_file` may be called again and again on one socket, and by several callers at once.
However their chunks are mixed, and however the stream is cut: what the loop accepts under
a hash that no payload spells out is a subsequence of the chunks sent under it. Nothing is
made up, moved or doubled.
-/

namespace EggDelivery

open Fips180

/-- A text like a digest in hexadecimal, without the two bytes that give a packet away. -/
structure DigestLike (hash : Bytes) : Prop where
  length : hash.length = 64
  plain : ∀ b ∈ hash, b ≠ 0x40 ∧ b ≠ 0x4C

theorem digestLike_hexDigest (m : Bytes) : DigestLike (hexDigest m) :=
  ⟨hexDigest_length m, fun _ hb => hexDigest_ne hb⟩

def streamOf (cs : List FileChunk) : Bytes := (cs.map FileChunk.serialize).flatten

theorem streamOf_append (cs ds : List FileChunk) :
    streamOf (cs ++ ds) = streamOf cs ++ streamOf ds := by
  rw [streamOf, List.map_append, List.flatten_append]
  rfl

theorem streamOf_cons (c : FileChunk) (cs : List FileChunk) :
    streamOf (c :: cs) = c.serialize ++ streamOf cs := by
  rw [streamOf, List.map_cons, List.flatten_cons]
  rfl

/-! ## Where an accepted piece begins -/

theorem header_of_streamOf {cs : List FileChunk} (h : ∀ c ∈ cs, DigestLike c.fileHash)
    (hne : streamOf cs ≠ []) :
    (streamOf cs)[0]? = some 0x4C ∧ (streamOf cs)[24]? = some 0x40 := by
  cases cs with
  | nil => exact (hne rfl).elim
  | cons c cs =>
      obtain ⟨head, hframe⟩ := exists_framed (h c List.mem_cons_self).length
      have hpos := hframe.length_eq
      rw [streamOf_cons, List.getElem?_append_left (by omega), List.getElem?_append_left (by omega)]
      exact ⟨hframe.getElem?_zero, hframe.getElem?_hash_length⟩

theorem exists_rest_of_accepted {s : Bytes} {c : FileChunk}
    (h : FileChunk.deserialize 64 {} s = .ok (true, c)) :
    c.Sendable ∧ ∃ extra, s = c.serialize ++ extra := by
  obtain ⟨hsize, hhash, hdata, extra, rfl⟩ := FileChunk.of_deserialize_true (by decide) h
  refine ⟨⟨hhash, hdata, ?_⟩, extra, rfl⟩
  rw [← hsize, UInt32.ofNat_toNat]

/-- A stream of chunks under digests, none of which carries this text. -/
structure Carries (hash : Bytes) (cs : List FileChunk) : Prop where
  sendable : ∀ c ∈ cs, c.Sendable
  digests : ∀ c ∈ cs, DigestLike c.fileHash
  free : ∀ c ∈ cs, ¬hash <:+: c.data

/-- The bytes before an accepted piece are whole packets, and the piece begins with the
next one. -/
theorem Carries.begins {hash : Bytes} {cs : List FileChunk} (h : Carries hash cs)
    (hhash : DigestLike hash) {front s tail : Bytes} (hcut : front ++ (s ++ tail) = streamOf cs)
    {c : FileChunk} (hdec : FileChunk.deserialize 64 {} s = .ok (true, c))
    (hc : c.fileHash = hash) :
    ∃ before after, cs = before ++ c :: after ∧ front = streamOf before := by
  obtain ⟨hsendable, extra, rfl⟩ := exists_rest_of_accepted hdec
  have hne : c.serialize ++ extra ++ tail ≠ [] := by
    rw [List.append_assoc]
    exact List.append_ne_nil_of_left_ne_nil c.serialize_ne_nil _
  have hpackets : ∀ x ∈ cs.map FileChunk.serialize, x ≠ [] := by
    intro x hx
    obtain ⟨d, -, rfl⟩ := List.mem_map.mp hx
    exact d.serialize_ne_nil
  obtain ⟨packets, u, v, packets', hsplit, hv, hfront, hrest⟩ :=
    Segments.exists_cut hpackets hne hcut
  obtain ⟨before, mid, rfl, rfl, hmid⟩ := List.map_eq_append_iff.mp hsplit
  obtain ⟨d, after, rfl, hd, rfl⟩ := List.map_eq_cons_iff.mp hmid
  by_cases hu : u = []
  · subst hu
    rw [List.append_nil] at hfront
    rw [List.nil_append] at hd
    rw [← hd, List.append_assoc] at hrest
    obtain ⟨rfl, -⟩ := selfDelimiting_serialize.eq_of_append hsendable
      (h.sendable d (by simp)) hrest
    exact ⟨before, after, rfl, hfront⟩
  · -- the piece would begin inside a packet
    exfalso
    have hdigest : DigestLike d.fileHash := h.digests d (by simp)
    obtain ⟨head, hframe⟩ := exists_framed hdigest.length
    obtain ⟨head', hinner⟩ := exists_framed (c := c) (by rw [hc, hhash.length])
    have hbehind := header_of_streamOf fun x (hx : x ∈ after) => h.digests x (by simp [hx])
    have hinside : Framed head' hash (c.data ++ (extra ++ tail)) (v ++ streamOf after) := by
      refine ⟨hinner.head_length, hinner.magic, hinner.hash_length, ?_⟩
      rw [streamOf, ← hrest, hinner.split, hc]
      simp only [List.append_assoc]
    exact h.free d (by simp) (hframe.infix_of_frame hdigest.length hdigest.plain hhash.length
      hhash.plain hd hu hv hbehind hinside)

/-! ## What is accepted from a stream -/

private theorem accepted_sublist_of {hash : Bytes} {before after : List FileChunk}
    (h : Carries hash (before ++ after)) (hhash : DigestLike hash) {arrivals : List Arrival}
    (hbytes : (arrivals.map Arrival.pkg).flatten <+: streamOf (before ++ after))
    (hlen : (arrivals.map Arrival.pkg).flatten.length ≤ (streamOf before).length) :
    (arrivals.filterMap (chunkFor hash)).Sublist before := by
  induction arrivals using List.reverseRecOn generalizing before after with
  | nil => exact List.nil_sublist before
  | append_singleton past a ih =>
      rw [List.map_append, List.map_singleton, List.flatten_append,
        List.flatten_singleton] at hbytes hlen
      rw [List.length_append] at hlen
      rw [List.filterMap_append]
      cases hchunk : chunkFor hash a with
      | none =>
          rw [List.filterMap_cons_none hchunk, List.filterMap_nil, List.append_nil]
          exact ih h ((List.prefix_append _ _).trans hbytes) (Nat.le_of_add_right_le hlen)
      | some c =>
          obtain ⟨hacc, hc⟩ := chunkFor_eq_some_iff.mp hchunk
          have hdec := acceptedChunk_eq_some_iff.mp hacc
          obtain ⟨tail, htail⟩ := hbytes
          rw [List.append_assoc] at htail
          obtain ⟨front, rest, hsplit, hpast⟩ := h.begins hhash htail hdec hc
          rw [List.filterMap_cons_some hchunk, List.filterMap_nil]
          have hfront : front ++ [c] <+: before := by
            rw [List.append_cons] at hsplit
            refine selfDelimiting_serialize.prefix_of_length_le hsplit.symm
              (hsplit ▸ h.sendable) ?_
            obtain ⟨-, extra, hpkg⟩ := exists_rest_of_accepted hdec
            rw [hpkg, hpast, List.length_append] at hlen
            change (streamOf (front ++ [c])).length ≤ (streamOf before).length
            have hnil : (streamOf []).length = 0 := rfl
            rw [streamOf_append, streamOf_cons, List.length_append, List.length_append]
            omega
          have hrec : (past.filterMap (chunkFor hash)).Sublist front := by
            rw [hsplit] at h htail
            exact ih h ⟨_, htail⟩ (Nat.le_of_eq (congrArg List.length hpast))
          exact (hrec.append_right [c]).trans hfront.sublist

/-- The chunks accepted under a hash are a subsequence of those sent. -/
theorem Carries.accepted_sublist {hash : Bytes} {cs : List FileChunk} (h : Carries hash cs)
    (hhash : DigestLike hash) {arrivals : List Arrival}
    (hbytes : (arrivals.map Arrival.pkg).flatten <+: streamOf cs) :
    (arrivals.filterMap (chunkFor hash)).Sublist (cs.filter fun c => c.fileHash = hash) := by
  have hsub : (arrivals.filterMap (chunkFor hash)).Sublist cs := by
    rw [← List.append_nil cs] at h hbytes
    refine accepted_sublist_of h hhash hbytes ?_
    rw [← List.append_nil cs]
    exact hbytes.length_le
  have hself : (arrivals.filterMap (chunkFor hash)).filter (fun c => c.fileHash = hash) =
      arrivals.filterMap (chunkFor hash) := by
    refine List.filter_eq_self.mpr fun c hc => ?_
    obtain ⟨a, -, ha⟩ := List.mem_filterMap.mp hc
    exact decide_eq_true (chunkFor_eq_some_iff.mp ha).2
  rw [← hself]
  exact hsub.filter _

/-! ## Files -/

theorem length_le_count {t : Transfer} {stretches : List (List Arrival)}
    (h : ∀ stretch ∈ stretches, Delivers t stretch) {chunk : FileChunk}
    (hchunk : chunk ∈ chunked t.hash t.parts) :
    stretches.length ≤ (stretches.flatten.filterMap (chunkFor t.hash)).count chunk := by
  induction stretches with
  | nil => exact Nat.zero_le _
  | cons stretch stretches ih =>
      obtain ⟨hdel, hrest⟩ := List.forall_mem_cons.mp h
      obtain ⟨before, a, after, rfl, -, -, -, hall⟩ := hdel
      obtain ⟨b, hb, hacc⟩ := hall chunk hchunk
      obtain ⟨i, part, -, rfl⟩ := mem_chunked.mp hchunk
      have hmem : b ∈ before ++ a :: after := by
        rw [List.append_cons]
        exact List.mem_append_left _ hb
      have hpos := List.count_pos_iff.mpr
        (List.mem_filterMap.mpr ⟨b, hmem, chunkFor_eq_some_iff.mpr ⟨hacc, rfl⟩⟩)
      rw [List.flatten_cons, List.filterMap_append, List.count_append, List.length_cons]
      exact (Nat.add_comm _ 1).trans_le (Nat.add_le_add hpos (ih hrest))

/-- Chunks of these contents, in any order, mixed and repeated in any way. -/
def ChunksOf (ms : List Bytes) (cs : List FileChunk) : Prop :=
  ∀ c ∈ cs, ∃ m ∈ ms, c ∈ chunked (hexDigest m) (fileTransfer m).parts

/-- The digest of this content is its own, and none of the contents spells it out. -/
structure Unmistakable (m : Bytes) (ms : List Bytes) : Prop where
  unique : ∀ m' ∈ ms, hexDigest m' = hexDigest m → m' = m
  free : ∀ m' ∈ ms, ¬hexDigest m <:+: m'

section Chunks

variable {m : Bytes} {ms : List Bytes} {cs : List FileChunk} (hcs : ChunksOf ms cs)
  (hm : Unmistakable m ms)
include hcs hm

theorem ChunksOf.carries : Carries (hexDigest m) cs where
  sendable c hc := by
    obtain ⟨m', -, hmem⟩ := hcs c hc
    exact Transfer.sendable_of_mem (t := fileTransfer m') hmem
  digests c hc := by
    obtain ⟨m', -, hmem⟩ := hcs c hc
    obtain ⟨i, part, -, rfl⟩ := mem_chunked.mp hmem
    exact digestLike_hexDigest m'
  free c hc hin := by
    obtain ⟨m', hm', hmem⟩ := hcs c hc
    obtain ⟨i, part, hpart, rfl⟩ := mem_chunked.mp hmem
    exact hm.free m' hm' (hin.trans (infix_of_mem_parts (List.mem_of_getElem? hpart)))

theorem ChunksOf.mem_chunked {c : FileChunk} (hc : c ∈ cs) (hhash : c.fileHash = hexDigest m) :
    c ∈ chunked (fileTransfer m).hash (fileTransfer m).parts := by
  obtain ⟨m', hm', hmem⟩ := hcs c hc
  obtain ⟨i, part, hpart, rfl⟩ := EggDelivery.mem_chunked.mp hmem
  obtain rfl := hm.unique m' hm' hhash
  exact hmem

theorem ChunksOf.onlyFrom {arrivals : List Arrival}
    (hbytes : (arrivals.map Arrival.pkg).flatten <+: streamOf cs) :
    OnlyFrom (fileTransfer m) arrivals := by
  intro a ha c hc
  have hsub := (hcs.carries hm).accepted_sublist (digestLike_hexDigest m) hbytes
  have hmem := hsub.subset (List.mem_filterMap.mpr ⟨a, ha, hc⟩)
  obtain ⟨hmem, hhash⟩ := List.mem_filter.mp hmem
  exact hcs.mem_chunked hm hmem (of_decide_eq_true hhash)

end Chunks

variable {Node : Type} [DecidableEq Node] (denote : Bytes → Node) (disk : Disk Node)

/-- A file as the loop stores it from a stream of chunks. -/
structure StoredAsSent (denote : Bytes → Node) (disk : Disk Node) (m : Bytes) (cs : List FileChunk)
    (arrivals : List Arrival) : Prop where
  accepted : (arrivals.filterMap (chunkFor (hexDigest m))).Sublist
    (cs.filter fun c => c.fileHash = hexDigest m)
  content : ∀ w ∈ writes denote disk arrivals, w.1 = savedAs (hexDigest m) →
    ∃ a ∈ arrivals, w.2 = a.env.store m
  count : ∀ chunk ∈ chunked (hexDigest m) (fileTransfer m).parts,
    (writes denote disk arrivals).countP (fun w => w.1 = savedAs (hexDigest m)) ≤ cs.count chunk

/-- Any contents sent over one stream, their chunks mixed and repeated in any way, and any
cut of what has arrived of it: a file is made of chunks in the order in which they were sent,
it holds its content, and it is stored no more often than any of its chunks was sent. -/
theorem mixed_stream_safe {ms : List Bytes} {cs : List FileChunk} (hcs : ChunksOf ms cs) {m : Bytes}
    (hm : Unmistakable m ms) (hlen : m.length ≤ maxFileSize) {arrivals : List Arrival}
    (hbytes : (arrivals.map Arrival.pkg).flatten <+: streamOf cs) :
    StoredAsSent denote disk m cs arrivals where
  accepted := (hcs.carries hm).accepted_sublist (digestLike_hexDigest m) hbytes
  content w hw hpath := by
    rw [← content_fileTransfer hlen]
    exact (hcs.onlyFrom hm hbytes).content hw hpath
  count chunk hchunk := by
    have hself := le_refl ((writes denote disk arrivals).countP fun w =>
      w.1 = savedAs (hexDigest m))
    obtain ⟨stretches, rest, hsplit, hcount, hall⟩ :=
      ((hcs.onlyFrom hm hbytes).le_countP_iff _).mp hself
    have hsub := (hcs.carries hm).accepted_sublist (digestLike_hexDigest m) hbytes
    calc (writes denote disk arrivals).countP (fun w => w.1 = savedAs (hexDigest m))
        = stretches.length := hcount.symm
      _ ≤ (stretches.flatten.filterMap (chunkFor (hexDigest m))).count chunk :=
          length_le_count hall hchunk
      _ ≤ (arrivals.filterMap (chunkFor (hexDigest m))).count chunk := by
          rw [hsplit, List.filterMap_append, List.count_append]
          exact Nat.le_add_right _ _
      _ ≤ cs.count chunk := (hsub.trans List.filter_sublist).count_le chunk

/-- One file between two copies of another. -/
theorem mixed_stream_safe_two_files :
    let cs := ([[2, 3], [1], [2, 3]] : List Bytes).flatMap fun m =>
      chunked (hexDigest m) (fileTransfer m).parts
    StoredAsSent id (fun _ => none) [1] cs (plainArrivals (cs.map FileChunk.serialize)) := by
  intro cs
  have hcs : ChunksOf [[2, 3], [1], [2, 3]] cs := fun c hc => List.mem_flatMap.mp hc
  have hdiffer : hexDigest [2, 3] ≠ hexDigest [1] := by
    rw [← SHA256.hashData_spec, ← SHA256.hashData_spec]
    decide +kernel
  have hm : Unmistakable [1] [[2, 3], [1], [2, 3]] := by
    refine ⟨fun m' hm' heq => ?_, fun m' hm' hin => ?_⟩
    · simp only [List.mem_cons, List.not_mem_nil, or_false] at hm'
      rcases hm' with rfl | rfl | rfl
      · exact (hdiffer heq).elim
      · rfl
      · exact (hdiffer heq).elim
    · have hle := hin.length_le
      rw [hexDigest_length] at hle
      simp only [List.mem_cons, List.not_mem_nil, or_false] at hm'
      rcases hm' with rfl | rfl | rfl <;> exact absurd hle (by decide)
  refine mixed_stream_safe id (fun _ => none) hcs hm (by decide) ?_
  rw [plainArrivals_pkg]
  exact List.prefix_refl _

end EggDelivery
