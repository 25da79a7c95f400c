import EggDelivery.Network.MixedStream

/-!
# Whatever is stored from a stream is right

However a stream is cut, what is accepted under the hash of its file begins at a packet
and is the chunk of that packet, unless the content spells out its own SHA-256. So
the file is stored once at most, whole, and not before the last byte.
-/

namespace EggDelivery

open Fips180

section File

variable {m : Bytes}

/-- The bytes received are a beginning of what `send_file` sends of this content. -/
def FromStream (m : Bytes) (arrivals : List Arrival) : Prop :=
  (arrivals.map Arrival.pkg).flatten <+: (fileTransfer m).packets.flatten

theorem chunksOf_singleton :
    ChunksOf [m] (chunked (fileTransfer m).hash (fileTransfer m).parts) := fun _ hc =>
  ⟨m, List.mem_singleton_self m, hc⟩

variable (hfree : ¬hexDigest m <:+: m)
include hfree

theorem unmistakable_singleton : Unmistakable m [m] where
  unique _ hm _ := List.mem_singleton.mp hm
  free _ hm := List.mem_singleton.mp hm ▸ hfree

theorem FromStream.begins {past rest : List Arrival} {a : Arrival}
    (h : FromStream m (past ++ a :: rest)) {c : FileChunk}
    (hc : chunkFor (hexDigest m) a = some c) :
    ∃ i part, (fileTransfer m).parts[i]? = some part ∧
      c = chunkAt (fileTransfer m).hash (fileTransfer m).parts i part ∧
      (past.map Arrival.pkg).flatten = ((fileTransfer m).packets.take i).flatten := by
  obtain ⟨tail, htail⟩ := h
  obtain ⟨hacc, hhash⟩ := chunkFor_eq_some_iff.mp hc
  have hcut : (past.map Arrival.pkg).flatten ++
      (a.pkg ++ ((rest.map Arrival.pkg).flatten ++ tail)) =
        streamOf (chunked (fileTransfer m).hash (fileTransfer m).parts) := by
    refine Eq.trans ?_ htail
    simp
  obtain ⟨before, after, hsplit, hpast⟩ := (chunksOf_singleton.carries
    (unmistakable_singleton hfree)).begins (digestLike_hexDigest m) hcut
      (acceptedChunk_eq_some_iff.mp hacc) hhash
  have hget : (chunked (fileTransfer m).hash (fileTransfer m).parts)[before.length]? = some c := by
    rw [hsplit, List.getElem?_append_right (Nat.le_refl _), Nat.sub_self]
    rfl
  rw [chunked, List.getElem?_mapIdx, Option.map_eq_some_iff] at hget
  obtain ⟨part, hpart, rfl⟩ := hget
  refine ⟨before.length, part, hpart, rfl, ?_⟩
  rw [hpast, Transfer.packets, hsplit, List.map_append, List.take_left' (List.length_map _)]
  rfl

theorem FromStream.onlyFrom {arrivals : List Arrival} (h : FromStream m arrivals) :
    OnlyFrom (fileTransfer m) arrivals :=
  chunksOf_singleton.onlyFrom (unmistakable_singleton hfree) h

theorem FromStream.prefix_of_accepted {arrivals : List Arrival} (h : FromStream m arrivals)
    {i : Nat} {part : Bytes} (hi : (fileTransfer m).parts[i]? = some part) {b : Arrival} (hb : b ∈ arrivals)
    (hacc : acceptedChunk b =
      some (chunkAt (fileTransfer m).hash (fileTransfer m).parts i part)) :
    ((fileTransfer m).packets.take (i + 1)).flatten <+: (arrivals.map Arrival.pkg).flatten := by
  obtain ⟨past, rest, rfl⟩ := List.append_of_mem hb
  have hchunk := chunkFor_eq_some_iff.mpr ⟨hacc, rfl⟩
  obtain ⟨j, part', hj, heq, hpast⟩ := h.begins hfree hchunk
  obtain rfl := (Transfer.packet_injective hi hj (congrArg FileChunk.serialize heq)).2
  obtain ⟨-, -, -, extra, hpkg⟩ := FileChunk.of_deserialize_true (by decide)
    (acceptedChunk_eq_some_iff.mp hacc)
  have hpacket : (fileTransfer m).packets[i]? =
      some (chunkAt (fileTransfer m).hash (fileTransfer m).parts i part).serialize := by
    simp [Transfer.packets, chunked, List.getElem?_mapIdx, hi]
  rw [List.take_add_one, hpacket, Option.toList_some, List.flatten_append, List.flatten_singleton,
    ← hpast, List.map_append, List.map_cons, List.flatten_append, List.flatten_cons, hpkg,
    List.append_assoc, ← List.append_assoc]
  exact List.prefix_append _ _

theorem FromStream.flatten_of_delivers {arrivals : List Arrival} (h : FromStream m arrivals)
    (hdel : Delivers (fileTransfer m) arrivals) :
    (arrivals.map Arrival.pkg).flatten = (fileTransfer m).packets.flatten := by
  obtain ⟨before, a, after, rfl, haddr, -, -, hall⟩ := hdel
  obtain ⟨c, hc⟩ := addressee_eq_some_iff.mp haddr
  obtain ⟨i, part, hi, -⟩ := h.begins hfree hc
  have hpos : 0 < (fileTransfer m).parts.length :=
    Nat.zero_lt_of_lt (List.getElem?_eq_some_iff.mp hi).1
  have hlast := List.getElem?_eq_getElem (Nat.sub_one_lt_of_lt hpos)
  obtain ⟨b, hb, hacc⟩ := hall _ (mem_chunked.mpr ⟨_, _, hlast, rfl⟩)
  have hb' : b ∈ before ++ a :: after := by
    rw [← List.singleton_append, ← List.append_assoc]
    exact List.mem_append_left _ hb
  have hend := h.prefix_of_accepted hfree hlast hb' hacc
  rw [Nat.sub_add_cancel hpos, List.take_of_length_le (by simp [Transfer.packets])] at hend
  exact h.eq_of_length_le hend.length_le

/-- After a delivery there are no bytes left for another one. -/
theorem FromStream.not_delivers_twice {first second rest : List Arrival}
    (h : FromStream m (first ++ (second ++ rest))) (hfirst : Delivers (fileTransfer m) first) :
    ¬Delivers (fileTransfer m) second := by
  rintro ⟨before, a, after, rfl, haddr, -⟩
  have hprefix : FromStream m first := by
    refine List.IsPrefix.trans ?_ h
    rw [List.map_append, List.flatten_append]
    exact List.prefix_append _ _
  have hlen := List.IsPrefix.length_le h
  rw [← hprefix.flatten_of_delivers hfree hfirst] at hlen
  obtain ⟨c, hc⟩ := addressee_eq_some_iff.mp haddr
  obtain ⟨-, -, -, extra, hpkg⟩ := FileChunk.of_deserialize_true (by decide)
    (acceptedChunk_eq_some_iff.mp (chunkFor_eq_some_iff.mp hc).1)
  have hpos : 0 < a.pkg.length :=
    List.length_pos_iff.mpr (hpkg ▸ List.append_ne_nil_of_left_ne_nil c.serialize_ne_nil extra)
  simp only [List.map_append, List.map_cons, List.flatten_append, List.flatten_cons,
    List.length_append] at hlen
  omega

variable {Node : Type} [DecidableEq Node] (denote : Bytes → Node) (disk : Disk Node)

structure StoredOnce (denote : Bytes → Node) (disk : Disk Node) (m : Bytes)
    (arrivals : List Arrival) : Prop where
  content : ∀ w ∈ writes denote disk arrivals, w.1 = savedAs (hexDigest m) →
    ∃ a ∈ arrivals, w.2 = a.env.store (fileTransfer m).content
  once : (writes denote disk arrivals).countP (fun w => w.1 = savedAs (hexDigest m)) ≤ 1
  whole : (∃ w ∈ writes denote disk arrivals, w.1 = savedAs (hexDigest m)) →
    (arrivals.map Arrival.pkg).flatten = (fileTransfer m).packets.flatten

/-- However the stream is cut, and however the file system behaves. -/
theorem FromStream.storedOnce {arrivals : List Arrival} (h : FromStream m arrivals) :
    StoredOnce denote disk m arrivals where
  content _ hw hpath := (h.onlyFrom hfree).content hw hpath
  once := by
    by_contra htwice
    obtain ⟨stretches, rest, rfl, hlen, hall⟩ :=
      ((h.onlyFrom hfree).le_countP_iff 2).mp (Nat.lt_of_not_le htwice)
    obtain ⟨first, second, rfl⟩ := List.length_eq_two.mp hlen
    rw [List.flatten_cons, List.flatten_singleton, List.append_assoc] at h
    exact h.not_delivers_twice hfree (hall first (by simp)) (hall second (by simp))
  whole hwritten := h.flatten_of_delivers hfree
    (((h.onlyFrom hfree).exists_write_iff denote disk).mp hwritten)

end File

end EggDelivery
