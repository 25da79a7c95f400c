import EggDelivery.Library.PrefixCode
import EggDelivery.Network.Assemblers
import EggDelivery.Network.Stream

/-!
# What the byte stream determines

The header of a chunk gives the lengths of what follows it, so serialized chunks are a
self-delimiting code: although `recv_file_loop` takes a result of `recv` for one packet,
the packets are determined by the bytes, however these are cut.
-/

namespace EggDelivery

/-- A chunk as the program builds them, with lengths that fit their words. -/
structure FileChunk.Sendable (c : FileChunk) : Prop where
  fileHash_length : c.fileHash.length < 2 ^ 32
  data_length : c.data.length < 2 ^ 32
  dataSize : c.dataSize = UInt32.ofNat c.data.length

theorem selfDelimiting_serialize :
    PrefixCode.SelfDelimiting FileChunk.Sendable FileChunk.serialize := by
  refine PrefixCode.selfDelimiting_of_reader (fun buf => acceptedChunk { pkg := buf })
    (fun c _ => c.serialize_ne_nil) fun c hc rest => ?_
  have hread := FileChunk.deserialize_serialize_append (w := 64) (by decide) {}
    hc.fileHash_length hc.data_length rest
  rw [acceptedChunk_eq_some_iff, hread, ← hc.dataSize]

namespace Transfer

theorem sendable_of_mem {t : Transfer} {c : FileChunk} (hc : c ∈ chunked t.hash t.parts) :
    c.Sendable := by
  obtain ⟨i, part, hpart, rfl⟩ := mem_chunked.mp hc
  exact ⟨t.hash_length, t.part_length part (List.mem_of_getElem? hpart), rfl⟩

theorem data_chunked (hash : Bytes) (parts : List Bytes) :
    (chunked hash parts).map FileChunk.data = parts := by
  refine List.ext_getElem? fun i => ?_
  rw [List.getElem?_map, chunked, List.getElem?_mapIdx, Option.map_map]
  exact Option.map_id'

/-- A stream of one transfer begins with the stream of another only if they are the same:
the first chunk says how many there are. -/
theorem eq_of_stream_prefix {t t' : Transfer} (hne : t.parts ≠ [])
    (h : t.packets.flatten <+: t'.packets.flatten) : t = t' := by
  have hchunks : chunked t.hash t.parts <+: chunked t'.hash t'.parts :=
    (selfDelimiting_serialize.flatten_prefix_iff (fun _ => sendable_of_mem)
      fun _ => sendable_of_mem).mp h
  obtain ⟨part, parts, hparts⟩ := List.exists_cons_of_ne_nil hne
  have hfirst : (chunked t.hash t.parts)[0]? = some (chunkAt t.hash t.parts 0 part) := by
    rw [chunked, List.getElem?_mapIdx, hparts]
    rfl
  have hfirst' : (chunked t'.hash t'.parts)[0]? = some (chunkAt t.hash t.parts 0 part) := by
    rw [← hfirst]
    exact (List.prefix_iff_getElem?.mp hchunks 0 (List.getElem?_eq_some_iff.mp hfirst).1).trans
      (List.getElem?_eq_getElem _).symm
  obtain ⟨part', -, hpart'⟩ : ∃ part', t'.parts[0]? = some part' ∧
      chunkAt t'.hash t'.parts 0 part' = chunkAt t.hash t.parts 0 part := by
    rwa [chunked, List.getElem?_mapIdx, Option.map_eq_some_iff] at hfirst'
  have hhash : t.hash = t'.hash := (congrArg FileChunk.fileHash hpart').symm
  have htotal : t.parts.length = t'.parts.length := by
    have hword := congrArg (fun c => c.totalChunks.toNat) hpart'
    simp only [chunkAt, UInt32.toNat_ofNat_of_lt' t.parts_length,
      UInt32.toNat_ofNat_of_lt' t'.parts_length] at hword
    exact hword.symm
  have hall : chunked t.hash t.parts = chunked t'.hash t'.parts :=
    hchunks.eq_of_length (by rw [chunked_length, chunked_length, htotal])
  have hdata : t.parts = t'.parts := by
    rw [← data_chunked t.hash t.parts, hall, data_chunked]
  cases t
  cases t'
  simp_all

end Transfer

theorem parts_ne_nil_of_sendFile {m : Bytes} (hlen : m.length ≤ maxFileSize) {packets : List Bytes}
    (h : sendFile (FileView.ofContent m) wholeSends = .ok (true, packets)) :
    (fileTransfer m).parts ≠ [] := by
  intro hnil
  rw [sendFile, readAndChunkFile_of_le hlen, hnil] at h
  cases h

/-- Serialized chunks can be told apart in any stream of them, and no file's stream is a
beginning of another's. -/
theorem stream_determines_file :
    (∀ cs ds : List FileChunk, (∀ c ∈ cs, c.Sendable) → (∀ d ∈ ds, d.Sendable) →
      ((cs.map FileChunk.serialize).flatten <+: (ds.map FileChunk.serialize).flatten ↔
        cs <+: ds)) ∧
    ∀ m m' : Bytes, m.length ≤ maxFileSize → m'.length ≤ maxFileSize →
      ∀ packets packets',
        sendFile (FileView.ofContent m) wholeSends = .ok (true, packets) →
        sendFile (FileView.ofContent m') wholeSends = .ok (true, packets') →
        packets.flatten <+: packets'.flatten → m = m' := by
  refine ⟨fun cs ds hcs hds => selfDelimiting_serialize.flatten_prefix_iff hcs hds, ?_⟩
  intro m m' hlen hlen' packets packets' hsend hsend' hprefix
  rw [sendFile_wholeSends hsend, sendFile_wholeSends hsend'] at hprefix
  have htransfer := Transfer.eq_of_stream_prefix (parts_ne_nil_of_sendFile hlen hsend) hprefix
  rw [← content_fileTransfer hlen, htransfer, content_fileTransfer hlen']

end EggDelivery
