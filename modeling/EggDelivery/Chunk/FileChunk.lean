import EggDelivery.Library.BigEndian
import EggDelivery.Platform

/-!
# File chunks and their wire format

`crc32`, `FileChunk::serialize` and `FileChunk::deserialize`. The decoder reads
through checked accesses: a read or an `assign` outside the buffer is the outcome
`Ub.outOfBounds`. Its `size_t` has `w` bits, and only the sums with a length word
taken from the wire can reach that limit.
-/

namespace EggDelivery

open BigEndian

/-! ## CRC-32 -/

def crc32Poly : UInt32 := 0xEDB88320

/-- The inner loop of `crc32_init_table`. -/
def crc32Shift (crc : UInt32) : Nat → UInt32
  | 0 => crc
  | n + 1 => crc32Shift ((crc >>> 1) ^^^ (if crc &&& 1 != 0 then crc32Poly else 0)) n

/-- The table after `crc32_init_table`, which fills it once. -/
def crc32Table : List UInt32 :=
  (List.range 256).map fun i => crc32Shift (UInt32.ofNat i) 8

/-- One turn of the loop over the bytes. -/
def crc32Step (crc : UInt32) (byte : UInt8) : UInt32 :=
  (crc >>> 8) ^^^ crc32Table.getD ((crc ^^^ byte.toUInt32) &&& 0xFF).toNat 0

def crc32 (data : Bytes) : UInt32 := data.foldl crc32Step 0xFFFFFFFF ^^^ 0xFFFFFFFF

/-- The known answer of `test_crc32`. -/
example : crc32 (ascii "123456789") = 0xCBF43926 := by decide +kernel

/-! ## Encoding -/

/-- `PROTOCOL_MAGIC`, "LANC". -/
def protocolMagic : UInt32 := 0x4C414E43

def protocolVersion : UInt8 := 1

structure FileChunk where
  chunkId : UInt32 := 0
  totalChunks : UInt32 := 0
  fileHash : Bytes := []
  data : Bytes := []
  dataSize : UInt32 := 0
deriving Repr, DecidableEq

/-- Four `push_back`s, most significant byte first. -/
def writeU32 (buf : Bytes) (val : UInt32) : Bytes := buf ++ bytes val

/-- The length words come from the containers, not from `data_size`. -/
def FileChunk.serialize (c : FileChunk) : Bytes :=
  let buf := writeU32 [] protocolMagic
  let buf := buf ++ [protocolVersion]
  let buf := writeU32 buf c.chunkId
  let buf := writeU32 buf c.totalChunks
  let buf := writeU32 buf (UInt32.ofNat c.data.length)
  let buf := writeU32 buf (crc32 c.data)
  let buf := writeU32 buf (UInt32.ofNat c.fileHash.length)
  buf ++ c.fileHash ++ c.data

/-! ## Decoding -/

def at? (buf : Bytes) (i : Nat) : Except Ub UInt8 :=
  match buf[i]? with
  | some b => .ok b
  | none => .error .outOfBounds

/-- The word at `off`, and the offset moved behind it. -/
def readU32 (buf : Bytes) (off : Nat) : Except Ub (UInt32 × Nat) := do
  let a ← at? buf off
  let b ← at? buf (off + 1)
  let c ← at? buf (off + 2)
  let d ← at? buf (off + 3)
  pure (join a b c d, off + 4)

def addSize (w a b : Nat) : Nat := (a + b) % 2 ^ w

/-- `assign(buf.begin() + first, buf.begin() + first + count)`. -/
def assignRange (buf : Bytes) (first count : Nat) : Except Ub Bytes :=
  if first + count ≤ buf.length then .ok ((buf.drop first).take count) else .error .outOfBounds

/-- The returned flag and the chunk object after the call. Every exit leaves the
fields that were assigned before it. -/
def FileChunk.deserialize (w : Nat) (chunk : FileChunk) (buf : Bytes) :
    Except Ub (Bool × FileChunk) :=
  if buf.length < 25 then .ok (false, chunk)
  else do
    let (magic, off) ← readU32 buf 0
    if magic ≠ protocolMagic then pure (false, chunk)
    else
      let version ← at? buf off
      let off := off + 1
      if version ≠ protocolVersion then pure (false, chunk)
      else
        let (chunkId, off) ← readU32 buf off
        let (totalChunks, off) ← readU32 buf off
        let (dataSize, off) ← readU32 buf off
        let chunk := { chunk with chunkId, totalChunks, dataSize }
        let (expectedCrc, off) ← readU32 buf off
        let (hashLen, off) ← readU32 buf off
        if buf.length < addSize w off hashLen.toNat then pure (false, chunk)
        else
          let fileHash ← assignRange buf off hashLen.toNat
          let chunk := { chunk with fileHash }
          let off := addSize w off hashLen.toNat
          if buf.length < addSize w off dataSize.toNat then pure (false, chunk)
          else
            let data ← assignRange buf off dataSize.toNat
            let chunk := { chunk with data }
            pure (crc32 data == expectedCrc, chunk)

end EggDelivery
