import EggDelivery.Library.BigEndian
import EggDelivery.Platform

/-!
# The SHA-256 object of file_manager.cpp

`update`, `transform`, `finalize`, `digest`, `rawDigest`, `hashFile` and
`hashData` as the source computes them. The object keeps its partial block in a
64-byte array of which the first `bufferOffset` bytes are meant.
-/

namespace EggDelivery

open BigEndian

def sha256K : List UInt32 :=
  [0x428a2f98, 0x71374491, 0xb5c0fbcf, 0xe9b5dba5,
    0x3956c25b, 0x59f111f1, 0x923f82a4, 0xab1c5ed5,
    0xd807aa98, 0x12835b01, 0x243185be, 0x550c7dc3,
    0x72be5d74, 0x80deb1fe, 0x9bdc06a7, 0xc19bf174,
    0xe49b69c1, 0xefbe4786, 0x0fc19dc6, 0x240ca1cc,
    0x2de92c6f, 0x4a7484aa, 0x5cb0a9dc, 0x76f988da,
    0x983e5152, 0xa831c66d, 0xb00327c8, 0xbf597fc7,
    0xc6e00bf3, 0xd5a79147, 0x06ca6351, 0x14292967,
    0x27b70a85, 0x2e1b2138, 0x4d2c6dfc, 0x53380d13,
    0x650a7354, 0x766a0abb, 0x81c2c92e, 0x92722c85,
    0xa2bfe8a1, 0xa81a664b, 0xc24b8b70, 0xc76c51a3,
    0xd192e819, 0xd6990624, 0xf40e3585, 0x106aa070,
    0x19a4c116, 0x1e376c08, 0x2748774c, 0x34b0bcb5,
    0x391c0cb3, 0x4ed8aa4a, 0x5b9cca4f, 0x682e6ff3,
    0x748f82ee, 0x78a5636f, 0x84c87814, 0x8cc70208,
    0x90befffa, 0xa4506ceb, 0xbef9a3f7, 0xc67178f2]

def rotr32 (x n : UInt32) : UInt32 := (x >>> n) ||| (x <<< (32 - n))

def shaCh (x y z : UInt32) : UInt32 := (x &&& y) ^^^ (~~~x &&& z)

def shaMaj (x y z : UInt32) : UInt32 := (x &&& y) ^^^ (x &&& z) ^^^ (y &&& z)

/-- `sha_S0`; the small functions `sha_s0` and `sha_s1` follow. -/
def shaS0 (x : UInt32) : UInt32 := rotr32 x 2 ^^^ rotr32 x 13 ^^^ rotr32 x 22

def shaS1 (x : UInt32) : UInt32 := rotr32 x 6 ^^^ rotr32 x 11 ^^^ rotr32 x 25

def shaSmallS0 (x : UInt32) : UInt32 := rotr32 x 7 ^^^ rotr32 x 18 ^^^ (x >>> 3)

def shaSmallS1 (x : UInt32) : UInt32 := rotr32 x 17 ^^^ rotr32 x 19 ^^^ (x >>> 10)

structure SHA256 where
  state : Vector UInt32 8
  bitCount : UInt64
  buffer : Bytes
  bufferOffset : Nat
  finalized : Bool
  buffer_length : buffer.length = 64
  offset_lt : bufferOffset < 64
deriving DecidableEq

namespace SHA256

/-- The constructor; the buffer is uninitialised in the source. -/
def init : SHA256 where
  state := #v[0x6a09e667, 0xbb67ae85, 0x3c6ef372, 0xa54ff53a,
    0x510e527f, 0x9b05688c, 0x1f83d9ab, 0x5be0cd19]
  bitCount := 0
  buffer := List.replicate 64 0
  bufferOffset := 0
  finalized := false
  buffer_length := by simp
  offset_lt := by decide

/-! ## transform -/

structure Working where
  a : UInt32
  b : UInt32
  c : UInt32
  d : UInt32
  e : UInt32
  f : UInt32
  g : UInt32
  h : UInt32
deriving Repr, DecidableEq

def loadWords (block : Bytes) : List UInt32 :=
  (List.range 16).map fun i =>
    join (block.getD (i * 4) 0) (block.getD (i * 4 + 1) 0) (block.getD (i * 4 + 2) 0)
      (block.getD (i * 4 + 3) 0)

/-- The loop that fills `w[16..16 + n)`; entry `i` is written when the first `i`
are there. -/
def extendWords (w : List UInt32) : Nat → List UInt32
  | 0 => w
  | n + 1 =>
      let w := extendWords w n
      let i := 16 + n
      w ++ [shaSmallS1 (w.getD (i - 2) 0) + w.getD (i - 7) 0 + shaSmallS0 (w.getD (i - 15) 0) +
        w.getD (i - 16) 0]

def round (k w : UInt32) (v : Working) : Working :=
  let t1 := v.h + shaS1 v.e + shaCh v.e v.f v.g + k + w
  let t2 := shaS0 v.a + shaMaj v.a v.b v.c
  { h := v.g, g := v.f, f := v.e, e := v.d + t1, d := v.c, c := v.b, b := v.a, a := t1 + t2 }

def roundLoop (n : Nat) (w : List UInt32) (v : Working) : Working :=
  (List.range n).foldl (fun v i => round (sha256K.getD i 0) (w.getD i 0) v) v

def transform (state : Vector UInt32 8) (block : Bytes) : Vector UInt32 8 :=
  let w := extendWords (loadWords block) 48
  let v := roundLoop 64 w
    ⟨state[0], state[1], state[2], state[3], state[4], state[5], state[6], state[7]⟩
  #v[state[0] + v.a, state[1] + v.b, state[2] + v.c, state[3] + v.d,
    state[4] + v.e, state[5] + v.f, state[6] + v.g, state[7] + v.h]

/-! ## update -/

/-- `while (length >= 64)`; the fuel is the length, and each turn takes 64 bytes. -/
def blockLoop : Nat → Vector UInt32 8 → Bytes → Vector UInt32 8 × Bytes
  | 0, state, bytes => (state, bytes)
  | fuel + 1, state, bytes =>
      if 64 ≤ bytes.length then blockLoop fuel (transform state (bytes.take 64)) (bytes.drop 64)
      else (state, bytes)

theorem blockLoop_rest_lt {fuel : Nat} {state : Vector UInt32 8} {bytes : Bytes}
    (h : bytes.length ≤ fuel) : (blockLoop fuel state bytes).2.length < 64 := by
  induction fuel generalizing state bytes with
  | zero =>
      rw [blockLoop]
      exact Nat.lt_of_le_of_lt h (by decide)
  | succ fuel ih =>
      rw [blockLoop]
      split
      · apply ih
        rw [List.length_drop]
        omega
      · exact Nat.not_le.mp ‹_›

/-- The part of `update` after the top-up, with an empty buffer. -/
def updateBlocks (sha : SHA256) (bytes : Bytes) : SHA256 :=
  let r := blockLoop bytes.length sha.state bytes
  have hr : r.2.length < 64 := blockLoop_rest_lt (Nat.le_refl _)
  if 0 < r.2.length then
    { sha with
      state := r.1
      buffer := memcpy sha.buffer 0 r.2
      bufferOffset := r.2.length
      buffer_length := by rw [memcpy_length, sha.buffer_length]; rw [sha.buffer_length]; omega
      offset_lt := hr }
  else { sha with state := r.1 }

def update (sha : SHA256) (data : Bytes) : SHA256 :=
  if sha.finalized then sha
  else
    -- `length * 8` in a 64-bit `size_t`
    let bits := sha.bitCount + UInt64.ofNat data.length * 8
    let fill := 64 - sha.bufferOffset
    have hoff := sha.offset_lt
    if 0 < sha.bufferOffset then
      if hlen : data.length < fill then
        { sha with
          bitCount := bits
          buffer := memcpy sha.buffer sha.bufferOffset data
          bufferOffset := sha.bufferOffset + data.length
          buffer_length := by rw [memcpy_length, sha.buffer_length]; rw [sha.buffer_length]; omega
          offset_lt := by omega }
      else
        let buffer := memcpy sha.buffer sha.bufferOffset (data.take fill)
        updateBlocks
          { sha with
            state := transform sha.state buffer
            bitCount := bits
            buffer := buffer
            bufferOffset := 0
            buffer_length := by
              rw [memcpy_length, sha.buffer_length]
              rw [sha.buffer_length, List.length_take]
              omega
            offset_lt := by decide }
          (data.drop fill)
    else updateBlocks { sha with bitCount := bits } data

/-! ## finalize and the digests -/

/-- `(bits >> (56 - i * 8)) & 0xFF` for `i` from 0 to 7. -/
def lengthField (bits : UInt64) : Bytes :=
  (List.range 8).map fun i => ((bits >>> UInt64.ofNat (56 - i * 8)) &&& 0xFF).toUInt8

/-- What `finalize` hands to the last `transform` calls: the state, the buffer
and the offset once the length fits into the block. -/
def makeRoom (state : Vector UInt32 8) (buffer : Bytes) (offset : Nat) :
    Vector UInt32 8 × Bytes × Nat :=
  if 56 < offset then
    let buffer := memcpy buffer offset (List.replicate (64 - offset) 0)
    (transform state buffer, buffer, 0)
  else (state, buffer, offset)

theorem makeRoom_offset_le (state : Vector UInt32 8) (buffer : Bytes) (offset : Nat) :
    (makeRoom state buffer offset).2.2 ≤ 56 := by
  unfold makeRoom
  split
  · exact Nat.zero_le _
  · exact Nat.not_lt.mp ‹_›

theorem makeRoom_buffer_length {state : Vector UInt32 8} {buffer : Bytes} {offset : Nat}
    (hb : buffer.length = 64) (ho : offset ≤ 64) :
    (makeRoom state buffer offset).2.1.length = 64 := by
  unfold makeRoom
  split
  · rw [memcpy_length, hb]
    rw [hb, List.length_replicate]
    omega
  · exact hb

@[simp] theorem lengthField_length (bits : UInt64) : (lengthField bits).length = 8 := by
  simp [lengthField]

def finalize (sha : SHA256) : SHA256 :=
  if sha.finalized then sha
  else
    have hoff := sha.offset_lt
    have hmark : (memcpy sha.buffer sha.bufferOffset [0x80]).length = 64 := by
      rw [memcpy_length, sha.buffer_length]
      rw [sha.buffer_length, List.length_singleton]
      omega
    let r := makeRoom sha.state (memcpy sha.buffer sha.bufferOffset [0x80]) (sha.bufferOffset + 1)
    have hr : r.2.2 ≤ 56 := makeRoom_offset_le _ _ _
    have hl : r.2.1.length = 64 := makeRoom_buffer_length hmark (by omega)
    let zeroed := memcpy r.2.1 r.2.2 (List.replicate (56 - r.2.2) 0)
    have hz : zeroed.length = 64 := by
      rw [memcpy_length, hl]
      rw [hl, List.length_replicate]
      omega
    let block := memcpy zeroed 56 (lengthField sha.bitCount)
    { state := transform r.1 block
      bitCount := sha.bitCount
      buffer := block
      bufferOffset := r.2.2
      finalized := true
      buffer_length := by
        rw [memcpy_length, hz]
        rw [hz, lengthField_length]
      offset_lt := by omega }

/-- `digest() const` finalizes the object through a `const_cast`, so the call
returns the text and leaves the finalized object. -/
def digest (sha : SHA256) : Bytes × SHA256 :=
  let self := sha.finalize
  (self.state.toList.flatMap fun w => hexPadded 8 w.toNat, self)

def rawDigest (sha : SHA256) : Bytes × SHA256 :=
  let self := sha.finalize
  (self.state.toList.flatMap bytes, self)

/-! ## Files and buffers -/

/-- `while (file.read(buf, sizeof(buf)) || file.gcount() > 0)`. -/
def hashLoop : Nat → SHA256 → IfStream → SHA256
  | 0, sha, _ => sha
  | fuel + 1, sha, file =>
      let (buf, file) := file.read 8192
      if file.good || 0 < file.gcount then hashLoop fuel (sha.update buf) file else sha

/-- `hashFile` on what its own stream delivers, `none` when the file does not
open. Each turn of the loop but the last takes at least one byte. -/
def hashFile (pass : Option Bytes) : Bytes :=
  match pass with
  | none => []
  | some content => (hashLoop (content.length + 2) init { content }).digest.1

def hashData (data : Bytes) : Bytes := (init.update data).digest.1

/-- The known answer of `test_sha256_known_vector`. -/
example : hashData (ascii "abc") =
    ascii "ba7816bf8f01cfea414140de5dae2223b00361a396177a9cb410ff61f20015ad" := by
  decide +kernel

end SHA256

end EggDelivery
