import EggDelivery.Hash.Transform
import EggDelivery.Library.Run
import Mathlib.Tactic.IntervalCases

/-!
# Streaming: every way of feeding a SHA-256 object hashes the concatenation

`Absorbed sha message` says what the object has done with the bytes it has seen:
the whole blocks are in the chaining state, the rest is in the buffer, and the
bit count is the length. One `update` appends to the message, `finalize` turns
the invariant into the FIPS hash value, and a call sequence is a run of these.
-/

namespace EggDelivery.SHA256

open Fips180 BigEndian Slices

structure Absorbed (sha : SHA256) (message : Bytes) : Prop where
  live : sha.finalized = false
  state : regs sha.state = absorb 64 compress initial message
  buffer : sha.buffer.take sha.bufferOffset = remainder 64 message
  bits : sha.bitCount = UInt64.ofNat message.length * 8

theorem Absorbed.offset {sha : SHA256} {message : Bytes} (h : Absorbed sha message) :
    sha.bufferOffset = message.length % 64 := by
  have hlen := congrArg List.length h.buffer
  rw [List.length_take, sha.buffer_length, remainder_length] at hlen
  have := sha.offset_lt
  omega

theorem init_absorbed : Absorbed init [] where
  live := rfl
  state := regs_init
  buffer := rfl
  bits := rfl

/-! ## update -/

theorem blockLoop_spec {fuel : Nat} (state : Vector UInt32 8) {bytes : Bytes}
    (h : bytes.length ≤ fuel) :
    regs (blockLoop fuel state bytes).1 = absorb 64 compress (regs state) bytes ∧
      (blockLoop fuel state bytes).2 = remainder 64 bytes := by
  induction fuel generalizing state bytes with
  | zero =>
      have hlt : bytes.length < 64 := by omega
      exact ⟨(absorb_of_length_lt _ _ hlt).symm, (remainder_of_length_lt hlt).symm⟩
  | succ fuel ih =>
      rw [blockLoop]
      split
      next hle =>
        have hblock : (bytes.take 64).length = 64 := by simp [hle]
        have hdrop : (bytes.drop 64).length ≤ fuel := by
          rw [List.length_drop]
          omega
        have hrest := ih (transform state (bytes.take 64)) hdrop
        rw [hrest.1, hrest.2, transform_spec,
          ← absorb_block_append compress (regs state) _ (by decide) hblock,
          ← remainder_append_of_dvd (bytes.drop 64) (by rw [hblock]), List.take_append_drop]
        exact ⟨rfl, rfl⟩
      next hle =>
        have hlt : bytes.length < 64 := by omega
        exact ⟨(absorb_of_length_lt _ _ hlt).symm, (remainder_of_length_lt hlt).symm⟩

theorem updateBlocks_spec (sha : SHA256) (bytes : Bytes) (hoff : sha.bufferOffset = 0) :
    regs (updateBlocks sha bytes).state = absorb 64 compress (regs sha.state) bytes ∧
      (updateBlocks sha bytes).buffer.take (updateBlocks sha bytes).bufferOffset =
        remainder 64 bytes ∧
      (updateBlocks sha bytes).bitCount = sha.bitCount ∧
      (updateBlocks sha bytes).finalized = sha.finalized := by
  obtain ⟨hstate, hrest⟩ := blockLoop_spec sha.state (Nat.le_refl bytes.length)
  unfold updateBlocks
  dsimp only
  split
  next hpos =>
    refine ⟨hstate, ?_, rfl, rfl⟩
    have h := take_memcpy (blockLoop bytes.length sha.state bytes).2 (Nat.zero_le sha.buffer.length)
    simpa only [Nat.zero_add, List.take_zero, List.nil_append, hrest] using h
  next hzero =>
    refine ⟨hstate, ?_, rfl, rfl⟩
    have hempty : remainder 64 bytes = [] := by
      rw [← hrest]
      exact List.eq_nil_of_length_eq_zero (by omega)
    simp [hoff, hempty]

private theorem bits_append (message data : Bytes) :
    UInt64.ofNat message.length * 8 + UInt64.ofNat data.length * 8 =
      UInt64.ofNat (message ++ data).length * 8 := by
  rw [List.length_append, UInt64.ofNat_add, UInt64.add_mul]

theorem updateBlocks_absorbed {sha : SHA256} {blocks : Bytes} (bytes : Bytes)
    (hlive : sha.finalized = false) (hoff : sha.bufferOffset = 0) (hblocks : 64 ∣ blocks.length)
    (hstate : regs sha.state = absorb 64 compress initial blocks)
    (hbits : sha.bitCount = UInt64.ofNat (blocks ++ bytes).length * 8) :
    Absorbed (updateBlocks sha bytes) (blocks ++ bytes) := by
  obtain ⟨hstate', hbuffer', hbits', hlive'⟩ := updateBlocks_spec sha bytes hoff
  have hnil : remainder 64 blocks = [] := by
    apply List.eq_nil_of_length_eq_zero
    rw [remainder_length, Nat.mod_eq_zero_of_dvd hblocks]
  refine ⟨hlive'.trans hlive, ?_, ?_, hbits'.trans hbits⟩
  · rw [hstate', hstate, absorb_append, hnil, List.nil_append]
  · rw [hbuffer', remainder_append, hnil, List.nil_append]

theorem Absorbed.append_short {sha : SHA256} {message data : Bytes} (h : Absorbed sha message)
    (hshort : (remainder 64 message ++ data).length < 64) :
    absorb 64 compress initial (message ++ data) = regs sha.state ∧
      remainder 64 (message ++ data) = (memcpy sha.buffer sha.bufferOffset data).take
        (sha.bufferOffset + data.length) := by
  have hle : sha.bufferOffset ≤ sha.buffer.length := by
    have hlt := sha.offset_lt
    rw [sha.buffer_length]
    omega
  constructor
  · rw [absorb_append, absorb_of_length_lt _ _ hshort]
    exact h.state.symm
  · rw [remainder_append, remainder_of_length_lt hshort, ← h.buffer]
    exact (take_memcpy data hle).symm

/-- A top-up to 64 bytes makes the buffer a block behind the whole blocks of the message. -/
theorem Absorbed.top_up {sha : SHA256} {message data : Bytes} (h : Absorbed sha message)
    (hfill : sha.bufferOffset + data.length = 64) :
    64 ∣ (message ++ data).length ∧
      regs (transform sha.state (memcpy sha.buffer sha.bufferOffset data)) =
        absorb 64 compress initial (message ++ data) := by
  have hoff := h.offset
  have hblock : (remainder 64 message ++ data).length = 64 := by
    rw [List.length_append, remainder_length, ← hoff, hfill]
  have hfull : memcpy sha.buffer sha.bufferOffset data = remainder 64 message ++ data := by
    rw [memcpy_to_end (by rw [hfill, sha.buffer_length]), h.buffer]
  constructor
  · rw [List.length_append]
    omega
  · rw [transform_spec, hfull, h.state, absorb_append, absorb_block compress _ (by decide) hblock]

/-- `update` appends its bytes to the message, at every alignment. -/
theorem update_absorbed {sha : SHA256} {message : Bytes} (data : Bytes)
    (h : Absorbed sha message) : Absorbed (sha.update data) (message ++ data) := by
  have hoff := h.offset
  have hlt := sha.offset_lt
  unfold update
  rw [if_neg (by simp [h.live])]
  dsimp only
  split
  next hpos =>
    split
    next hshort =>
      have hsmall : (remainder 64 message ++ data).length < 64 := by
        rw [List.length_append, remainder_length]
        omega
      obtain ⟨hstate, hbuffer⟩ := h.append_short hsmall
      refine ⟨h.live, hstate.symm, hbuffer.symm, ?_⟩
      rw [h.bits, bits_append]
    next hlong =>
      -- the top-up completes the buffered block, the rest starts at a boundary
      have hfill : sha.bufferOffset + (data.take (64 - sha.bufferOffset)).length = 64 := by
        rw [List.length_take]
        omega
      obtain ⟨hblocks, hstate⟩ := h.top_up hfill
      have hsplit : message ++ data = message ++ data.take (64 - sha.bufferOffset) ++
          data.drop (64 - sha.bufferOffset) := by
        rw [List.append_assoc, List.take_append_drop]
      rw [hsplit]
      refine updateBlocks_absorbed _ h.live rfl hblocks hstate ?_
      rw [← hsplit, ← bits_append, h.bits]
  next hzero =>
    refine updateBlocks_absorbed data h.live ?_ ?_ h.state ?_
    · exact Nat.eq_zero_of_not_pos hzero
    · omega
    · rw [← bits_append, h.bits]

theorem updates_absorbed {sha : SHA256} {message : Bytes} (pieces : List Bytes)
    (h : Absorbed sha message) :
    Absorbed (pieces.foldl update sha) (message ++ pieces.flatten) := by
  induction pieces generalizing sha message with
  | nil => simpa using h
  | cons piece pieces ih =>
      simpa [List.append_assoc] using ih (update_absorbed piece h)

/-! ## finalize -/

theorem lengthField_spec (length : Nat) :
    lengthField (UInt64.ofNat length * 8) = lengthBytes (8 * length) := by
  apply List.map_congr_left
  intro i hi
  have hi8 : i < 8 := List.mem_range.mp hi
  have hbits : (UInt64.ofNat length * 8).toNat = 8 * length % 2 ^ 64 := by
    simp [UInt64.toNat_mul, UInt64.toNat_ofNat']
    omega
  have hshift : (UInt64.ofNat (56 - i * 8)).toNat = 56 - i * 8 := by
    rw [UInt64.toNat_ofNat']
    omega
  have h255 (n : Nat) : n &&& 255 = n % 256 := Nat.and_two_pow_sub_one_eq_mod n 8
  apply UInt8.toNat_inj.mp
  rw [UInt64.toNat_toUInt8, UInt64.toNat_and, UInt64.toNat_shiftRight, hbits, hshift,
    UInt8.toNat_ofNat', Nat.mod_eq_of_lt (show 56 - i * 8 < 64 by omega), Nat.shiftRight_eq_div_pow,
    show (0xFF : UInt64).toNat = 255 from rfl, h255]
  interval_cases i <;> omega

/-- The last block: what is buffered, zeros up to byte 56, and the length. -/
theorem lastBlock_eq {buffer pre : Bytes} {offset : Nat} (bits : UInt64)
    (hb : buffer.length = 64) (ho : offset ≤ 56) (hp : buffer.take offset = pre) :
    memcpy (memcpy buffer offset (List.replicate (56 - offset) 0)) 56 (lengthField bits) =
      pre ++ List.replicate (56 - offset) 0 ++ lengthField bits := by
  have hz : (memcpy buffer offset (List.replicate (56 - offset) 0)).length = 64 := by
    rw [memcpy_length, hb]
    rw [hb, List.length_replicate]
    omega
  have hle : offset ≤ buffer.length := by omega
  have htake := take_memcpy (List.replicate (56 - offset) 0) hle
  rw [List.length_replicate, show offset + (56 - offset) = 56 by omega] at htake
  rw [memcpy_to_end (by rw [hz, lengthField_length]), htake, hp]

/-- `makeRoom` absorbs the marked buffer exactly when the length does not fit
behind the mark. -/
theorem makeRoom_spec (state : Vector UInt32 8) {buffer pre : Bytes} {offset : Nat}
    (hb : buffer.length = 64) (ho : offset ≤ 64) (hp : buffer.take offset = pre)
    (hlen : pre.length = offset) (zeros : Nat) (hz : 64 ∣ offset + zeros + 8) (hz64 : zeros < 64)
    (tail : Bytes) (htail : tail.length = 8) :
    compress (regs (makeRoom state buffer offset).1)
        ((makeRoom state buffer offset).2.1.take (makeRoom state buffer offset).2.2 ++
          List.replicate (56 - (makeRoom state buffer offset).2.2) 0 ++ tail) =
      absorb 64 compress (regs state) (pre ++ (List.replicate zeros 0 ++ tail)) := by
  unfold makeRoom
  split
  next hover =>
    have hfull : memcpy buffer offset (List.replicate (64 - offset) 0) =
        pre ++ List.replicate (64 - offset) 0 := by
      rw [memcpy_to_end (by rw [List.length_replicate, hb]; omega), hp]
    have hblock : (pre ++ List.replicate (64 - offset) 0).length = 64 := by
      rw [List.length_append, List.length_replicate, hlen]
      omega
    have hsplit : pre ++ (List.replicate zeros 0 ++ tail) =
        (pre ++ List.replicate (64 - offset) 0) ++ (List.replicate 56 0 ++ tail) := by
      rw [show zeros = (64 - offset) + 56 by omega, List.replicate_add]
      simp only [List.append_assoc]
    rw [hsplit, absorb_block_append compress _ _ (by decide) hblock,
      absorb_block compress _ (by decide) (by simp [htail]), hfull, transform_spec]
    simp
  next hfit =>
    have hzeros : zeros = 56 - offset := by omega
    rw [hp, hzeros, List.append_assoc, absorb_block compress _ (by decide)]
    rw [List.length_append, List.length_append, List.length_replicate, hlen, htail]
    omega

/-- `finalize` leaves the FIPS hash value of everything absorbed. -/
theorem finalize_spec {sha : SHA256} {message : Bytes} (h : Absorbed sha message) :
    regs sha.finalize.state = hashValue message := by
  have hoff := h.offset
  have hlt := sha.offset_lt
  have hmark : (memcpy sha.buffer sha.bufferOffset [0x80]).length = 64 := by
    rw [memcpy_length, sha.buffer_length]
    rw [sha.buffer_length, List.length_singleton]
    omega
  have hpre : (memcpy sha.buffer sha.bufferOffset [0x80]).take (sha.bufferOffset + 1) =
      remainder 64 message ++ [0x80] := by
    rw [← h.buffer]
    have hle : sha.bufferOffset ≤ sha.buffer.length := by
      rw [sha.buffer_length]
      omega
    exact take_memcpy [0x80] hle
  have hprelen : (remainder 64 message ++ [0x80]).length = sha.bufferOffset + 1 := by
    rw [List.length_append, remainder_length, ← hoff, List.length_singleton]
  have hroom := makeRoom_spec sha.state hmark (by omega) hpre hprelen
    (paddingZeros message.length) (by unfold paddingZeros; omega)
    (by unfold paddingZeros; omega) (lengthField sha.bitCount) (lengthField_length _)
  rw [finalize, if_neg (by simp [h.live])]
  dsimp only
  rw [transform_spec, lastBlock_eq _ (makeRoom_buffer_length hmark (by omega))
    (makeRoom_offset_le _ _ _) rfl, hroom, hashValue, pad,
    absorb_append 64 compress initial message, h.state, h.bits, lengthField_spec, List.append_assoc,
    List.singleton_append]

@[simp] theorem finalize_finalized (sha : SHA256) : sha.finalize.finalized = true := by
  unfold finalize
  split
  · assumption
  · rfl

theorem finalize_of_finalized {sha : SHA256} (h : sha.finalized = true) : sha.finalize = sha := by
  rw [finalize, if_pos h]

theorem update_of_finalized {sha : SHA256} (data : Bytes) (h : sha.finalized = true) :
    sha.update data = sha := by
  rw [update, if_pos h]

/-! ## Digests -/

theorem state_bytes (state : Vector UInt32 8) :
    state.toList.flatMap bytes = (regs state).words.flatMap fun w => bytes ⟨w⟩ := by
  have hlist : state.toList =
      [state[0], state[1], state[2], state[3], state[4], state[5], state[6], state[7]] := by
    apply List.ext_getElem (by simp)
    intro i h1 h2
    have hi : i < 8 := by simpa using h1
    interval_cases i <;> simp
  rw [hlist]
  rfl

theorem rawDigest_spec {sha : SHA256} {message : Bytes}
    (h : regs sha.finalize.state = hashValue message) :
    sha.rawDigest.1 = Fips180.digest message := by
  rw [rawDigest, Fips180.digest, ← h]
  exact state_bytes _

theorem digest_spec {sha : SHA256} {message : Bytes}
    (h : regs sha.finalize.state = hashValue message) : sha.digest.1 = hexDigest message := by
  rw [hexDigest, ← rawDigest_spec h]
  simp only [digest, rawDigest, hexPadded_eight, List.flatMap_assoc]

/-! ## Call sequences -/

inductive Call where
  | update (data : Bytes)
  | digest
  | rawDigest
deriving Repr, DecidableEq

def Call.isUpdate : Call → Bool
  | .update _ => true
  | _ => false

def Call.payload : Call → Bytes
  | .update data => data
  | _ => []

def call (sha : SHA256) : Call → SHA256 × Option Bytes
  | .update data => (sha.update data, none)
  | .digest => (sha.digest.2, some sha.digest.1)
  | .rawDigest => (sha.rawDigest.2, some sha.rawDigest.1)

def Call.answer (message : Bytes) : Call → Option Bytes
  | .update _ => none
  | .digest => some (hexDigest message)
  | .rawDigest => some (Fips180.digest message)

/-- The payloads issued before the first digest of either kind. -/
def hashedMessage (calls : List Call) : Bytes :=
  (calls.takeWhile Call.isUpdate).flatMap Call.payload

@[simp] theorem hashedMessage_update (data : Bytes) (calls : List Call) :
    hashedMessage (.update data :: calls) = data ++ hashedMessage calls := rfl

@[simp] theorem hashedMessage_digest (calls : List Call) :
    hashedMessage (.digest :: calls) = [] := rfl

@[simp] theorem hashedMessage_rawDigest (calls : List Call) :
    hashedMessage (.rawDigest :: calls) = [] := rfl

/-- A finalized object answers every later call from the same hash value. -/
theorem outputs_of_finalized {sha : SHA256} {message : Bytes} (hf : sha.finalized = true)
    (h : regs sha.state = hashValue message) (calls : List Call) :
    Run.outputs call sha calls = calls.map (Call.answer message) := by
  have hself : sha.finalize = sha := finalize_of_finalized hf
  have hvalue : regs sha.finalize.state = hashValue message := by rw [hself, h]
  induction calls with
  | nil => rfl
  | cons c calls ih =>
      have hstay : (call sha c).1 = sha := by
        cases c with
        | update data => exact update_of_finalized data hf
        | digest => exact hself
        | rawDigest => exact hself
      have hanswer : (call sha c).2 = c.answer message := by
        cases c with
        | update data => rfl
        | digest => exact congrArg some (digest_spec hvalue)
        | rawDigest => exact congrArg some (rawDigest_spec hvalue)
      rw [Run.outputs_cons, hstay, hanswer, ih]
      rfl

theorem outputs_of_absorbed {sha : SHA256} {past : Bytes} (h : Absorbed sha past)
    (calls : List Call) :
    Run.outputs call sha calls = calls.map (Call.answer (past ++ hashedMessage calls)) := by
  induction calls generalizing sha past with
  | nil => rfl
  | cons c calls ih =>
      cases c with
      | update data =>
          have hrest := ih (update_absorbed data h)
          rw [List.append_assoc] at hrest
          simp only [Run.outputs_cons, call, hrest, hashedMessage_update]
          rfl
      | digest =>
          have hvalue := finalize_spec h
          have hrest := outputs_of_finalized (finalize_finalized sha) hvalue calls
          simp only [Run.outputs_cons, call]
          rw [show sha.digest.2 = sha.finalize from rfl, hrest, digest_spec hvalue,
            hashedMessage_digest, List.append_nil]
          rfl
      | rawDigest =>
          have hvalue := finalize_spec h
          have hrest := outputs_of_finalized (finalize_finalized sha) hvalue calls
          simp only [Run.outputs_cons, call]
          rw [show sha.rawDigest.2 = sha.finalize from rfl, hrest, rawDigest_spec hvalue,
            hashedMessage_rawDigest, List.append_nil]
          rfl

theorem hashData_spec (data : Bytes) : hashData data = hexDigest data :=
  digest_spec (finalize_spec (update_absorbed data init_absorbed))

/-! ## Files -/

theorem hashLoop_absorbed {fuel : Nat} {sha : SHA256} {message content : Bytes} (gcount : Nat)
    (h : Absorbed sha message) (hfuel : content.length + 2 ≤ fuel) :
    Absorbed (hashLoop fuel sha ⟨content, true, gcount⟩) (message ++ content) := by
  induction fuel generalizing sha message content gcount with
  | zero => omega
  | succ fuel ih =>
      rw [hashLoop]
      by_cases hfull : 8192 ≤ content.length
      · rw [IfStream.read_of_le rfl hfull]
        have hdrop : (content.drop 8192).length + 2 ≤ fuel := by
          rw [List.length_drop]
          omega
        have hrest := ih 8192 (update_absorbed (content.take 8192) h) hdrop
        rw [List.append_assoc, List.take_append_drop] at hrest
        simpa using hrest
      · have hshort : content.length < 8192 := by omega
        rw [IfStream.read_of_lt rfl hshort]
        dsimp only
        cases hempty : content.length with
        | zero =>
            obtain rfl : content = [] := List.eq_nil_of_length_eq_zero hempty
            simpa using h
        | succ n =>
            -- the short read is hashed, and the failed stream then ends the loop
            obtain ⟨fuel, rfl⟩ : ∃ k, fuel = k + 1 := ⟨fuel - 1, by omega⟩
            rw [if_pos (by simp), hashLoop, IfStream.read_of_bad _ rfl]
            simpa using update_absorbed content h

theorem hashFile_spec (content : Bytes) : hashFile (some content) = hexDigest content :=
  digest_spec (finalize_spec (hashLoop_absorbed 0 init_absorbed (Nat.le_refl _)))

/-- Every call sequence on a fresh object answers from the FIPS 180-4 digest of
the payloads issued before the first digest. So the cut of a message into
updates is irrelevant, and hashing a file is hashing its content. Below `2 ^ 61`
bytes the 64-bit length of the padding is the exact bit length. -/
theorem streaming_correct :
    (∀ calls : List Call,
      Run.outputs call init calls = calls.map (Call.answer (hashedMessage calls))) ∧
    (∀ pieces : List Bytes,
      (pieces.foldl update init).digest.1 = hexDigest pieces.flatten ∧
        (pieces.foldl update init).digest.1 = hashData pieces.flatten) ∧
    (∀ content : Bytes, hashFile (some content) = hashData content) := by
  refine ⟨fun calls => ?_, fun pieces => ?_, fun content => ?_⟩
  · simpa using outputs_of_absorbed init_absorbed calls
  · have h : (pieces.foldl update init).digest.1 = hexDigest pieces.flatten :=
      digest_spec (finalize_spec (updates_absorbed pieces init_absorbed))
    exact ⟨h, by rw [h, hashData_spec]⟩
  · rw [hashFile_spec, hashData_spec]

end EggDelivery.SHA256
