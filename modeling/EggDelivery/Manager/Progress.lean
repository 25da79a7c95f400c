import EggDelivery.Manager.SessionRuns

/-!
# The percentage

`getProgressPercentage` multiplies by 100 in `uint32_t` before it divides. The product
fits as long as no more than 42949672 chunks have arrived; one chunk later it wraps,
and the progress falls back.
-/

namespace EggDelivery

namespace FileTransferSession

theorem getProgressPercentage_toNat (s : FileTransferSession) :
    s.getProgressPercentage.toNat =
      s.getReceivedChunkCount.toNat * 100 % 2 ^ 32 / s.totalChunks.toNat := by
  unfold getProgressPercentage
  split
  next h => simp [h]
  next => rw [UInt32.toNat_div, UInt32.toNat_mul, show (100 : UInt32).toNat = 100 from rfl]

end FileTransferSession

open FileTransferSession

/-- Cutting a product off changes its quotient by any word. -/
theorem mod_div_eq_iff {a b : Nat} (hpos : 0 < b) (hb : b < 2 ^ 32) :
    a % 2 ^ 32 / b = a / b ↔ a < 2 ^ 32 := by
  constructor
  · intro h
    by_contra hlarge
    have hcut : a % 2 ^ 32 + b ≤ a := by
      have hdiv : 1 ≤ a / 2 ^ 32 := (Nat.one_le_div_iff (by decide)).mpr (Nat.not_lt.mp hlarge)
      have hmod := Nat.mod_add_div a (2 ^ 32)
      omega
    have hstep : a % 2 ^ 32 / b + 1 ≤ a / b := by
      rw [← Nat.add_div_right _ hpos]
      exact Nat.div_le_div_right hcut
    omega
  · intro h
    rw [Nat.mod_eq_of_lt h]

theorem received_mono {total : UInt32} {past calls : List SessionCall} (h : past <+: calls) :
    received total past ≤ received total calls := by
  obtain ⟨more, rfl⟩ := h
  refine List.countP_mono_left fun id _ hid => ?_
  rw [decide_eq_true_iff] at hid ⊢
  rw [offered_append]
  exact List.mem_append_left _ hid

theorem received_le (total : UInt32) (calls : List SessionCall) :
    received total calls ≤ total.toNat := by
  rw [← idsBelow_length total]
  exact List.countP_le_length

theorem received_eq_iff {total : UInt32} {calls : List SessionCall} :
    received total calls = total.toNat ↔ ∀ id, id < total → id ∈ offered calls := by
  rw [← idsBelow_length total, received, List.countP_eq_length]
  simp [mem_idsBelow]

/-- The percentage along a run: at every point it is the part of the chunks that have
arrived, rounded down, and it never falls. -/
structure ProgressIsRight (s : FileTransferSession) (calls : List SessionCall) : Prop where
  exact : ∀ past, past <+: calls → (s.afterCalls past).getProgressPercentage.toNat =
    100 * received s.totalChunks past / s.totalChunks.toNat
  bounded : ∀ past, past <+: calls → (s.afterCalls past).getProgressPercentage ≤ 100
  full : ∀ past, past <+: calls →
    ((s.afterCalls past).getProgressPercentage = 100 ↔ (s.afterCalls past).isComplete = true)
  monotone : ∀ past past', past <+: past' → past' <+: calls →
    (s.afterCalls past).getProgressPercentage ≤ (s.afterCalls past').getProgressPercentage

section Runs

variable (hash path : Bytes) (total : UInt32) (now : Time)

theorem percentage_afterCalls (calls : List SessionCall) :
    ((new hash path total now).afterCalls calls).getProgressPercentage.toNat =
      100 * received total calls % 2 ^ 32 / total.toNat := by
  have h := offered_after hash path total now calls
  rw [getProgressPercentage_toNat, h.getReceivedChunkCount_toNat, h.total_eq, Nat.mul_comm]

/-- Right all along exactly when at most 42949672 different chunks have arrived. -/
theorem progressIsRight_iff (hpos : 0 < total) (calls : List SessionCall) :
    ProgressIsRight (new hash path total now) calls ↔ received total calls ≤ 42949672 := by
  have htotal : 0 < total.toNat := UInt32.lt_iff_toNat_lt.mp hpos
  constructor
  · intro h
    have hexact := h.exact calls (List.prefix_refl _)
    rw [percentage_afterCalls] at hexact
    have hsmall := (mod_div_eq_iff htotal total.toNat_lt).mp hexact
    omega
  · intro hfew
    have hexact : ∀ past, past <+: calls →
        ((new hash path total now).afterCalls past).getProgressPercentage.toNat =
          100 * received total past / total.toNat := by
      intro past hpast
      have hle : received total past ≤ received total calls := received_mono hpast
      rw [percentage_afterCalls, Nat.mod_eq_of_lt (by omega)]
    have hle : ∀ past, 100 * received total past / total.toNat ≤ 100 := by
      intro past
      have hreceived := received_le total past
      exact Nat.div_le_of_le_mul (by rw [Nat.mul_comm total.toNat]; omega)
    refine ⟨hexact, fun past hpast => ?_, fun past hpast => ?_, fun past past' h h' => ?_⟩
    · rw [UInt32.le_iff_toNat_le, hexact past hpast]
      exact hle past
    · rw [(offered_after hash path total now past).isComplete_iff, ← received_eq_iff,
        ← UInt32.toNat_inj, hexact past hpast, show (100 : UInt32).toNat = 100 from rfl]
      have hreceived := received_le total past
      constructor
      · intro hfull
        have hmul := Nat.div_mul_le_self (100 * received total past) total.toNat
        rw [hfull] at hmul
        omega
      · intro hall
        rw [hall, Nat.mul_div_cancel _ htotal]
    · rw [UInt32.le_iff_toNat_le, hexact past (h.trans h'), hexact past' h']
      exact Nat.div_le_div_right (Nat.mul_le_mul_left _ (received_mono h))

end Runs

theorem progressIsRight_one_of_three :
    ProgressIsRight (new [] [] 3 0) [.addChunk 1 [7] 1] :=
  (progressIsRight_iff [] [] 3 0 (by decide) _).mpr (by decide)

def allEmpty (total : UInt32) : List SessionCall :=
  (idsBelow total).map fun id => .addChunk id [] 0

theorem offered_allEmpty (total : UInt32) : offered (allEmpty total) = idsBelow total := by
  simp [offered, allEmpty, List.filterMap_map, Function.comp_def, SessionCall.offers]

/-- A transfer of 42949673 chunks is complete and shows 0 percent. -/
theorem not_progressIsRight_many :
    ¬∀ (total : UInt32) (calls : List SessionCall), 0 < total →
      ProgressIsRight (new [] [] total 0) calls := by
  intro h
  have hall : received 42949673 (allEmpty 42949673) = (42949673 : UInt32).toNat := by
    rw [received_eq_iff, offered_allEmpty]
    exact fun id hid => mem_idsBelow.mpr hid
  have hexact := (h 42949673 (allEmpty 42949673) (by decide)).exact _ (List.prefix_refl _)
  rw [percentage_afterCalls, show (new [] [] 42949673 0).totalChunks = 42949673 from rfl, hall]
    at hexact
  exact absurd hexact (by decide)

end EggDelivery
