import EggDelivery.Library.Collector
import EggDelivery.Library.Run

/-!
# How far a tray is from its end

A delivery fills one empty cell at most, and deliveries for the empty cells fill the tray.
So a tray goes after as many deliveries as it has empty cells, if they are well chosen,
and never after fewer. A full one that was left behind takes one delivery more.
-/

namespace Collector

variable {α : Type*}

def vacant (tray : Tray α) : Nat := tray.countP Option.isNone

/-- The fewest deliveries after which the tray may be gone. -/
def toGo : Option (Tray α) → Nat
  | none => 0
  | some tray => max 1 (vacant tray)

def filler (x : α) (i : Nat) : Delivery α where
  index := i
  total := 0
  piece := x
  taken := true

theorem full_iff_vacant {tray : Tray α} : full tray = true ↔ vacant tray = 0 := by
  rw [full, List.all_eq_true, vacant, List.countP_eq_zero]
  refine forall₂_congr fun cell _ => ?_
  cases cell <;> simp

/-! ## One delivery -/

theorem vacant_set {tray : Tray α} {i : Nat} (h : tray[i]? = some none) (x : α) :
    vacant (tray.set i (some x)) + 1 = vacant tray := by
  obtain ⟨hi, hcell⟩ := List.getElem?_eq_some_iff.mp h
  have hpos : 0 < tray.countP Option.isNone :=
    List.countP_pos_iff.mpr ⟨none, hcell ▸ List.getElem_mem hi, rfl⟩
  rw [vacant, vacant, List.countP_set hi, hcell]
  simp only [Option.isNone_none, Option.isNone_some, if_true, Bool.false_eq_true, if_false]
  omega

theorem vacant_le_set (tray : Tray α) (i : Nat) (x : α) :
    vacant tray ≤ vacant (tray.set i (some x)) + 1 := by
  by_cases hi : i < tray.length
  · rw [vacant, vacant, List.countP_set hi]
    split <;> omega
  · rw [List.set_eq_of_length_le (Nat.not_lt.mp hi)]
    exact Nat.le_succ _

theorem vacant_set_of_full {tray : Tray α} (h : vacant tray = 0) (i : Nat) (x : α) :
    vacant (tray.set i (some x)) = 0 := by
  by_cases hi : i < tray.length
  · rw [vacant] at h ⊢
    rw [List.countP_set hi, h]
    simp
  · rwa [List.set_eq_of_length_le (Nat.not_lt.mp hi)]

theorem step_of_vacant_zero {s : Option (Tray α)} {d : Delivery α} (h : vacant (put s d) = 0)
    (htaken : d.taken = true) : (step s d).1 = none := by
  rw [step_of_full (full_iff_vacant.mpr h), htaken, if_pos rfl]

theorem step_of_vacant_pos {s : Option (Tray α)} {d : Delivery α} (h : 0 < vacant (put s d)) :
    (step s d).1 = some (put s d) := by
  have hfull : full (put s d) = false := by
    rw [Bool.eq_false_iff, Ne, full_iff_vacant]
    exact Nat.pos_iff_ne_zero.mp h
  rw [step_of_not_full hfull]

/-! ## The fewest deliveries -/

/-- Fewer deliveries leave a tray behind. -/
theorem toGo_le_length {s : Option (Tray α)} {ds : List (Delivery α)}
    (h : Run.final step s ds = none) : toGo s ≤ ds.length := by
  induction ds generalizing s with
  | nil =>
      rw [Run.final_nil] at h
      rw [h]
      exact Nat.le_refl 0
  | cons d ds ih =>
      cases s with
      | none => exact Nat.zero_le _
      | some tray =>
          have hone : vacant tray ≤ vacant (put (some tray) d) + 1 := vacant_le_set _ _ _
          rw [toGo, List.length_cons]
          rcases Nat.eq_zero_or_pos (vacant (put (some tray) d)) with hzero | hpos
          · omega
          · have hrest := ih h
            rw [step_of_vacant_pos hpos, toGo] at hrest
            omega

private theorem exists_filling_tray (x : α) (k : Nat) (tray : Tray α) (h : vacant tray = k) :
    ∃ numbers : List Nat, numbers.length = max 1 k ∧ (∀ i ∈ numbers, i < max 1 tray.length) ∧
      Run.final step (some tray) (numbers.map (filler x)) = none := by
  induction k generalizing tray with
  | zero =>
      refine ⟨[0], rfl, fun i hi => ?_, step_of_vacant_zero (vacant_set_of_full h 0 x) rfl⟩
      rw [List.mem_singleton.mp hi]
      omega
  | succ k ih =>
      have hpos : 0 < vacant tray := h.symm ▸ Nat.succ_pos k
      obtain ⟨cell, hcell, hnone⟩ := List.countP_pos_iff.mp hpos
      rw [Option.isNone_iff_eq_none.mp hnone] at hcell
      obtain ⟨i, hi⟩ := List.mem_iff_getElem?.mp hcell
      have hlt : i < max 1 tray.length := by
        have := (List.getElem?_eq_some_iff.mp hi).1
        omega
      have hput : vacant (put (some tray) (filler x i)) = k :=
        Nat.succ.inj ((vacant_set hi x).trans h)
      rcases Nat.eq_zero_or_pos k with rfl | hk
      · refine ⟨[i], rfl, fun j hj => ?_, step_of_vacant_zero hput rfl⟩
        rwa [List.mem_singleton.mp hj]
      · obtain ⟨numbers, hlen, hbound, hfinal⟩ := ih _ hput
        refine ⟨i :: numbers, ?_, fun j hj => ?_, ?_⟩
        · rw [List.length_cons, hlen]
          omega
        · rcases List.mem_cons.mp hj with rfl | hj
          · exact hlt
          · simpa [put, filler] using hbound j hj
        · rw [List.map_cons, Run.final_cons, step_of_vacant_pos (by rwa [hput]), hfinal]

/-- And so many, for the right cells, are enough. -/
theorem exists_filling (x : α) (s : Option (Tray α)) :
    ∃ numbers : List Nat, numbers.length = toGo s ∧
      (∀ i ∈ numbers, i < max 1 (s.map List.length |>.getD 0)) ∧
      Run.final step s (numbers.map (filler x)) = none := by
  cases s with
  | none => exact ⟨[], rfl, fun i hi => absurd hi List.not_mem_nil, rfl⟩
  | some tray => exact exists_filling_tray x _ tray rfl

/-! ## One whole from the start -/

/-- Pieces of one whole go into the tray as long as one is missing. -/
theorem final_of_missing {xs : List α} {ds : List (Delivery α)} (h : ∀ d ∈ ds, IsFrom xs d)
    {i : Nat} (hi : i < xs.length) (hmissing : ∀ d ∈ ds, d.index ≠ i) :
    Run.final step none ds = trayOf ds := by
  induction ds using List.reverseRecOn with
  | nil => rfl
  | append_singleton ds d ih =>
      rw [Run.final_append, ih (fun e he => h e (List.mem_append_left _ he))
        (fun e he => hmissing e (List.mem_append_left _ he)), trayOf_concat, Run.final_cons,
        Run.final_nil, step_state]
      have hnone : (step (trayOf ds) d).2 = none := by
        refine Option.eq_none_iff_forall_ne_some.mpr fun ys hys => ?_
        obtain ⟨-, -, hall⟩ := (makes_iff h).mp ((step_trayOf ds d ys).mp hys)
        obtain ⟨e, he, heq⟩ := hall i hi
        exact hmissing e he heq
      rw [hnone, empties, Option.isSome_none, Bool.and_false, if_neg Bool.false_ne_true]

theorem step_final_of_last {xs : List α} {ds : List (Delivery α)} {d : Delivery α}
    (h : ∀ e ∈ ds ++ [d], IsFrom xs e) (hlast : ∀ e ∈ ds, e.index ≠ d.index)
    (hall : ∀ i, i < xs.length → ∃ e ∈ ds ++ [d], e.index = i) :
    (step (Run.final step none ds) d).2 = some xs := by
  have hpiece := (h d (List.mem_append_right _ (List.mem_singleton_self d))).piece
  have hd : d.index < xs.length := (List.getElem?_eq_some_iff.mp hpiece).1
  rw [final_of_missing (fun e he => h e (List.mem_append_left _ he)) hd hlast, step_trayOf,
    makes_iff h]
  exact ⟨rfl, List.append_ne_nil_of_right_ne_nil ds (List.cons_ne_nil d []), hall⟩

end Collector
