import EggDelivery.Library.Run

/-!
# Rounds

Items come in one after the other, and a round ends as soon as the items of the round
have a property that no more items can spoil. Ending every round as soon as possible gives
the most rounds there can be: there are `k` of them exactly if the items can be cut into
`k` stretches with the property.
-/

namespace Rounds

variable {ι : Type*}

/-- More items on either side do not spoil the property. -/
def Lasting (P : List ι → Prop) : Prop := ∀ pre s post, P s → P (pre ++ s ++ post)

section

variable (P : List ι → Prop)

open scoped Classical in
/-- One more item in the round, and whether it ends the round. -/
noncomputable def step (seen : List ι) (item : ι) : List ι × Bool :=
  if P (seen ++ [item]) then ([], true) else (seen ++ [item], false)

noncomputable def rounds (seen items : List ι) : Nat :=
  (Run.outputs (step P) seen items).count true

end

variable {P : List ι → Prop}

theorem step_of_pos {seen : List ι} {item : ι} (h : P (seen ++ [item])) :
    step P seen item = ([], true) := if_pos h

theorem step_of_neg {seen : List ι} {item : ι} (h : ¬P (seen ++ [item])) :
    step P seen item = (seen ++ [item], false) := if_neg h

theorem rounds_cons_of_pos {seen : List ι} {item : ι} (h : P (seen ++ [item]))
    (items : List ι) : rounds P seen (item :: items) = rounds P [] items + 1 := by
  rw [rounds, Run.outputs_cons, step_of_pos h, List.count_cons_self, rounds]

theorem rounds_cons_of_neg {seen : List ι} {item : ι} (h : ¬P (seen ++ [item]))
    (items : List ι) : rounds P seen (item :: items) = rounds P (seen ++ [item]) items := by
  rw [rounds, Run.outputs_cons, step_of_neg h, List.count_cons_of_ne Bool.false_ne_true, rounds]

theorem not_final (hnil : ¬P []) (items : List ι) : ¬P (Run.final (step P) [] items) := by
  refine Run.invariant (step P) (P := fun seen => ¬P seen) (fun seen item _ => ?_) hnil items
  by_cases h : P (seen ++ [item])
  · rwa [step_of_pos h]
  · rwa [step_of_neg h]

variable (hP : Lasting P)
include hP

theorem Lasting.of_suffix {s s' : List ι} (h : P s) (hsuf : s <:+ s') : P s' := by
  obtain ⟨pre, rfl⟩ := hsuf
  simpa using hP pre s [] h

theorem Lasting.append {s : List ι} (h : P s) (post : List ι) : P (s ++ post) := hP [] s post h

theorem rounds_mono {seen seen' : List ι} (hsuf : seen <:+ seen') (items : List ι) :
    rounds P seen items ≤ rounds P seen' items ∧
      rounds P seen' items ≤ rounds P seen items + 1 := by
  induction items generalizing seen seen' with
  | nil => simp [rounds, Run.outputs_nil]
  | cons item items ih =>
      have hsuf' : seen ++ [item] <:+ seen' ++ [item] := List.suffix_append_inj_of_length_eq rfl
        |>.mpr ⟨hsuf, rfl⟩
      by_cases hmore : P (seen' ++ [item])
      · rw [rounds_cons_of_pos hmore]
        by_cases hless : P (seen ++ [item])
        · rw [rounds_cons_of_pos hless]
          omega
        · -- the round that has seen less goes on, and is at most one behind
          rw [rounds_cons_of_neg hless]
          have hfresh := ih (List.nil_suffix (l := seen ++ [item]))
          omega
      · have hless : ¬P (seen ++ [item]) := fun h => hmore (hP.of_suffix h hsuf')
        rw [rounds_cons_of_neg hmore, rounds_cons_of_neg hless]
        exact ih hsuf'

theorem rounds_le_append (seen stretch items : List ι) :
    rounds P [] items ≤ rounds P seen (stretch ++ items) := by
  induction stretch generalizing seen with
  | nil => exact (rounds_mono hP List.nil_suffix items).1
  | cons item stretch ih =>
      rw [List.cons_append]
      by_cases h : P (seen ++ [item])
      · rw [rounds_cons_of_pos h]
        exact Nat.le_succ_of_le (ih [])
      · rw [rounds_cons_of_neg h]
        exact ih (seen ++ [item])

theorem rounds_append_of_pos {seen stretch : List ι} (hseen : ¬P seen)
    (h : P (seen ++ stretch)) (items : List ι) :
    rounds P [] items + 1 ≤ rounds P seen (stretch ++ items) := by
  induction stretch generalizing seen with
  | nil => exact (hseen (by simpa using h)).elim
  | cons item stretch ih =>
      rw [List.cons_append]
      by_cases hends : P (seen ++ [item])
      · rw [rounds_cons_of_pos hends]
        exact Nat.succ_le_succ (rounds_le_append hP [] stretch items)
      · rw [rounds_cons_of_neg hends]
        exact ih hends (by rwa [List.append_assoc])

omit hP in
/-- A round that ends leaves the stretch that completed it, and the rounds after it. -/
theorem exists_stretch {seen items : List ι} {k : Nat} (h : k + 1 ≤ rounds P seen items) :
    ∃ stretch rest, items = stretch ++ rest ∧ P (seen ++ stretch) ∧
      k ≤ rounds P [] rest := by
  induction items generalizing seen with
  | nil => simp [rounds, Run.outputs_nil] at h
  | cons item items ih =>
      by_cases hends : P (seen ++ [item])
      · rw [rounds_cons_of_pos hends] at h
        exact ⟨[item], items, rfl, hends, Nat.le_of_succ_le_succ h⟩
      · rw [rounds_cons_of_neg hends] at h
        obtain ⟨stretch, rest, rfl, hpos, hk⟩ := ih h
        exact ⟨item :: stretch, rest, rfl, by rwa [List.append_assoc] at hpos, hk⟩

/-- `k` rounds end exactly if the items begin with `k` stretches that have the property. -/
theorem le_rounds_iff (hnil : ¬P []) (k : Nat) (items : List ι) :
    k ≤ rounds P [] items ↔
      ∃ (stretches : List (List ι)) (rest : List ι), items = stretches.flatten ++ rest ∧
        stretches.length = k ∧ ∀ stretch ∈ stretches, P stretch := by
  induction k generalizing items with
  | zero =>
      refine iff_of_true (Nat.zero_le _) ⟨[], items, rfl, rfl, fun _ h => ?_⟩
      exact absurd h List.not_mem_nil
  | succ k ih =>
      constructor
      · intro h
        obtain ⟨stretch, rest, rfl, hpos, hk⟩ := exists_stretch h
        obtain ⟨stretches, rest', rfl, hlen, hall⟩ := (ih rest).mp hk
        refine ⟨stretch :: stretches, rest', by simp, by simp [hlen], fun s hs => ?_⟩
        rcases List.mem_cons.mp hs with rfl | hs
        · exact hpos
        · exact hall s hs
      · rintro ⟨stretches, rest, rfl, hlen, hall⟩
        cases stretches with
        | nil => cases hlen
        | cons stretch stretches =>
            have hk := (ih (stretches.flatten ++ rest)).mpr ⟨stretches, rest, rfl,
              Nat.succ.inj hlen, fun s hs => hall s (List.mem_cons_of_mem _ hs)⟩
            rw [List.flatten_cons, List.append_assoc]
            exact Nat.le_trans (Nat.succ_le_succ hk)
              (rounds_append_of_pos hP hnil (hall stretch List.mem_cons_self) _)

end Rounds
