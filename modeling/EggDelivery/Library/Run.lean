import Mathlib.Data.List.Induction

/-!
# Runs of a deterministic machine

A machine takes a state and an input to a state and an output. `exec` runs it
over a list of inputs and keeps every output in order. The rules below are the
only inductions over runs: composition, invariants, and invariants that also
speak about the log of inputs and outputs so far.
-/

namespace Run

variable {σ ι ο : Type*} (step : σ → ι → σ × ο)

def exec (s : σ) : List ι → σ × List ο
  | [] => (s, [])
  | i :: is => ((exec (step s i).1 is).1, (step s i).2 :: (exec (step s i).1 is).2)

def final (s : σ) (is : List ι) : σ := (exec step s is).1

def outputs (s : σ) (is : List ι) : List ο := (exec step s is).2

@[simp] theorem final_nil (s : σ) : final step s [] = s := rfl

@[simp] theorem outputs_nil (s : σ) : outputs step s [] = [] := rfl

@[simp] theorem final_cons (s : σ) (i : ι) (is : List ι) :
    final step s (i :: is) = final step (step s i).1 is := rfl

@[simp] theorem outputs_cons (s : σ) (i : ι) (is : List ι) :
    outputs step s (i :: is) = (step s i).2 :: outputs step (step s i).1 is := rfl

@[simp] theorem outputs_length (s : σ) (is : List ι) :
    (outputs step s is).length = is.length := by
  induction is generalizing s with
  | nil => rfl
  | cons i is ih => simp [ih]

theorem final_append (s : σ) (is js : List ι) :
    final step s (is ++ js) = final step (final step s is) js := by
  induction is generalizing s with
  | nil => rfl
  | cons i is ih => exact ih _

theorem outputs_append (s : σ) (is js : List ι) :
    outputs step s (is ++ js) = outputs step s is ++ outputs step (final step s is) js := by
  induction is generalizing s with
  | nil => rfl
  | cons i is ih => simp [ih]

def log (s : σ) (is : List ι) : List (ι × ο) := is.zip (outputs step s is)

@[simp] theorem log_nil (s : σ) : log step s [] = [] := rfl

theorem log_append_singleton (s : σ) (is : List ι) (i : ι) :
    log step s (is ++ [i]) = log step s is ++ [(i, (step (final step s is) i).2)] := by
  simp [log, outputs_append, List.zip_append]

/-- Every output was produced by some input, in the state that its predecessors left. -/
theorem exists_split_of_mem_outputs {s : σ} {is : List ι} {o : ο} (h : o ∈ outputs step s is) :
    ∃ past i rest, is = past ++ i :: rest ∧ o = (step (final step s past) i).2 := by
  induction is generalizing s with
  | nil => simp at h
  | cons i is ih =>
      rw [outputs_cons, List.mem_cons] at h
      rcases h with rfl | h
      · exact ⟨[], i, is, rfl, rfl⟩
      · obtain ⟨past, j, rest, rfl, ho⟩ := ih h
        exact ⟨i :: past, j, rest, rfl, ho⟩

/-- What only one input of the run makes the machine put out comes out once. -/
theorem count_filterMap_outputs {β : Type*} [BEq β] [LawfulBEq β] {f : ο → Option β} {s : σ}
    {past rest : List ι} {i : ι} {b : β} (hi : f (step (final step s past) i).2 = some b)
    (honly : ∀ past' j rest', past ++ i :: rest = past' ++ j :: rest' →
      f (step (final step s past') j).2 = some b → past' = past) :
    ((outputs step s (past ++ i :: rest)).filterMap f).count b = 1 := by
  have hbefore : b ∉ (outputs step s past).filterMap f := by
    intro hmem
    obtain ⟨o, ho, hb⟩ := List.mem_filterMap.mp hmem
    obtain ⟨p, j, q, rfl, rfl⟩ := exists_split_of_mem_outputs step ho
    have hp := honly p j (q ++ i :: rest) (by simp) hb
    simpa using congrArg List.length hp
  have hafter : b ∉ (outputs step (step (final step s past) i).1 rest).filterMap f := by
    intro hmem
    obtain ⟨o, ho, hb⟩ := List.mem_filterMap.mp hmem
    obtain ⟨p, j, q, rfl, rfl⟩ := exists_split_of_mem_outputs step ho
    have hp := honly (past ++ i :: p) j q (by simp) (by rwa [final_append, final_cons])
    simpa using congrArg List.length hp
  rw [outputs_append, outputs_cons, List.filterMap_append, List.filterMap_cons, hi,
    List.count_append, List.count_cons_self, List.count_eq_zero.mpr hbefore,
    List.count_eq_zero.mpr hafter]

/-- A machine whose states are seen through `f`, and whose outputs are what `g` makes of
the outputs seen: its runs are seen as runs. -/
theorem exec_seen {σ' ο' : Type*} (step' : σ' → ι → σ' × ο') (f : σ → σ') (g : ο' → ο)
    (hstate : ∀ s i, (step' (f s) i).1 = f (step s i).1)
    (hout : ∀ s i, (step s i).2 = g (step' (f s) i).2) (s : σ) (is : List ι) :
    final step' (f s) is = f (final step s is) ∧
      outputs step s is = (outputs step' (f s) is).map g := by
  induction is generalizing s with
  | nil => exact ⟨rfl, rfl⟩
  | cons i is ih =>
      obtain ⟨hfinal, houts⟩ := ih (step s i).1
      rw [final_cons, final_cons, outputs_cons, outputs_cons, List.map_cons, hstate, hout]
      exact ⟨hfinal, congrArg _ houts⟩

/-- An input that leaves the state alone makes no difference to what comes after it. -/
theorem exec_skip {s : σ} {past : List ι} {i : ι}
    (h : (step (final step s past) i).1 = final step s past) (later : List ι) :
    final step s (past ++ i :: later) = final step s (past ++ later) ∧
      (outputs step s (past ++ i :: later)).eraseIdx past.length =
        outputs step s (past ++ later) := by
  have hlength := outputs_length step s past
  constructor
  · rw [final_append, final_cons, h, final_append]
  · rw [outputs_append, outputs_append, outputs_cons, h,
      List.eraseIdx_append_of_length_le (Nat.le_of_eq hlength),
      hlength, Nat.sub_self, List.eraseIdx_cons_zero]

def feeds {σ' κ : Type*} (step' : σ' → κ → σ' × ο) (feed : σ' → κ → ι) (s : σ') : List κ → List ι
  | [] => []
  | k :: ks => feed s k :: feeds step' feed (step' s k).1 ks

/-- A machine each of whose steps is, seen through `view`, a step of another one with an
input that depends on the state: its runs are runs of the other one. -/
theorem exec_feeds {σ' κ : Type*} {step' : σ' → κ → σ' × ο} {view : σ' → σ} {feed : σ' → κ → ι}
    (hstep : ∀ s k, step (view s) (feed s k) = (view (step' s k).1, (step' s k).2))
    (s : σ') (ks : List κ) :
    final step (view s) (feeds step' feed s ks) = view (final step' s ks) ∧
      outputs step (view s) (feeds step' feed s ks) = outputs step' s ks := by
  induction ks generalizing s with
  | nil => exact ⟨rfl, rfl⟩
  | cons k ks ih =>
      obtain ⟨hfinal, houts⟩ := ih (step' s k).1
      rw [feeds, final_cons, final_cons, outputs_cons, outputs_cons, hstep]
      exact ⟨hfinal, congrArg _ houts⟩

/-- Inputs that change nothing and show nothing may be left out. -/
theorem exec_filter {β : Type*} {f : ο → Option β} {p : ι → Bool} {is : List ι}
    (hskip : ∀ i ∈ is, p i = false → ∀ s, (step s i).1 = s ∧ f (step s i).2 = none) (s : σ) :
    final step s (is.filter p) = final step s is ∧
      (outputs step s (is.filter p)).filterMap f = (outputs step s is).filterMap f := by
  induction is generalizing s with
  | nil => exact ⟨rfl, rfl⟩
  | cons i is ih =>
      obtain ⟨hi, his⟩ := List.forall_mem_cons.mp hskip
      cases hp : p i with
      | true =>
          obtain ⟨hfinal, houts⟩ := ih his (step s i).1
          rw [List.filter_cons_of_pos hp, final_cons, final_cons, outputs_cons, outputs_cons,
            List.filterMap_cons, List.filterMap_cons, houts]
          exact ⟨hfinal, rfl⟩
      | false =>
          obtain ⟨hstate, hout⟩ := hi hp s
          obtain ⟨hfinal, houts⟩ := ih his s
          have hneg : ¬p i = true := by rw [hp]; exact Bool.false_ne_true
          rw [List.filter_cons_of_neg hneg, final_cons, outputs_cons, List.filterMap_cons, hstate,
            hout]
          exact ⟨hfinal, houts⟩

theorem invariant {P : σ → Prop} (keep : ∀ s i, P s → P (step s i).1) {s : σ} (hs : P s)
    (is : List ι) : P (final step s is) := by
  induction is generalizing s with
  | nil => exact hs
  | cons i is ih => exact ih (keep s i hs)

theorem history_invariant {A : List ι → ι → Prop} {P : List ι → σ → Prop} {s : σ}
    (start : P [] s)
    (keep : ∀ past t i, A past i → P past t → P (past ++ [i]) (step t i).1)
    (is : List ι) (admissible : ∀ past i, past ++ [i] <+: is → A past i) :
    P is (final step s is) := by
  induction is using List.reverseRecOn with
  | nil => exact start
  | append_singleton is i ih =>
      rw [final_append]
      exact keep _ _ _ (admissible is i (List.prefix_refl _))
        (ih fun past j hj => admissible past j (hj.trans (List.prefix_append _ _)))

theorem log_invariant {A : ι → Prop} {P : List (ι × ο) → σ → Prop} {s : σ}
    (start : P [] s)
    (keep : ∀ past t i, A i → P past t → P (past ++ [(i, (step t i).2)]) (step t i).1)
    (is : List ι) (admissible : ∀ i ∈ is, A i) : P (log step s is) (final step s is) := by
  induction is using List.reverseRecOn with
  | nil => exact start
  | append_singleton is i ih =>
      rw [log_append_singleton, final_append]
      exact keep _ _ _ (admissible i (by simp))
        (ih fun j hj => admissible j (List.mem_append_left _ hj))

end Run
