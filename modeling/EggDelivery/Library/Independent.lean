import EggDelivery.Library.Run

/-!
# Machines made of independent parts

A machine whose inputs carry a key, and whose state shows one part for each key. When
an input reads and changes the part of its own key only, a run is a run of every part
on its own, and the inputs of other keys can be left out.
-/

namespace Run

variable {σ ι ο κ τ : Type*} [DecidableEq κ]

def inputsOf (key : ι → κ) (k : κ) (is : List ι) : List ι := is.filter fun i => key i = k

def outputsFor (key : ι → κ) (k : κ) (past : List (ι × ο)) : List ο :=
  (past.filter fun e => key e.1 = k).map Prod.snd

/-- `view k` is the part of key `k`, and `part` the step that every part makes. -/
structure IndependentParts (step : σ → ι → σ × ο) (key : ι → κ) (view : κ → σ → τ)
    (part : τ → ι → τ × ο) : Prop where
  own_view : ∀ s i, view (key i) (step s i).1 = (part (view (key i) s) i).1
  own_output : ∀ s i, (step s i).2 = (part (view (key i) s) i).2
  other_view : ∀ s i k, key i ≠ k → view k (step s i).1 = view k s

theorem inputsOf_cons_self {key : ι → κ} {k : κ} {i : ι} (h : key i = k) (is : List ι) :
    inputsOf key k (i :: is) = i :: inputsOf key k is :=
  List.filter_cons_of_pos (decide_eq_true h)

theorem inputsOf_cons_other {key : ι → κ} {k : κ} {i : ι} (h : key i ≠ k) (is : List ι) :
    inputsOf key k (i :: is) = inputsOf key k is :=
  List.filter_cons_of_neg (by simpa using h)

@[simp] theorem inputsOf_inputsOf (key : ι → κ) (k : κ) (is : List ι) :
    inputsOf key k (inputsOf key k is) = inputsOf key k is := by
  simp [inputsOf]

section Parts

variable {step : σ → ι → σ × ο} {key : ι → κ} {view : κ → σ → τ} {part : τ → ι → τ × ο}

theorem outputsFor_log_of_forall {k : κ} (s : σ) {is : List ι} (h : ∀ i ∈ is, key i = k) :
    outputsFor key k (log step s is) = outputs step s is := by
  have hkeep : ∀ e ∈ log step s is, decide (key e.1 = k) = true := fun e he =>
    decide_eq_true (h e.1 (List.of_mem_zip he).1)
  rw [outputsFor, List.filter_eq_self.mpr hkeep, log, List.map_snd_zip (by simp)]

/-- Each part runs on its own inputs. -/
theorem IndependentParts.view_final (h : IndependentParts step key view part) (k : κ) (s : σ)
    (is : List ι) : view k (final step s is) = final part (view k s) (inputsOf key k is) := by
  induction is generalizing s with
  | nil => rfl
  | cons i is ih =>
      rw [final_cons, ih]
      by_cases hkey : key i = k
      · subst hkey
        rw [inputsOf_cons_self rfl, final_cons, h.own_view]
      · rw [inputsOf_cons_other hkey, h.other_view s i k hkey]

theorem IndependentParts.outputsFor_log (h : IndependentParts step key view part) (k : κ) (s : σ)
    (is : List ι) :
    outputsFor key k (log step s is) = outputs part (view k s) (inputsOf key k is) := by
  induction is generalizing s with
  | nil => rfl
  | cons i is ih =>
      have hlog : log step s (i :: is) = (i, (step s i).2) :: log step (step s i).1 is := rfl
      by_cases hkey : key i = k
      · subst hkey
        rw [hlog, outputsFor, List.filter_cons_of_pos (by simp), List.map_cons, ← outputsFor, ih,
          inputsOf_cons_self rfl, outputs_cons, h.own_view, h.own_output]
      · rw [hlog, outputsFor, List.filter_cons_of_neg (by simpa using hkey), ← outputsFor, ih,
          inputsOf_cons_other hkey, h.other_view s i k hkey]

theorem IndependentParts.outputs_inputsOf (h : IndependentParts step key view part) (k : κ) (s : σ)
    (is : List ι) :
    outputs step s (inputsOf key k is) = outputsFor key k (log step s is) := by
  have hself : ∀ j ∈ inputsOf key k is, key j = k := fun j hj => by
    simpa using (List.mem_filter.mp hj).2
  rw [← outputsFor_log_of_forall s hself, h.outputsFor_log, h.outputsFor_log, inputsOf_inputsOf]

/-- The inputs of other keys do not change the part of this one. -/
theorem IndependentParts.view_inputsOf (h : IndependentParts step key view part) (k : κ) (s : σ)
    (is : List ι) :
    view k (final step s (inputsOf key k is)) = view k (final step s is) := by
  rw [h.view_final, h.view_final, inputsOf_inputsOf]

end Parts

end Run
