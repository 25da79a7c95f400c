import EggDelivery.Library.Run

/-!
# A machine that refines a specification

A specification relates a state, an input, the next state and an output, and may leave
a choice. A machine refines it if every step of the machine, with its states seen as
states of the specification, is a step that the specification allows.
-/

namespace Refinement

variable {σ α ι ο : Type*}

/-- The specification allows these outputs for these inputs, on the way from one state to
another. -/
inductive Allows (spec : α → ι → α → ο → Prop) : α → List ι → α → List ο → Prop
  | nil (a : α) : Allows spec a [] a []
  | cons {a b c : α} {i : ι} {o : ο} {is : List ι} {os : List ο} :
      spec a i b o → Allows spec b is c os → Allows spec a (i :: is) c (o :: os)

variable {spec : α → ι → α → ο → Prop}

/-- Runs of a machine that refines the specification are runs of the specification. -/
theorem Allows.of_step {step : σ → ι → σ × ο} {view : σ → α}
    (refines : ∀ s i, spec (view s) i (view (step s i).1) (step s i).2) (s : σ) (is : List ι) :
    Allows spec (view s) is (view (Run.final step s is)) (Run.outputs step s is) := by
  induction is generalizing s with
  | nil => exact Allows.nil _
  | cons i is ih => exact Allows.cons (refines s i) (ih _)

end Refinement
