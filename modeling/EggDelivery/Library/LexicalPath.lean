import Mathlib.Data.List.Basic

/-!
# Lexical resolution of paths

A path is a list of components. Resolving it keeps a stack of the names passed
through, and `up` takes one off. A path stays below the place where it begins when
its components never take off more names than they put on.
-/

namespace LexicalPath

inductive Component (ν : Type*) where
  | here
  | up
  | name (n : ν)
deriving DecidableEq

/-- A place in normal form: the names innermost first, and for a relative place the
number of `up` in front of them. -/
structure Place (ν : Type*) where
  absolute : Bool
  ups : Nat
  names : List ν
deriving DecidableEq

variable {ν : Type*}

/-- One component; at the root, `up` stays. -/
def walk (p : Place ν) : Component ν → Place ν
  | .here => p
  | .name n => { p with names := n :: p.names }
  | .up =>
      match p.names with
      | _ :: outer => { p with names := outer }
      | [] => if p.absolute then p else { p with ups := p.ups + 1 }

def follow (p : Place ν) (cs : List (Component ν)) : Place ν := cs.foldl walk p

@[simp] theorem follow_cons (p : Place ν) (c : Component ν) (cs : List (Component ν)) :
    follow p (c :: cs) = follow (walk p c) cs := rfl

theorem follow_append (p : Place ν) (cs cs' : List (Component ν)) :
    follow p (cs ++ cs') = follow (follow p cs) cs' :=
  List.foldl_append

/-! ## Staying inside -/

structure Inside (base p : Place ν) : Prop where
  absolute : p.absolute = base.absolute
  ups : p.ups = base.ups
  names : base.names <:+ p.names

theorem Inside.refl (base : Place ν) : Inside base base := ⟨rfl, rfl, List.suffix_refl _⟩

/-- The components never rise above a start that has `d` names over the base. -/
def Descends : Nat → List (Component ν) → Prop
  | _, [] => True
  | d, .here :: cs => Descends d cs
  | d, .name _ :: cs => Descends (d + 1) cs
  | 0, .up :: _ => False
  | d + 1, .up :: cs => Descends d cs

instance decidableDescends : (d : Nat) → (cs : List (Component ν)) → Decidable (Descends d cs)
  | _, [] => .isTrue trivial
  | d, .here :: cs => decidableDescends d cs
  | d, .name _ :: cs => decidableDescends (d + 1) cs
  | 0, .up :: _ => .isFalse id
  | d + 1, .up :: cs => decidableDescends d cs

theorem Descends.of_append {d : Nat} {cs cs' : List (Component ν)}
    (h : Descends d (cs ++ cs')) : Descends d cs := by
  induction cs generalizing d with
  | nil => exact trivial
  | cons c cs ih =>
      cases c with
      | here => exact ih h
      | name n => exact ih (d := d + 1) h
      | up =>
          cases d with
          | zero => exact h
          | succ d => exact ih (d := d) h

theorem inside_follow {base p : Place ν} {d : Nat} {cs : List (Component ν)}
    (h : Inside base p) (hd : p.names.length = base.names.length + d) (hc : Descends d cs) :
    Inside base (follow p cs) := by
  induction cs generalizing p d with
  | nil => exact h
  | cons c cs ih =>
      cases c with
      | here => exact ih h hd hc
      | name n =>
          refine ih (d := d + 1) ⟨h.absolute, h.ups, ?_⟩ ?_ hc
          · exact h.names.trans (List.suffix_cons n p.names)
          · simp only [walk, List.length_cons, hd]
            omega
      | up =>
          cases d with
          | zero => exact hc.elim
          | succ d =>
              obtain ⟨absolute, ups, names⟩ := p
              cases names with
              | nil => simp at hd
              | cons n outer =>
                  simp only [List.length_cons] at hd
                  refine ih (d := d) ⟨h.absolute, h.ups, ?_⟩ ?_ hc
                  · -- the base is too short to begin at the name that goes
                    refine (List.suffix_cons_iff.mp h.names).resolve_left fun heq => ?_
                    have := congrArg List.length heq
                    simp only [List.length_cons] at this
                    omega
                  · simp only [walk]
                    omega

/-! ## Leaving for good -/

/-- The place has lost the name `n` that lay over `outer`, and no name `n` has come
since. -/
def Left (n : ν) (outer : List ν) (p : Place ν) : Prop :=
  ∃ pushed kept, p.names = pushed ++ kept ∧ kept <:+ outer ∧ n ∉ pushed

theorem Left.walk {n : ν} {outer : List ν} {p : Place ν} (h : Left n outer p) {c : Component ν}
    (hc : c ≠ .name n) : Left n outer (walk p c) := by
  obtain ⟨pushed, kept, hnames, hkept, hn⟩ := h
  cases c with
  | here => exact ⟨pushed, kept, hnames, hkept, hn⟩
  | name m =>
      refine ⟨m :: pushed, kept, by simp [LexicalPath.walk, hnames], hkept, ?_⟩
      simp only [List.mem_cons, not_or]
      exact ⟨fun heq => hc (heq ▸ rfl), hn⟩
  | up =>
      cases pushed with
      | cons m pushed =>
          refine ⟨pushed, kept, by simp [LexicalPath.walk, hnames], hkept, ?_⟩
          exact fun hmem => hn (List.mem_cons_of_mem m hmem)
      | nil =>
          cases kept with
          | nil =>
              refine ⟨[], [], ?_, hkept, hn⟩
              simp only [List.append_nil] at hnames
              simp only [LexicalPath.walk, hnames]
              split <;> simp [hnames]
          | cons m kept =>
              refine ⟨[], kept, by simp [LexicalPath.walk, hnames], ?_, hn⟩
              exact (List.suffix_cons m kept).trans hkept

theorem Left.follow {n : ν} {outer : List ν} {p : Place ν} (h : Left n outer p)
    {cs : List (Component ν)} (hcs : .name n ∉ cs) : Left n outer (follow p cs) := by
  induction cs generalizing p with
  | nil => exact h
  | cons c cs ih =>
      simp only [List.mem_cons, not_or] at hcs
      exact ih (h.walk (Ne.symm hcs.1)) hcs.2

theorem Left.not_inside {n : ν} {outer : List ν} {base p : Place ν}
    (hbase : base.names = n :: outer) (h : Left n outer p) : ¬Inside base p := by
  rintro ⟨-, -, hsuffix⟩
  obtain ⟨pushed, kept, hnames, hkept, hn⟩ := h
  rw [hbase, hnames] at hsuffix
  obtain ⟨front, heq⟩ := hsuffix
  -- `kept` is too short to contain the lost name where it was
  rcases List.append_eq_append_iff.mp heq with ⟨mid, hpushed, hmid⟩ | ⟨mid, -, hmid⟩
  · cases mid with
    | nil =>
        have hlen := congrArg List.length hmid
        have hle := hkept.length_le
        simp only [List.nil_append, List.length_cons] at hlen
        omega
    | cons m mid =>
        obtain ⟨rfl, -⟩ := List.cons.inj hmid
        exact hn (hpushed ▸ by simp)
  · have hlen := congrArg List.length hmid
    have hle := hkept.length_le
    simp only [List.length_append, List.length_cons] at hlen
    omega

/-- Components that rise above the base and never name its last name again end
outside. -/
theorem not_inside_follow {base p : Place ν} {n : ν} {outer pushed : List ν}
    {cs : List (Component ν)} (hbase : base.names = n :: outer)
    (hp : p.names = pushed ++ n :: outer) (hpushed : n ∉ pushed)
    (hc : ¬Descends pushed.length cs) (hcs : .name n ∉ cs) : ¬Inside base (follow p cs) := by
  induction cs generalizing p pushed with
  | nil => exact (hc trivial).elim
  | cons c cs ih =>
      simp only [List.mem_cons, not_or] at hcs
      cases c with
      | here => exact ih hp hpushed hc hcs.2
      | name m =>
          have hwalk : (walk p (.name m)).names = (m :: pushed) ++ n :: outer := by simp [walk, hp]
          refine ih hwalk ?_ hc hcs.2
          simp only [List.mem_cons, not_or]
          exact ⟨fun heq => hcs.1 (heq ▸ rfl), hpushed⟩
      | up =>
          cases pushed with
          | nil =>
              rw [follow_cons]
              refine Left.not_inside hbase (Left.follow ?_ hcs.2)
              exact ⟨[], outer, by simp [walk, hp], List.suffix_refl _, List.not_mem_nil⟩
          | cons m pushed =>
              have hwalk : (walk p .up).names = pushed ++ n :: outer := by simp [walk, hp]
              refine ih hwalk ?_ hc hcs.2
              exact fun hmem => hpushed (List.mem_cons_of_mem m hmem)

end LexicalPath
