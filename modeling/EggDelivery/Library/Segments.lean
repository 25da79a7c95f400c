import Mathlib.Data.List.Basic

/-!
# Two ways to cut one sequence

A sequence is the concatenation of some packets, and somebody else cuts it into
pieces. A packet is held when a piece begins where it begins and contains it. Only
the cut at the packets themselves holds them all, and pieces that are beginnings of the
packets make up the sequence only when they are the packets.
-/

namespace Segments

variable {α : Type*}

/-- A piece begins where `x` begins, behind `before`, and contains it. -/
def Holds (pieces before : List (List α)) (x : List α) : Prop :=
  ∃ a s b, pieces = a ++ s :: b ∧ a.flatten = before.flatten ∧ x <+: s

theorem Holds.append {pieces before : List (List α)} {x : List α} (h : Holds pieces before x)
    (more : List (List α)) : Holds (pieces ++ more) before x := by
  obtain ⟨a, s, b, rfl, hflat, hx⟩ := h
  exact ⟨a, s, b ++ more, by rw [List.append_assoc, List.cons_append], hflat, hx⟩

theorem eq_nil_of_flatten_eq_nil {xss : List (List α)} (hne : ∀ x ∈ xss, x ≠ [])
    (h : xss.flatten = []) : xss = [] := by
  cases xss with
  | nil => rfl
  | cons x xs =>
      rw [List.flatten_cons, List.append_eq_nil_iff] at h
      exact (hne x List.mem_cons_self h.1).elim

theorem exists_cut {xss : List (List α)} {d s : List α} (hne : ∀ x ∈ xss, x ≠ []) (hs : s ≠ [])
    (h : d ++ s = xss.flatten) :
    ∃ before u v after, xss = before ++ (u ++ v) :: after ∧ v ≠ [] ∧ d = before.flatten ++ u ∧
      s = v ++ after.flatten := by
  rcases List.append_eq_flatten_iff.mp h with
    ⟨before, rest, rfl, hd, hrest⟩ | ⟨before, u, c, cs, after, rfl, hd, hrest⟩
  · cases rest with
    | nil => exact (hs hrest).elim
    | cons v after =>
        exact ⟨before, [], v, after, rfl, hne v (by simp), by rw [hd, List.append_nil], hrest⟩
  · exact ⟨before, u, c :: cs, after, rfl, List.cons_ne_nil c cs, hd, hrest⟩

theorem eq_of_holds {pieces xss : List (List α)} (hpieces : ∀ s ∈ pieces, s ≠ [])
    (hxss : ∀ x ∈ xss, x ≠ []) (hflat : pieces.flatten = xss.flatten)
    (hall : ∀ before x after, xss = before ++ x :: after → Holds pieces before x) :
    pieces = xss := by
  induction xss generalizing pieces with
  | nil => exact eq_nil_of_flatten_eq_nil hpieces hflat
  | cons x xs ih =>
      have hx : x ≠ [] := hxss x List.mem_cons_self
      obtain ⟨a, s, b, hsplit, ha, u, rfl⟩ := hall [] x xs rfl
      obtain rfl : a = [] := eq_nil_of_flatten_eq_nil
        (fun y hy => hpieces y (hsplit ▸ List.mem_append_left _ hy)) ha
      rw [List.nil_append] at hsplit
      subst hsplit
      rw [List.flatten_cons, List.flatten_cons, List.append_assoc] at hflat
      have hu : u = [] := by
        cases xs with
        | nil =>
            have hrest := List.append_cancel_left hflat
            exact (List.append_eq_nil_iff.mp hrest).1
        | cons y ys =>
            obtain ⟨a', s', b', hsplit', ha', -⟩ := hall [x] y ys rfl
            rw [List.flatten_cons, List.flatten_nil, List.append_nil] at ha'
            cases a' with
            | nil => exact (hx ha'.symm).elim
            | cons z a'' =>
                obtain ⟨rfl, -⟩ := List.cons.inj hsplit'
                rw [List.flatten_cons, List.append_assoc] at ha'
                have hcancel : x ++ (u ++ a''.flatten) = x ++ [] := by
                  rw [ha', List.append_nil]
                exact (List.append_eq_nil_iff.mp (List.append_cancel_left hcancel)).1
      subst hu
      rw [List.nil_append] at hflat
      rw [List.append_nil] at hall hpieces ⊢
      refine congrArg (x :: ·) (ih (fun y hy => hpieces y (List.mem_cons_of_mem _ hy))
        (fun y hy => hxss y (List.mem_cons_of_mem _ hy)) (List.append_cancel_left hflat)
        fun before y after hxs => ?_)
      obtain ⟨a', s', b', hsplit', ha', hy⟩ := hall (x :: before) y after (by rw [hxs]; rfl)
      cases a' with
      | nil =>
          rw [List.flatten_nil, List.flatten_cons] at ha'
          exact (hx (List.append_eq_nil_iff.mp ha'.symm).1).elim
      | cons z a'' =>
          obtain ⟨rfl, hb⟩ := List.cons.inj hsplit'
          rw [List.flatten_cons, List.flatten_cons] at ha'
          exact ⟨a'', s', b', hb, List.append_cancel_left ha', hy⟩

/-- Pieces that are beginnings of the packets fall short of them or are the packets. -/
theorem eq_of_prefixes {pieces xss : List (List α)}
    (h : List.Forall₂ (fun s x => s <+: x) pieces xss) (hflat : pieces.flatten = xss.flatten) :
    pieces = xss := by
  have hlength : ∀ {ps ys : List (List α)}, List.Forall₂ (fun s x => s <+: x) ps ys →
      ps.flatten.length ≤ ys.flatten.length := by
    intro ps ys hps
    induction hps with
    | nil => exact Nat.le_refl _
    | cons hx hrest ih =>
        rw [List.flatten_cons, List.flatten_cons, List.length_append, List.length_append]
        exact Nat.add_le_add hx.length_le ih
  induction h with
  | nil => rfl
  | cons hx hrest ih =>
      rw [List.flatten_cons, List.flatten_cons] at hflat
      have hsum := congrArg List.length hflat
      rw [List.length_append, List.length_append] at hsum
      have hfirst := hx.length_le
      have hlater := hlength hrest
      obtain ⟨rfl, hflat'⟩ := List.append_inj hflat (by omega)
      rw [ih hflat']

end Segments
