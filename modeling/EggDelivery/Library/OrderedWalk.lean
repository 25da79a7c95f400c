import Mathlib.Data.List.Sort

/-!
# Walks through a collection that loses what is visited

A loop goes through an ordered collection from one key to the next larger one, and its
body may take the key it stands on out of the collection. The loop visits the keys the
collection had at the start, in order and each once, and ends.
-/

namespace OrderedWalk

variable {κ σ : Type*} [LT κ] [DecidableLT κ]

def next (ks : List κ) (k : κ) : Option κ := ks.find? fun x => k < x

section Loop

variable (keys : σ → List κ) (visit : σ → κ → σ)

/-- The loop from a position on, where `none` is the end: the keys visited, and the state
afterwards. The first argument bounds the turns. -/
def walk : Nat → Option κ → σ → List κ × σ
  | 0, _, s => ([], s)
  | _ + 1, none, s => ([], s)
  | n + 1, some k, s =>
      let r := walk n (next (keys (visit s k)) k) (visit s k)
      (k :: r.1, r.2)

/-- The keys are always in order, and a visit takes out at most the key visited. -/
structure Shrinks : Prop where
  ordered : ∀ s, (keys s).Pairwise (· < ·)
  others : ∀ s k x, x ≠ k → (x ∈ keys (visit s k) ↔ x ∈ keys s)

end Loop

section Order

variable [Std.Asymm fun a b : κ => a < b]

theorem filter_head {ks : List κ} {k : κ} (h : (k :: ks).Pairwise (· < ·)) :
    (k :: ks).filter (fun x => k < x) = ks := by
  rw [List.filter_cons_of_neg (by simpa using Std.Irrefl.irrefl k)]
  exact List.filter_eq_self.mpr fun x hx => by simpa using (List.pairwise_cons.mp h).1 x hx

variable {keys : σ → List κ} {visit : σ → κ → σ}

theorem Shrinks.ahead (h : Shrinks keys visit) (s : σ) (k : κ) :
    (keys (visit s k)).filter (fun x => k < x) = (keys s).filter (fun x => k < x) := by
  refine ((h.ordered _).filter _).eq_of_mem_iff ((h.ordered s).filter _) fun x => ?_
  rw [List.mem_filter, List.mem_filter]
  refine and_congr_left fun hx => h.others s k x ?_
  rintro rfl
  exact Std.Irrefl.irrefl x (by simpa using hx)

variable [IsTrans κ fun a b => a < b]

theorem filter_next {ks post : List κ} {k k' : κ} (hks : ks.Pairwise (· < ·))
    (h : ks.filter (fun x => k < x) = k' :: post) : ks.filter (fun x => k' < x) = post := by
  have hk' : k < k' := by
    have hmem : k' ∈ ks.filter (fun x => k < x) := by
      rw [h]
      exact List.mem_cons_self
    simpa using (List.mem_filter.mp hmem).2
  have hbehind : ks.filter (fun x => k' < x) =
      (ks.filter (fun x => k < x)).filter (fun x => k' < x) := by
    rw [List.filter_filter]
    refine List.filter_congr fun x _ => ?_
    by_cases hx : k' < x
    · simp [hx, trans_of (fun a b : κ => a < b) hk' hx]
    · simp [hx]
  rw [hbehind, h]
  exact filter_head (h ▸ hks.filter _)

theorem Shrinks.walk_from (h : Shrinks keys visit) {post : List κ} {k : κ} {s : σ} {fuel : Nat}
    (hpost : (keys s).filter (fun x => k < x) = post) (hfuel : post.length < fuel) :
    walk keys visit fuel (some k) s = (k :: post, (k :: post).foldl visit s) := by
  induction post generalizing k s fuel with
  | nil =>
      obtain ⟨n, rfl⟩ : ∃ n, fuel = n + 1 := ⟨fuel - 1, by omega⟩
      have hend : next (keys (visit s k)) k = none := by
        rw [next, ← List.head?_filter, h.ahead, hpost]
        rfl
      rw [walk, hend]
      cases n <;> rfl
  | cons k' post ih =>
      obtain ⟨n, rfl⟩ : ∃ n, fuel = n + 1 := ⟨fuel - 1, by omega⟩
      rw [List.length_cons] at hfuel
      have hahead := (h.ahead s k).trans hpost
      have hnext : next (keys (visit s k)) k = some k' := by
        rw [next, ← List.head?_filter, hahead]
        rfl
      have hrest := ih (filter_next (h.ordered _) hahead) (Nat.lt_of_succ_lt_succ hfuel)
      rw [walk, hnext, hrest]
      rfl

/-- The loop ends, and has visited every key it started with, each once and in order. -/
theorem Shrinks.walk_eq (h : Shrinks keys visit) {s : σ} {fuel : Nat}
    (hfuel : (keys s).length ≤ fuel) :
    walk keys visit fuel (keys s).head? s = (keys s, (keys s).foldl visit s) := by
  cases hkeys : keys s with
  | nil => cases fuel <;> rfl
  | cons k ks =>
      rw [hkeys, List.length_cons] at hfuel
      have hordered := h.ordered s
      rw [hkeys] at hordered
      have hpost : (keys s).filter (fun x => k < x) = ks := by
        rw [hkeys]
        exact filter_head hordered
      exact h.walk_from hpost hfuel

end Order

end OrderedWalk
