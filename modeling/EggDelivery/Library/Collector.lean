import Mathlib.Data.List.Induction
import Mathlib.Data.List.ReduceOption

/-!
# Collecting numbered pieces

Pieces arrive with their number and the number of pieces there are. The first one opens
a tray with a cell for each, every one fills its cell, and a full tray is handed over.
Whoever it is handed to takes it away, or leaves it to be filled again and handed over
with the next piece. Pieces may come in any order, more than once, and from senders who
disagree about everything.
-/

namespace Collector

variable {α : Type*}

/-- A cell for every piece. -/
abbrev Tray (α : Type*) := List (Option α)

/-- A piece, and whether a tray that it fills would be taken away. -/
structure Delivery (α : Type*) where
  index : Nat
  total : Nat
  piece : α
  taken : Bool

/-- The tray after a delivery. Between trays there is none. -/
def put (s : Option (Tray α)) (d : Delivery α) : Tray α :=
  (s.getD (List.replicate d.total none)).set d.index (some d.piece)

def full (tray : Tray α) : Bool := tray.all Option.isSome

/-- One delivery, and the pieces that it hands over. -/
def step (s : Option (Tray α)) (d : Delivery α) : Option (Tray α) × Option (List α) :=
  if full (put s d) then
    (if d.taken then none else some (put s d), some (put s d).reduceOption)
  else (some (put s d), none)

theorem step_of_full {s : Option (Tray α)} {d : Delivery α} (h : full (put s d) = true) :
    step s d = (if d.taken then none else some (put s d), some (put s d).reduceOption) := by
  rw [step, if_pos h]

theorem step_of_not_full {s : Option (Tray α)} {d : Delivery α} (h : full (put s d) = false) :
    step s d = (some (put s d), none) := by
  rw [step, if_neg (by simp [h])]

def empties (e : Delivery α × Option (List α)) : Bool := e.1.taken && e.2.isSome

theorem step_state (s : Option (Tray α)) (d : Delivery α) :
    (step s d).1 = if empties (d, (step s d).2) then none else some (put s d) := by
  cases hfull : full (put s d) with
  | true =>
      rw [step_of_full hfull]
      cases htaken : d.taken <;> simp [empties, htaken]
  | false =>
      rw [step_of_not_full hfull]
      simp [empties]

/-! ## The tray in terms of the deliveries -/

def trayOf (ds : List (Delivery α)) : Option (Tray α) :=
  ds.foldl (fun s d => some (put s d)) none

def latest (i : Nat) (ds : List (Delivery α)) : Option α :=
  ds.reverse.findSome? fun d => if d.index = i then some d.piece else none

theorem trayOf_concat (ds : List (Delivery α)) (d : Delivery α) :
    trayOf (ds ++ [d]) = some (put (trayOf ds) d) := by
  rw [trayOf, List.foldl_append]
  rfl

theorem latest_concat (i : Nat) (ds : List (Delivery α)) (d : Delivery α) :
    latest i (ds ++ [d]) = if d.index = i then some d.piece else latest i ds := by
  rw [latest, List.reverse_append, List.findSome?_append, List.reverse_singleton,
    List.findSome?_singleton]
  split <;> rfl

theorem map_range_set {β : Type*} (n j : Nat) (x : β) (f : Nat → β) :
    ((List.range n).map f).set j x = (List.range n).map fun i => if j = i then x else f i := by
  refine List.ext_getElem? fun i => ?_
  simp only [List.getElem?_set, List.length_map, List.length_range, List.getElem?_map]
  by_cases hi : i < n
  · by_cases heq : j = i <;> simp [heq, hi]
  · by_cases heq : j = i <;> simp [heq, hi]

/-- The first delivery gives the tray its size, and each cell holds the last piece with
its number. -/
theorem trayOf_cons (d : Delivery α) (ds : List (Delivery α)) :
    trayOf (d :: ds) = some ((List.range d.total).map fun i => latest i (d :: ds)) := by
  induction ds using List.reverseRecOn with
  | nil =>
      have hempty : List.replicate d.total (none : Option α) =
          (List.range d.total).map fun _ => none := by simp
      rw [trayOf, List.foldl_cons, List.foldl_nil, put, Option.getD_none, hempty, map_range_set]
      simp [latest]
  | append_singleton ds e ih =>
      rw [← List.cons_append, trayOf_concat, ih, put, Option.getD_some, map_range_set]
      simp only [latest_concat]

theorem exists_of_latest {i : Nat} {ds : List (Delivery α)} {x : α} (h : latest i ds = some x) :
    ∃ d ∈ ds, d.index = i ∧ d.piece = x := by
  obtain ⟨d, hd, hx⟩ := List.exists_of_findSome?_eq_some h
  split at hx
  next heq => exact ⟨d, List.mem_reverse.mp hd, heq, Option.some.inj hx⟩
  next => cases hx

theorem isSome_latest_iff {i : Nat} {ds : List (Delivery α)} :
    (latest i ds).isSome = true ↔ ∃ d ∈ ds, d.index = i := by
  simp [latest, List.findSome?_isSome_iff]

/-! ## Full trays -/

theorem step_snd (s : Option (Tray α)) (d : Delivery α) :
    (step s d).2 = if full (put s d) then some (put s d).reduceOption else none := by
  rw [step]
  split <;> rfl

theorem full_and_eq_iff {tray : Tray α} {xs : List α} :
    full tray = true ∧ tray.reduceOption = xs ↔ tray = xs.map some := by
  constructor
  · rintro ⟨hfull, rfl⟩
    induction tray with
    | nil => rfl
    | cons c tray ih =>
        rw [full, List.all_cons, Bool.and_eq_true] at hfull
        obtain ⟨x, rfl⟩ := Option.isSome_iff_exists.mp hfull.1
        rw [List.reduceOption_cons_of_some, List.map_cons, ← ih hfull.2]
  · rintro rfl
    refine ⟨by simp [full], ?_⟩
    induction xs with
    | nil => rfl
    | cons x xs ih => rw [List.map_cons, List.reduceOption_cons_of_some, ih]

/-- These deliveries make a full tray with these pieces: the first one says how many
there are, and each piece is the last one delivered with its number. -/
structure Makes (ds : List (Delivery α)) (xs : List α) : Prop where
  total : ds.head?.map Delivery.total = some xs.length
  pieces : ∀ i, i < xs.length → latest i ds = xs[i]?

/-- What a delivery hands over, by the deliveries in the tray. -/
theorem step_trayOf (ds : List (Delivery α)) (d : Delivery α) (xs : List α) :
    (step (trayOf ds) d).2 = some xs ↔ Makes (ds ++ [d]) xs := by
  have htray := trayOf_concat ds d
  obtain ⟨e, es, hes⟩ := List.exists_cons_of_ne_nil (List.append_ne_nil_of_right_ne_nil ds
    (List.cons_ne_nil d []))
  rw [hes] at htray ⊢
  rw [trayOf_cons, Option.some.injEq] at htray
  rw [step_snd, ← htray, Option.ite_none_right_eq_some, Option.some.injEq, full_and_eq_iff]
  constructor
  · intro h
    have hlen := congrArg List.length h
    rw [List.length_map, List.length_map, List.length_range] at hlen
    refine ⟨by rw [List.head?_cons, Option.map_some, hlen], fun i hi => ?_⟩
    have hcell := congrArg (fun tray => tray[i]?) h
    simpa [hlen, hi] using hcell
  · rintro ⟨htotal, hpieces⟩
    rw [List.head?_cons, Option.map_some, Option.some.injEq] at htotal
    refine List.ext_getElem (by simp [htotal]) fun i hi hi' => ?_
    rw [List.length_map] at hi'
    rw [List.getElem_map, List.getElem_range, hpieces i hi', List.getElem_map,
      List.getElem?_eq_getElem hi']

/-! ## Pieces of one whole -/

structure IsFrom (xs : List α) (d : Delivery α) : Prop where
  total : d.total = xs.length
  piece : xs[d.index]? = some d.piece

/-- Deliveries of one whole make it and nothing else, when every number is among them. -/
theorem makes_iff {xs ys : List α} {ds : List (Delivery α)} (h : ∀ d ∈ ds, IsFrom xs d) :
    Makes ds ys ↔ ys = xs ∧ ds ≠ [] ∧ ∀ i, i < xs.length → ∃ d ∈ ds, d.index = i := by
  have hlatest : ∀ i x, latest i ds = some x → xs[i]? = some x := by
    intro i x hx
    obtain ⟨d, hd, rfl, rfl⟩ := exists_of_latest hx
    exact (h d hd).piece
  have htotal : ∀ n, ds.head?.map Delivery.total = some n → n = xs.length := by
    intro n hn
    obtain ⟨d, hd, rfl⟩ := Option.map_eq_some_iff.mp hn
    exact (h d (List.mem_of_head? hd)).total
  constructor
  · rintro ⟨hlen, hpieces⟩
    have hlength := htotal _ hlen
    refine ⟨List.ext_getElem hlength fun i hi hi' => ?_, ?_, fun i hi => ?_⟩
    · have hcell := hlatest i _ ((hpieces i hi).trans (List.getElem?_eq_getElem hi))
      rw [List.getElem?_eq_getElem hi', Option.some.injEq] at hcell
      exact hcell.symm
    · rintro rfl
      cases hlen
    · have hi' : i < ys.length := by omega
      rw [← isSome_latest_iff, hpieces i hi', List.getElem?_eq_getElem hi']
      rfl
  · rintro ⟨rfl, hne, hall⟩
    obtain ⟨d, rest, rfl⟩ := List.exists_cons_of_ne_nil hne
    refine ⟨?_, fun i hi => ?_⟩
    · rw [List.head?_cons, Option.map_some, (h d List.mem_cons_self).total]
    · obtain ⟨x, hx⟩ := Option.isSome_iff_exists.mp (isSome_latest_iff.mpr (hall i hi))
      rw [hx, hlatest i x hx]

end Collector
