import Mathlib.Data.List.Induction

/-!
# Tables of the last write

A write gives a key a value or takes its entry away. After any writes a table
answers each key with the last write of it, and with what it held before where
there was none.
-/

namespace Register

/-- A write of a key. Without a value the entry is removed. -/
structure Write (κ α : Type*) where
  key : κ
  value : Option α

variable {κ α : Type*} {cmp : κ → κ → Ordering} [Std.TransCmp cmp]

def write (table : Std.ExtTreeMap κ α cmp) (w : Write κ α) : Std.ExtTreeMap κ α cmp :=
  match w.value with
  | some x => table.insert w.key x
  | none => table.erase w.key

variable [DecidableEq κ]

def last (key : κ) (ws : List (Write κ α)) : Option (Option α) :=
  ws.reverse.findSome? fun w => if w.key = key then some w.value else none

theorem last_concat (key : κ) (ws : List (Write κ α)) (w : Write κ α) :
    last key (ws ++ [w]) = if w.key = key then some w.value else last key ws := by
  rw [last, List.reverse_append, List.findSome?_append, List.reverse_singleton,
    List.findSome?_singleton]
  split <;> rfl

theorem getElem?_write [Std.LawfulEqCmp cmp] (table : Std.ExtTreeMap κ α cmp) (w : Write κ α)
    (key : κ) : (write table w)[key]? = if w.key = key then w.value else table[key]? := by
  have heq : cmp w.key key = .eq ↔ w.key = key := Std.LawfulEqCmp.compare_eq_iff_eq
  rw [write]
  cases hvalue : w.value with
  | some x =>
      dsimp only
      rw [Std.ExtTreeMap.getElem?_insert]
      simp only [heq]
  | none =>
      dsimp only
      rw [Std.ExtTreeMap.getElem?_erase]
      simp only [heq]

theorem getElem?_foldl_write [Std.LawfulEqCmp cmp] (table : Std.ExtTreeMap κ α cmp)
    (ws : List (Write κ α)) (key : κ) :
    (ws.foldl write table)[key]? = (last key ws).getD table[key]? := by
  induction ws using List.reverseRecOn with
  | nil => rfl
  | append_singleton ws w ih =>
      rw [List.foldl_append, List.foldl_cons, List.foldl_nil, getElem?_write, ih, last_concat]
      split <;> rfl

end Register
