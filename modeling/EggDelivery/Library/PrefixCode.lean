import Mathlib.Data.List.Basic

/-!
# Codes that are read off a stream

A code is self-delimiting when no code word is a beginning of another one, as it is when
a reader finds each word whatever follows it. Then the words of a stream are determined,
and so are those of every beginning of it.
-/

namespace PrefixCode

variable {α β : Type*}

/-- The code words of the valid values tell where they end. -/
structure SelfDelimiting (valid : α → Prop) (enc : α → List β) : Prop where
  ne_nil : ∀ a, valid a → enc a ≠ []
  eq_of_prefix : ∀ a b, valid a → valid b → enc a <+: enc b → a = b

variable {valid : α → Prop} {enc : α → List β}

theorem selfDelimiting_of_reader (read : List β → Option α)
    (hne : ∀ a, valid a → enc a ≠ [])
    (hread : ∀ a, valid a → ∀ rest, read (enc a ++ rest) = some a) : SelfDelimiting valid enc where
  ne_nil := hne
  eq_of_prefix := by
    rintro a b ha hb ⟨rest, hrest⟩
    have h := hread a ha rest
    have h' := hread b hb []
    rw [List.append_nil, ← hrest, h] at h'
    exact Option.some.inj h'

namespace SelfDelimiting

variable (h : SelfDelimiting valid enc)
include h

theorem eq_of_append {a b : α} (ha : valid a) (hb : valid b) {s t : List β}
    (heq : enc a ++ s = enc b ++ t) : a = b ∧ s = t := by
  have hab : a = b := by
    rcases List.prefix_or_prefix_of_prefix ⟨s, heq⟩ ⟨t, rfl⟩ with hp | hp
    · exact h.eq_of_prefix a b ha hb hp
    · exact (h.eq_of_prefix b a hb ha hp).symm
  subst hab
  exact ⟨rfl, List.append_cancel_left heq⟩

/-- A stream begins with another one exactly if its words do. -/
theorem flatten_prefix_iff {as bs : List α} (has : ∀ a ∈ as, valid a) (hbs : ∀ b ∈ bs, valid b) :
    (as.map enc).flatten <+: (bs.map enc).flatten ↔ as <+: bs := by
  constructor
  · intro hprefix
    induction as generalizing bs with
    | nil => exact List.nil_prefix
    | cons a as ih =>
        obtain ⟨ha, has'⟩ := List.forall_mem_cons.mp has
        cases bs with
        | nil =>
            have hnil := List.prefix_nil.mp hprefix
            rw [List.map_cons, List.flatten_cons, List.append_eq_nil_iff] at hnil
            exact (h.ne_nil a ha hnil.1).elim
        | cons b bs =>
            obtain ⟨hb, hbs'⟩ := List.forall_mem_cons.mp hbs
            obtain ⟨rest, hrest⟩ := hprefix
            rw [List.map_cons, List.flatten_cons, List.map_cons, List.flatten_cons,
              List.append_assoc] at hrest
            obtain ⟨rfl, htail⟩ := h.eq_of_append ha hb hrest
            exact List.cons_prefix_cons.mpr ⟨rfl, ih has' hbs' ⟨rest, htail⟩⟩
  · rintro ⟨rest, rfl⟩
    rw [List.map_append, List.flatten_append]
    exact List.prefix_append _ _

theorem prefix_of_length_le {as as' bs bs' : List α} (hsplit : as ++ as' = bs ++ bs')
    (hvalid : ∀ a ∈ as ++ as', valid a)
    (hlen : (as.map enc).flatten.length ≤ (bs.map enc).flatten.length) : as <+: bs := by
  have has : ∀ a ∈ as, valid a := fun a ha => hvalid a (List.mem_append_left _ ha)
  have hbs : ∀ b ∈ bs, valid b := fun b hb => hvalid b (hsplit ▸ List.mem_append_left _ hb)
  have hwhole : ((as ++ as').map enc).flatten = ((bs ++ bs').map enc).flatten := by rw [hsplit]
  rw [List.map_append, List.flatten_append, List.map_append, List.flatten_append] at hwhole
  have hfirst : (as.map enc).flatten <+: (bs.map enc).flatten ++ (bs'.map enc).flatten :=
    hwhole ▸ List.prefix_append _ _
  exact (h.flatten_prefix_iff has hbs).mp
    (List.prefix_of_prefix_length_le hfirst (List.prefix_append _ _) hlen)

end SelfDelimiting

end PrefixCode
