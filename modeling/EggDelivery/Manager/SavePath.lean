import Mathlib.Data.List.DropRight
import EggDelivery.Library.LexicalPath
import EggDelivery.Manager.Session

/-!
# The paths of a session

`createTransferSession` joins the download directory and the name it is given
without looking at the components, and `assembleFile` hands the result and its
parent directory to the file system. Both lie in the directory when the name itself
never climbs, whichever bytes separate components there.
-/

namespace EggDelivery

open LexicalPath

/-! ## Paths of the file system -/

/-- How a file system writes paths. A root name such as a drive letter is read as an
ordinary name. -/
inductive PathFormat where
  | posix
  | windows
deriving Repr, DecidableEq

def PathFormat.separates : PathFormat → UInt8 → Bool
  | .posix, b => b == 0x2F
  | .windows, b => b == 0x2F || b == 0x5C

@[simp] theorem PathFormat.separates_slash (fmt : PathFormat) : fmt.separates 0x2F = true := by
  cases fmt <;> rfl

theorem PathFormat.not_separates_nul (fmt : PathFormat) : ¬fmt.separates 0 = true := by
  cases fmt <;> decide

variable (fmt : PathFormat)

def componentOf (piece : Bytes) : Component Bytes :=
  if piece = [] ∨ piece = ascii "." then .here
  else if piece = ascii ".." then .up
  else .name piece

def components (path : Bytes) : List (Component Bytes) :=
  (path.splitOnP fmt.separates).map componentOf

/-- Where the components of a path begin: at the root, or at the working directory. -/
def origin (path : Bytes) : Place Bytes := ⟨path.head?.any fmt.separates, 0, []⟩

/-- The lexical normal form of a path. -/
def place (path : Bytes) : Place Bytes := follow (origin fmt path) (components fmt path)

/-- `fs::path::parent_path`. -/
def parentPath (path : Bytes) : Bytes :=
  if path.all fmt.separates then path
  else
    let dir := path.rdropWhile fun b => !fmt.separates b
    let stripped := dir.rdropWhile fmt.separates
    if stripped = [] then dir.take 1 else stripped

example : (["d//f", "/f", "//", "d\\f"].map fun path => parentPath .posix (ascii path)) =
    ["d", "/", "//", ""].map ascii := by decide

/-- The path as the system call reads it. -/
def FileCall.path : FileCall → Bytes
  | .createParent savePath => cStr (parentPath fmt savePath)
  | .openOutput savePath => cStr savePath

/-- `q` is the path or a directory on the way to it. -/
def OnTheWay (path q : Bytes) : Prop :=
  q = path ∨ ∃ sep rest, fmt.separates sep = true ∧ path = q ++ sep :: rest

variable {fmt}

theorem components_append_cons {sep : UInt8} (hsep : fmt.separates sep = true) (a b : Bytes) :
    components fmt (a ++ sep :: b) = components fmt a ++ components fmt b := by
  rw [components, List.splitOnP_append_cons a b hsep, List.map_append]
  rfl

theorem place_append_cons {a : Bytes} (ha : a ≠ []) {sep : UInt8} (hsep : fmt.separates sep = true)
    (b : Bytes) : place fmt (a ++ sep :: b) = follow (place fmt a) (components fmt b) := by
  rw [place, origin, components_append_cons hsep, follow_append, List.head?_append_of_ne_nil _ ha]
  rfl

theorem place_append_separators {a seps : Bytes} (ha : a ≠ [])
    (hseps : ∀ b ∈ seps, fmt.separates b = true) : place fmt (a ++ seps) = place fmt a := by
  induction seps using List.reverseRecOn with
  | nil => rw [List.append_nil]
  | append_singleton seps sep ih =>
      have hsep : fmt.separates sep = true := hseps sep (by simp)
      rw [← List.append_assoc, place_append_cons (by simp [ha]) hsep,
        ih fun b hb => hseps b (List.mem_append_left _ hb)]
      rfl

theorem place_separators {seps : Bytes} (hne : seps ≠ [])
    (hseps : ∀ b ∈ seps, fmt.separates b = true) : place fmt seps = ⟨true, 0, []⟩ := by
  obtain ⟨sep, rest, rfl⟩ := List.exists_cons_of_ne_nil hne
  obtain ⟨hsep, hrest⟩ := List.forall_mem_cons.mp hseps
  rw [← List.singleton_append, place_append_separators (List.cons_ne_nil sep []) hrest, place, origin,
    components, List.splitOnP_cons_eq_if_modifyHead, if_pos hsep]
  simp only [List.head?_cons, Option.any_some, hsep, List.splitOnP_nil, List.map_cons, List.map_nil,
    componentOf, true_or, if_true]
  rfl

theorem exists_last_separator {s : Bytes} (h : ∃ b ∈ s, fmt.separates b = true) :
    ∃ a sep last, s = a ++ sep :: last ∧ fmt.separates sep = true ∧
      ∀ b ∈ last, ¬fmt.separates b = true := by
  obtain ⟨b, hb, hsep⟩ := h
  obtain ⟨sep, hfind⟩ := Option.isSome_iff_exists.mp
    (List.find?_isSome.mpr ⟨b, List.mem_reverse.mpr hb, hsep⟩)
  obtain ⟨hsep, last, a, hs, hlast⟩ := List.find?_eq_some_iff_append.mp hfind
  refine ⟨a.reverse, sep, last.reverse, ?_, hsep, fun b hb => ?_⟩
  · rw [← List.reverse_reverse s, hs]
    simp
  · simpa using hlast b (List.mem_reverse.mp hb)

/-! ## Parent directories -/

variable (fmt) in
/-- Separators at the end of a path are left out; only a path of separators may keep
them all. -/
def Strips (path parent : Bytes) : Prop :=
  parent ≠ [] ∧ ∃ seps, path = parent ++ seps ∧ (∀ b ∈ seps, fmt.separates b = true) ∧
    (seps = [] → ∀ b ∈ parent, fmt.separates b = true)

theorem parentPath_strips {a last : Bytes} {sep : UInt8} (hsep : fmt.separates sep = true)
    (hlast : ∀ b ∈ last, ¬fmt.separates b = true) :
    Strips fmt (a ++ [sep]) (parentPath fmt (a ++ sep :: last)) := by
  have hdir : (a ++ sep :: last).rdropWhile (fun b => !fmt.separates b) = a ++ [sep] := by
    have hdrop : ∀ b ∈ last.reverse, (!fmt.separates b) = true := fun b hb => by
      simpa using hlast b (List.mem_reverse.mp hb)
    rw [List.rdropWhile, List.reverse_append, List.reverse_cons, List.append_assoc,
      List.dropWhile_append_of_pos hdrop]
    simp [hsep]
  rw [parentPath]
  split
  next hall =>
    rw [List.all_eq_true] at hall
    obtain rfl : last = [] := List.eq_nil_iff_forall_not_mem.mpr fun b hb =>
      hlast b hb (hall b (by simp [hb]))
    exact ⟨by simp, [], by simp, by simp, fun _ => hall⟩
  next =>
    simp only [hdir]
    split
    next hnil =>
      have hall := List.rdropWhile_eq_nil_iff.mp hnil
      refine ⟨by simp, (a ++ [sep]).drop 1, (List.take_append_drop 1 _).symm,
        fun b hb => hall b (List.mem_of_mem_drop hb), fun _ b hb => hall b (List.mem_of_mem_take hb)⟩
    next hne =>
      refine ⟨hne, (a ++ [sep]).rtakeWhile fmt.separates,
        List.rdropWhile_append_rtakeWhile.symm, fun b hb => List.mem_rtakeWhile_imp hb, ?_⟩
      rw [List.rtakeWhile_concat_pos _ _ _ hsep]
      simp

theorem Strips.isPrefix {path parent : Bytes} (h : Strips fmt path parent) : parent <+: path := by
  obtain ⟨-, seps, rfl, -⟩ := h
  exact List.prefix_append _ _

theorem Strips.place_eq {path parent : Bytes} (h : Strips fmt path parent) :
    place fmt path = place fmt parent := by
  obtain ⟨hne, seps, rfl, hseps, -⟩ := h
  exact place_append_separators hne hseps

/-- The parent directory lies on the way, or it is the root. -/
theorem Strips.onTheWay {path parent : Bytes} (h : Strips fmt path parent) (last : Bytes) :
    OnTheWay fmt (path ++ last) parent ∨ ∀ b ∈ parent, fmt.separates b = true := by
  obtain ⟨-, seps, rfl, hseps, hroot⟩ := h
  cases seps with
  | nil => exact Or.inr (hroot rfl)
  | cons sep seps =>
      exact Or.inl (Or.inr ⟨sep, seps ++ last, hseps sep List.mem_cons_self, by simp⟩)

theorem OnTheWay.trans {s p q : Bytes} (h₁ : OnTheWay fmt s p) (h₂ : OnTheWay fmt p q) :
    OnTheWay fmt s q := by
  rcases h₂ with rfl | ⟨sep, rest, hsep, rfl⟩
  · exact h₁
  · rcases h₁ with rfl | ⟨sep', rest', -, rfl⟩
    · exact Or.inr ⟨sep, rest, hsep, rfl⟩
    · exact Or.inr ⟨sep, rest ++ sep' :: rest', hsep, by rw [List.append_assoc, List.cons_append]⟩

theorem OnTheWay.isPrefix {p q : Bytes} (h : OnTheWay fmt p q) : q <+: p := by
  rcases h with rfl | ⟨sep, rest, -, rfl⟩
  · exact List.prefix_refl _
  · exact List.prefix_append _ _

/-! ## What a system call sees -/

theorem cStr_of_not_mem {s : Bytes} (h : 0 ∉ s) : cStr s = s := by
  refine List.takeWhile_eq_self_iff.mpr fun x hx => ?_
  rw [decide_eq_true_iff]
  rintro rfl
  exact h hx

theorem cStr_append_nul {s : Bytes} (h : 0 ∉ s) (rest : Bytes) : cStr (s ++ 0 :: rest) = s := by
  have hs := cStr_of_not_mem h
  rw [cStr] at hs ⊢
  rw [List.takeWhile_append_of_pos (List.takeWhile_eq_self_iff.mp hs)]
  simp

theorem nul_not_mem_cStr (s : Bytes) : 0 ∉ cStr s := by
  intro h
  simpa using List.mem_takeWhile_imp h

theorem exists_nul {s : Bytes} (h : 0 ∈ s) : ∃ rest, s = cStr s ++ 0 :: rest := by
  obtain ⟨front, rest, rfl, hfront⟩ := List.eq_append_cons_of_mem h
  exact ⟨rest, by rw [cStr_append_nul hfront]⟩

/-- A separator behind the NUL: the parent directory is cut at the same place. -/
theorem cStr_parentPath_of_mem {s rest : Bytes} (hs : 0 ∉ s)
    (hrest : ∃ b ∈ rest, fmt.separates b = true) :
    cStr (parentPath fmt (s ++ 0 :: rest)) = s := by
  obtain ⟨a, sep, last, rfl, hsep, hlast⟩ := exists_last_separator hrest
  have hsplit : s ++ 0 :: (a ++ sep :: last) = (s ++ 0 :: a) ++ sep :: last := by simp
  rw [hsplit]
  obtain ⟨-, seps, heq, hseps, -⟩ := parentPath_strips (a := s ++ 0 :: a) hsep hlast
  have hnul : 0 ∉ seps := fun h => fmt.not_separates_nul (hseps 0 h)
  rw [List.append_assoc, List.cons_append] at heq
  rcases List.append_eq_append_iff.mp heq with ⟨mid, hmid, hrep⟩ | ⟨mid, hmid, hrep⟩
  · cases mid with
    | nil =>
        rw [List.nil_append] at hrep
        exact absurd (hrep ▸ List.mem_cons_self) hnul
    | cons b mid =>
        obtain ⟨rfl, -⟩ := List.cons.inj hrep
        rw [hmid, cStr_append_nul hs]
  · exact absurd (hrep ▸ by simp) hnul

theorem cStr_join {dir : Bytes} (hdir : 0 ∉ dir) (name : Bytes) :
    cStr (dir ++ 0x2F :: name) = dir ++ 0x2F :: cStr name := by
  have h := cStr_of_not_mem hdir
  rw [cStr] at h
  rw [cStr, List.takeWhile_append_of_pos (List.takeWhile_eq_self_iff.mp h)]
  simp [cStr]

/-! ## One session -/

def fileCalls (savePath : Bytes) : List FileCall := [.createParent savePath, .openOutput savePath]

variable (fmt) in
/-- The path lies in the directory, and so does every directory on the way to it that
comes behind that directory. -/
structure Contained (base p : Bytes) : Prop where
  inside : Inside (place fmt base) (place fmt p)
  onTheWay : ∀ q, OnTheWay fmt p q → base <+: q → Inside (place fmt base) (place fmt q)

variable (fmt) in
/-- The components of the name never rise above where it starts. -/
def NeverClimbs (name : Bytes) : Prop := Descends 0 (components fmt (cStr name))

instance (name : Bytes) : Decidable (NeverClimbs fmt name) := decidableDescends _ _

/-- One long name on the one system, two steps up on the other. -/
example : NeverClimbs .posix (ascii "..\\..\\evil") ∧ ¬NeverClimbs .windows (ascii "..\\..\\evil") := by
  decide

theorem Contained.refl (base : Bytes) : Contained fmt base base where
  inside := Inside.refl _
  onTheWay q hq hbase := by
    obtain rfl := hq.isPrefix.eq_of_length_le hbase.length_le
    exact Inside.refl _

theorem inside_of_descends {dir name : Bytes} (hdir : dir ≠ [])
    (h : Descends 0 (components fmt name)) {sep : UInt8} (hsep : fmt.separates sep = true) :
    Inside (place fmt dir) (place fmt (dir ++ sep :: name)) := by
  rw [place_append_cons hdir hsep]
  exact inside_follow (Inside.refl _) rfl h

theorem inside_of_onTheWay {dir name q : Bytes} (hdir : dir ≠ [])
    (h : Descends 0 (components fmt name)) (hq : OnTheWay fmt (dir ++ 0x2F :: name) q)
    (hbeyond : dir <+: q) : Inside (place fmt dir) (place fmt q) := by
  rcases hq with rfl | ⟨sep, rest, hsep, hrest⟩
  · exact inside_of_descends hdir h fmt.separates_slash
  · obtain ⟨x, rfl⟩ := hbeyond
    rw [List.append_assoc] at hrest
    have hx := List.append_cancel_left hrest
    cases x with
    | nil =>
        rw [List.append_nil]
        exact Inside.refl _
    | cons c x =>
        obtain ⟨rfl, hname⟩ := List.cons.inj hx
        rw [show name = x ++ sep :: rest from hname, components_append_cons hsep] at h
        exact inside_of_descends hdir h.of_append fmt.separates_slash

theorem exists_last_inside {dir name : Bytes} (hdir : dir ≠ [])
    (h : Descends 0 (components fmt name)) :
    ∃ a sep last, dir ++ 0x2F :: name = a ++ sep :: last ∧ fmt.separates sep = true ∧
      (∀ b ∈ last, ¬fmt.separates b = true) ∧
      Inside (place fmt dir) (place fmt (a ++ [sep])) := by
  by_cases hname : ∃ b ∈ name, fmt.separates b = true
  · obtain ⟨d, sep, last, rfl, hsep, hlast⟩ := exists_last_separator hname
    refine ⟨dir ++ 0x2F :: d, sep, last, by simp, hsep, hlast, ?_⟩
    rw [place_append_separators (by simp) (by simpa using hsep)]
    rw [components_append_cons hsep] at h
    exact inside_of_descends hdir h.of_append fmt.separates_slash
  · refine ⟨dir, 0x2F, name, rfl, fmt.separates_slash, fun b hb hsep => hname ⟨b, hb, hsep⟩, ?_⟩
    rw [place_append_separators hdir (by simp)]
    exact Inside.refl _

/-- `junk` is what a NUL hides behind the name. -/
theorem contained_parentPath {dir name junk : Bytes} (hdir : dir ≠ [])
    (h : Descends 0 (components fmt name)) (hjunk : ∀ b ∈ junk, ¬fmt.separates b = true) :
    Contained fmt dir (parentPath fmt (dir ++ 0x2F :: name ++ junk)) ∧
      parentPath fmt (dir ++ 0x2F :: name ++ junk) <+: dir ++ 0x2F :: name := by
  obtain ⟨a, sep, last, hsplit, hsep, hlast, hinside⟩ := exists_last_inside hdir h
  have hfree : ∀ b ∈ last ++ junk, ¬fmt.separates b = true := fun b hb =>
    (List.mem_append.mp hb).elim (hlast b) (hjunk b)
  have hstrips := parentPath_strips (a := a) hsep hfree
  have hpath : a ++ sep :: (last ++ junk) = dir ++ 0x2F :: name ++ junk := by simp [hsplit]
  have hfront : dir ++ 0x2F :: name = a ++ [sep] ++ last := by simp [hsplit]
  rw [hpath] at hstrips
  refine ⟨⟨hstrips.place_eq ▸ hinside, fun q hq hbeyond => ?_⟩, ?_⟩
  · rcases hstrips.onTheWay last with hway | hroot
    · rw [← hfront] at hway
      exact inside_of_onTheWay hdir h (hway.trans hq) hbeyond
    · -- the directory is the root as well
      have hq' : ∀ b ∈ q, fmt.separates b = true := fun b hb => hroot b (hq.isPrefix.subset hb)
      have hne : q ≠ [] := fun hnil => hdir (List.prefix_nil.mp (hnil ▸ hbeyond))
      rw [place_separators hne hq',
        place_separators hdir fun b hb => hq' b (hbeyond.subset hb)]
      exact Inside.refl _
  · have hpre := hstrips.isPrefix.trans (List.prefix_append _ last)
    rwa [← hfront] at hpre

theorem exists_hidden (name : Bytes) :
    ∃ junk, name = cStr name ++ junk ∧ (junk = [] ∨ ∃ rest, junk = 0 :: rest) := by
  by_cases h : 0 ∈ name
  · obtain ⟨rest, hrest⟩ := exists_nul h
    exact ⟨0 :: rest, hrest, Or.inr ⟨rest, rfl⟩⟩
  · exact ⟨[], by rw [cStr_of_not_mem h, List.append_nil], Or.inl rfl⟩

theorem contained_createParent {dir name : Bytes} (hdir : dir ≠ []) (hnul : 0 ∉ dir)
    (h : NeverClimbs fmt name) :
    Contained fmt dir (cStr (parentPath fmt (dir ++ 0x2F :: name))) ∨
      cStr (parentPath fmt (dir ++ 0x2F :: name)) = dir ++ 0x2F :: cStr name := by
  have hfree : 0 ∉ dir ++ 0x2F :: cStr name := by
    rw [← cStr_join hnul]
    exact nul_not_mem_cStr _
  obtain ⟨junk, hjunk, hbegin⟩ := exists_hidden name
  have hpath : dir ++ 0x2F :: name = dir ++ 0x2F :: cStr name ++ junk := by
    conv_lhs => rw [hjunk]
    simp
  by_cases hsep : ∃ b ∈ junk, fmt.separates b = true
  · obtain ⟨b, hb, hb'⟩ := hsep
    rcases hbegin with rfl | ⟨rest, rfl⟩
    · cases hb
    · rcases List.mem_cons.mp hb with rfl | hb
      · exact absurd hb' fmt.not_separates_nul
      · rw [hpath]
        exact Or.inr (cStr_parentPath_of_mem hfree ⟨b, hb, hb'⟩)
  · obtain ⟨hcontained, hpre⟩ := contained_parentPath hdir h
      fun b hb hb' => hsep ⟨b, hb, hb'⟩
    rw [hpath, cStr_of_not_mem fun hmem => hfree (hpre.subset hmem)]
    exact Or.inl hcontained

/-- A session for a name that never climbs touches nothing outside its directory. -/
theorem contained_of_neverClimbs {dir name : Bytes} {call : FileCall} (hdir : dir ≠ [])
    (h : NeverClimbs fmt name) (hcall : call ∈ fileCalls (dir ++ ascii "/" ++ name)) :
    Contained fmt (cStr dir) (call.path fmt) := by
  have hjoin : dir ++ ascii "/" ++ name = dir ++ 0x2F :: name := by simp [ascii]
  rw [hjoin] at hcall
  by_cases hnul : 0 ∈ dir
  · -- a directory with a NUL hides everything behind it
    obtain ⟨rest, hrest⟩ := exists_nul hnul
    have hpath : dir ++ 0x2F :: name = cStr dir ++ 0 :: (rest ++ 0x2F :: name) := by
      conv_lhs => rw [hrest]
      simp
    rw [hpath] at hcall
    have hsame : call.path fmt = cStr dir := by
      rcases List.mem_pair.mp hcall with rfl | rfl
      · exact cStr_parentPath_of_mem (nul_not_mem_cStr dir) ⟨0x2F, by simp, fmt.separates_slash⟩
      · exact cStr_append_nul (nul_not_mem_cStr dir) _
    rw [hsame]
    exact Contained.refl _
  · rw [cStr_of_not_mem hnul]
    have hfile : Contained fmt dir (dir ++ 0x2F :: cStr name) :=
      ⟨inside_of_descends hdir h fmt.separates_slash,
        fun q hq hbeyond => inside_of_onTheWay hdir h hq hbeyond⟩
    rcases List.mem_pair.mp hcall with rfl | rfl
    · rcases contained_createParent hdir hnul h with hin | heq
      · exact hin
      · rw [FileCall.path, heq]
        exact hfile
    · rw [FileCall.path, cStr_join hnul]
      exact hfile

/-- A name that climbs out of a directory whose own name it does not use leads out. -/
theorem not_contained_of_climbs {dir name n : Bytes} {outer : List Bytes} (hdir : dir ≠ [])
    (hnul : 0 ∉ dir) (hplace : (place fmt dir).names = n :: outer)
    (hn : .name n ∉ components fmt (cStr name)) (h : ¬NeverClimbs fmt name) :
    ¬Contained fmt (cStr dir) (cStr (dir ++ ascii "/" ++ name)) := by
  have hjoin : dir ++ ascii "/" ++ name = dir ++ 0x2F :: name := by simp [ascii]
  rintro ⟨hinside, -⟩
  rw [hjoin, cStr_of_not_mem hnul, cStr_join hnul, place_append_cons hdir fmt.separates_slash]
    at hinside
  have hstart : (place fmt dir).names = [] ++ n :: outer := hplace
  exact not_inside_follow hplace hstart List.not_mem_nil h hn hinside

end EggDelivery
