import EggDelivery.Library.OrderedWalk
import EggDelivery.Manager.Independence

/-!
# Cleaning up idle sessions

`cleanupIdleSessions` erases from the map it iterates over, and reads the clock anew for
every session. Here the loop is followed iterator by iterator: `erase` and `++` both go
to the next larger hash of the map as it then is.
-/

namespace EggDelivery

namespace FileManager

/-! ## The loop over the iterator -/

/-- The map behind the iterator and the locals of the loop: how often the clock was read,
`removed`, the hashes named in messages, and the sessions visited with the reading that
each was tested with. -/
structure CleanupState where
  manager : FileManager
  readings : Nat := 0
  removed : Nat := 0
  cleaned : List Bytes := []
  tested : List (Bytes × Time) := []

def visitSession (maxIdleSeconds : UInt32) (clock : Nat → Time) (st : CleanupState)
    (hash : Bytes) : CleanupState :=
  match st.manager.find hash with
  | none => st
  | some s =>
      let now := clock st.readings
      if (maxIdleSeconds.toNat : ℚ) < s.secondsIdle now then
        { manager := st.manager.drop hash
          readings := st.readings + 2
          removed := st.removed + 1
          cleaned := st.cleaned ++ [hash]
          tested := st.tested ++ [(hash, now)] }
      else
        { st with
          readings := st.readings + 1
          tested := st.tested ++ [(hash, now)] }

def CleanupState.hashes (st : CleanupState) : List Bytes := st.manager.getActiveSessions

/-- The loop from `begin()` to `end()`. -/
def cleanupWalk (fm : FileManager) (maxIdleSeconds : UInt32) (clock : Nat → Time) :
    CleanupState :=
  (OrderedWalk.walk CleanupState.hashes (visitSession maxIdleSeconds clock) fm.sessionCount
    fm.getActiveSessions.head? { manager := fm }).2

section Visit

variable (maxIdleSeconds : UInt32) (clock : Nat → Time)

theorem visitSession_none {st : CleanupState} {hash : Bytes} (h : st.manager.find hash = none) :
    visitSession maxIdleSeconds clock st hash = st := by
  rw [visitSession, h]

theorem find_visitSession (st : CleanupState) {hash other : Bytes} (hne : other ≠ hash) :
    (visitSession maxIdleSeconds clock st hash).manager.find other = st.manager.find other := by
  cases h : st.manager.find hash with
  | none => rw [visitSession_none _ _ h]
  | some s =>
      rw [visitSession, h]
      dsimp only
      split
      next => rw [find_drop, if_neg hne.symm]
      next => rfl

theorem visitSession_shrinks :
    OrderedWalk.Shrinks CleanupState.hashes (visitSession maxIdleSeconds clock) where
  ordered st := st.manager.getActiveSessions_sorted
  others st hash other hne := by
    rw [CleanupState.hashes, CleanupState.hashes, mem_getActiveSessions, mem_getActiveSessions,
      find_visitSession _ _ _ hne]

theorem cleanupWalk_eq (fm : FileManager) :
    fm.cleanupWalk maxIdleSeconds clock =
      fm.getActiveSessions.foldl (visitSession maxIdleSeconds clock) { manager := fm } := by
  have hlength : (CleanupState.hashes { manager := fm }).length ≤ fm.sessionCount :=
    Nat.le_of_eq Std.ExtTreeMap.length_keys
  exact congrArg Prod.snd ((visitSession_shrinks maxIdleSeconds clock).walk_eq hlength)

/-! ## The loop over the entries of the beginning -/

theorem foldl_visitSession {entries : List (Bytes × FileTransferSession)} (st : CleanupState)
    (hstored : ∀ e ∈ entries, st.manager.find e.1 = some e.2)
    (hnodup : (entries.map Prod.fst).Nodup) :
    ((entries.map Prod.fst).foldl (visitSession maxIdleSeconds clock) st).manager =
        (cleanupLoop maxIdleSeconds clock entries st.readings st.manager).manager ∧
      ((entries.map Prod.fst).foldl (visitSession maxIdleSeconds clock) st).removed =
        st.removed + (cleanupLoop maxIdleSeconds clock entries st.readings st.manager).removed ∧
      ((entries.map Prod.fst).foldl (visitSession maxIdleSeconds clock) st).cleaned =
        st.cleaned ++ (cleanupLoop maxIdleSeconds clock entries st.readings st.manager).cleaned := by
  induction entries generalizing st with
  | nil => simp [cleanupLoop]
  | cons entry rest ih =>
      obtain ⟨hash, s⟩ := entry
      have hs : st.manager.find hash = some s := hstored (hash, s) List.mem_cons_self
      rw [List.map_cons, List.nodup_cons] at hnodup
      have hrest : ∀ e ∈ rest,
          (visitSession maxIdleSeconds clock st hash).manager.find e.1 = some e.2 := by
        intro e he
        have hne : e.1 ≠ hash := by
          rintro rfl
          exact hnodup.1 (List.mem_map.mpr ⟨e, he, rfl⟩)
        rw [find_visitSession _ _ _ hne]
        exact hstored e (List.mem_cons_of_mem _ he)
      obtain ⟨hman, hremoved, hcleaned⟩ := ih _ hrest hnodup.2
      rw [List.map_cons, List.foldl_cons, hman, hremoved, hcleaned, cleanupLoop, visitSession, hs]
      dsimp only
      split
      next => exact ⟨rfl, by dsimp only; omega, by simp⟩
      next => exact ⟨rfl, rfl, rfl⟩

/-- Erasing while iterating gives what `cleanupIdleSessions` computes from the entries of
the beginning. -/
theorem cleanupIdleSessions_eq_walk (fm : FileManager) :
    fm.cleanupIdleSessions maxIdleSeconds clock =
      ⟨(fm.cleanupWalk maxIdleSeconds clock).removed, (fm.cleanupWalk maxIdleSeconds clock).cleaned,
        (fm.cleanupWalk maxIdleSeconds clock).manager⟩ := by
  have hkeys : fm.sessions.toList.map Prod.fst = fm.getActiveSessions :=
    Std.ExtTreeMap.map_fst_toList_eq_keys
  have hstored : ∀ e ∈ fm.sessions.toList, fm.find e.1 = some e.2 := fun e he =>
    Std.ExtTreeMap.mem_toList_iff_getElem?_eq_some.mp he
  have hnodup : (fm.sessions.toList.map Prod.fst).Nodup := by
    rw [hkeys]
    exact Std.ExtTreeMap.nodup_keys
  obtain ⟨hman, hremoved, hcleaned⟩ :=
    foldl_visitSession maxIdleSeconds clock { manager := fm } hstored hnodup
  rw [hkeys, ← cleanupWalk_eq] at hman hremoved hcleaned
  rw [hman, hremoved, hcleaned, Nat.zero_add, List.nil_append]
  rfl

end Visit

/-! ## What the loop decides -/

/-- The state of the loop after the sessions `seen` of the manager `fm` were visited. -/
structure CleanedSoFar (fm : FileManager) (maxIdleSeconds : UInt32) (seen : List Bytes)
    (st : CleanupState) : Prop where
  visits : st.tested.map Prod.fst = seen
  within : ∀ hash ∈ st.cleaned, hash ∈ seen
  decides : ∀ hash now, (hash, now) ∈ st.tested → ∃ s, fm.find hash = some s ∧
    (hash ∈ st.cleaned ↔ (maxIdleSeconds.toNat : ℚ) < s.secondsIdle now)
  find : ∀ hash, st.manager.find hash = if hash ∈ st.cleaned then none else fm.find hash
  removed : st.removed = st.cleaned.length
  count : st.manager.sessionCount + st.removed = fm.sessionCount

theorem cleanedSoFar_start (fm : FileManager) (maxIdleSeconds : UInt32) :
    CleanedSoFar fm maxIdleSeconds [] { manager := fm } where
  visits := rfl
  within _ h := absurd h List.not_mem_nil
  decides _ _ h := absurd h List.not_mem_nil
  find _ := (if_neg List.not_mem_nil).symm
  removed := rfl
  count := rfl

namespace CleanedSoFar

variable {fm : FileManager} {maxIdleSeconds : UInt32} {seen : List Bytes} {st : CleanupState}

theorem not_mem_cleaned (h : CleanedSoFar fm maxIdleSeconds seen st) {hash : Bytes}
    (hnew : hash ∉ seen) : hash ∉ st.cleaned := fun hmem => hnew (h.within hash hmem)

theorem find_new (h : CleanedSoFar fm maxIdleSeconds seen st) {hash : Bytes}
    (hnew : hash ∉ seen) : st.manager.find hash = fm.find hash := by
  rw [h.find, if_neg (h.not_mem_cleaned hnew)]

/-- The hashes tested so far are those of `seen`, so none of them is a new one. -/
theorem ne_of_tested (h : CleanedSoFar fm maxIdleSeconds seen st) {hash other : Bytes}
    {now : Time} (hnew : hash ∉ seen) (hother : (other, now) ∈ st.tested) : other ≠ hash := by
  rintro rfl
  refine hnew ?_
  rw [← h.visits]
  exact List.mem_map_of_mem hother

theorem erase (h : CleanedSoFar fm maxIdleSeconds seen st) {hash : Bytes} (hnew : hash ∉ seen)
    {s : FileTransferSession} (hs : fm.find hash = some s) {now : Time}
    (hidle : (maxIdleSeconds.toNat : ℚ) < s.secondsIdle now) (readings : Nat) :
    CleanedSoFar fm maxIdleSeconds (seen ++ [hash])
      { manager := st.manager.drop hash
        readings := readings
        removed := st.removed + 1
        cleaned := st.cleaned ++ [hash]
        tested := st.tested ++ [(hash, now)] } where
  visits := by rw [List.map_append, h.visits, List.map_singleton]
  within other hother := by
    rw [List.mem_append] at hother ⊢
    exact hother.imp_left (h.within other)
  decides other now' hother := by
    rcases List.mem_append.mp hother with hold | hlast
    · obtain ⟨t, ht, hiff⟩ := h.decides other now' hold
      refine ⟨t, ht, ?_⟩
      rw [List.mem_append, List.mem_singleton, or_iff_left (h.ne_of_tested hnew hold)]
      exact hiff
    · cases List.mem_singleton.mp hlast
      exact ⟨s, hs, iff_of_true (by simp) hidle⟩
  find other := by
    rw [find_drop, h.find]
    by_cases heq : hash = other
    · simp [heq]
    · have hne : other ≠ hash := Ne.symm heq
      simp [heq, hne]
  removed := by rw [List.length_append, h.removed, List.length_singleton]
  count := by
    have hpresent : (st.manager.find hash).isSome := by
      rw [h.find_new hnew, hs]
      rfl
    have hdrop := sessionCount_drop hpresent
    have hcount := h.count
    change (st.manager.drop hash).sessionCount + (st.removed + 1) = fm.sessionCount
    omega

theorem keep (h : CleanedSoFar fm maxIdleSeconds seen st) {hash : Bytes} (hnew : hash ∉ seen)
    {s : FileTransferSession} (hs : fm.find hash = some s) {now : Time}
    (hactive : ¬(maxIdleSeconds.toNat : ℚ) < s.secondsIdle now) (readings : Nat) :
    CleanedSoFar fm maxIdleSeconds (seen ++ [hash])
      { st with readings := readings, tested := st.tested ++ [(hash, now)] } where
  visits := by rw [List.map_append, h.visits, List.map_singleton]
  within other hother := List.mem_append_left _ (h.within other hother)
  decides other now' hother := by
    rcases List.mem_append.mp hother with hold | hlast
    · exact h.decides other now' hold
    · cases List.mem_singleton.mp hlast
      exact ⟨s, hs, iff_of_false (h.not_mem_cleaned hnew) hactive⟩
  find := h.find
  removed := h.removed
  count := h.count

theorem visit (h : CleanedSoFar fm maxIdleSeconds seen st) (clock : Nat → Time) {hash : Bytes}
    (hnew : hash ∉ seen) (hpresent : (fm.find hash).isSome) :
    CleanedSoFar fm maxIdleSeconds (seen ++ [hash])
      (visitSession maxIdleSeconds clock st hash) := by
  obtain ⟨s, hs⟩ := Option.isSome_iff_exists.mp hpresent
  rw [visitSession, h.find_new hnew, hs]
  dsimp only
  split
  next hidle => exact h.erase hnew hs hidle _
  next hactive => exact h.keep hnew hs hactive _

theorem foldl (h : CleanedSoFar fm maxIdleSeconds seen st) (clock : Nat → Time)
    {hashes : List Bytes} (hnodup : (seen ++ hashes).Nodup)
    (hpresent : ∀ hash ∈ hashes, (fm.find hash).isSome) :
    CleanedSoFar fm maxIdleSeconds (seen ++ hashes)
      (hashes.foldl (visitSession maxIdleSeconds clock) st) := by
  induction hashes generalizing seen st with
  | nil => rwa [List.append_nil]
  | cons hash rest ih =>
      have hnew : hash ∉ seen := fun hmem =>
        (List.nodup_append.mp hnodup).2.2 hash hmem hash List.mem_cons_self rfl
      have hsplit : seen ++ hash :: rest = seen ++ [hash] ++ rest := by simp
      rw [hsplit] at hnodup ⊢
      exact ih (h.visit clock hnew (hpresent hash List.mem_cons_self)) hnodup
        fun other hother => hpresent other (List.mem_cons_of_mem _ hother)

end CleanedSoFar

/-- The loop has visited all sessions, each once. -/
theorem cleanedSoFar_walk (fm : FileManager) (maxIdleSeconds : UInt32) (clock : Nat → Time) :
    CleanedSoFar fm maxIdleSeconds fm.getActiveSessions
      (fm.cleanupWalk maxIdleSeconds clock) := by
  rw [cleanupWalk_eq]
  have hnodup : fm.getActiveSessions.Nodup := Std.ExtTreeMap.nodup_keys
  exact (cleanedSoFar_start fm maxIdleSeconds).foldl clock hnodup fun hash hhash =>
    (fm.mem_getActiveSessions hash).mp hhash

end FileManager

end EggDelivery
