import EggDelivery.Network.AtLeastOnce

/-!
# The receiving program over several runs

The manager and `session_map` are locals of `recv_file_loop`. When the program ends only
the disk is left, so chunks do not add up from one run to the next.
-/

namespace EggDelivery

/-- The arrivals before the first empty one, which ends the loop. -/
def heard (arrivals : List Arrival) : List Arrival := arrivals.takeWhile (·.pkg ≠ [])

variable {Node : Type} [DecidableEq Node] (denote : Bytes → Node)

/-- One run of the program, from the disk that it finds to the disk that it leaves. -/
def runProgram (disk : Disk Node) (arrivals : List Arrival) :
    Disk Node × List (PacketReport Node) :=
  let r := recvFileLoop denote disk arrivals
  (r.1.disk, r.2)

def afterRuns (disk : Disk Node) (runs : List (List Arrival)) : Disk Node :=
  Run.final (runProgram denote) disk runs

def writesOver (disk : Disk Node) (runs : List (List Arrival)) : List (Bytes × Bytes) :=
  (Run.outputs (runProgram denote) disk runs).flatten.filterMap PacketReport.wrote

/-! ## One transfer -/

variable {t : Transfer}

structure DeliveredBy (t : Transfer) (arrivals : List Arrival) (stretches : List (List Arrival)) :
    Prop where
  held : stretches.flatten <+: heard arrivals
  each : ∀ stretch ∈ stretches, Delivers t stretch

/-- What a run may hear: under the hash of the transfer only its chunks, and no other hash
that is stored in its file. -/
structure Clean (t : Transfer) (arrivals : List Arrival) : Prop where
  only : OnlyFrom t (heard arrivals)
  own : OwnFile denote t (heard arrivals)

variable {denote}

theorem runProgram_delivers {arrivals : List Arrival} (h : Clean denote t arrivals)
    (hdel : Delivers t (heard arrivals)) (disk : Disk Node) :
    ∃ a ∈ heard arrivals, (runProgram denote disk arrivals).1 (denote (savedAs t.hash)) =
      some (a.env.store t.content) :=
  (h.only.file denote disk h.own).1 hdel

theorem runProgram_fails {arrivals : List Arrival} (h : Clean denote t arrivals)
    (hdel : ¬Delivers t (heard arrivals)) (disk : Disk Node) :
    (runProgram denote disk arrivals).1 (denote (savedAs t.hash)) =
      disk (denote (savedAs t.hash)) :=
  (h.only.file denote disk h.own).2 hdel

variable (denote) in
/-- How often a run writes the file does not depend on the disk that it finds. -/
theorem le_countP_runProgram_iff {arrivals : List Arrival} (h : OnlyFrom t (heard arrivals))
    (disk : Disk Node) (k : Nat) :
    k ≤ ((runProgram denote disk arrivals).2.filterMap PacketReport.wrote).countP
        (fun w => w.1 = savedAs t.hash) ↔
      ∃ stretches, DeliveredBy t arrivals stretches ∧ stretches.length = k := by
  have hwrites : (runProgram denote disk arrivals).2.filterMap PacketReport.wrote =
      writes denote disk (heard arrivals) := rfl
  rw [hwrites, h.le_countP_iff]
  constructor
  · rintro ⟨stretches, rest, hsplit, hlen, hall⟩
    exact ⟨stretches, ⟨⟨rest, hsplit.symm⟩, hall⟩, hlen⟩
  · rintro ⟨stretches, ⟨⟨rest, hsplit⟩, hall⟩, hlen⟩
    exact ⟨stretches, rest, hsplit.symm, hlen, hall⟩

private theorem exists_le_add {k m n : Nat} (h : k ≤ m + n) :
    ∃ i j, k = i + j ∧ i ≤ m ∧ j ≤ n := by
  refine ⟨min k m, k - min k m, ?_, min_le_right k m, ?_⟩ <;> omega

variable (denote) in
theorem le_countP_writesOver_iff {runs : List (List Arrival)}
    (h : ∀ run ∈ runs, OnlyFrom t (heard run)) (disk : Disk Node) (k : Nat) :
    k ≤ (writesOver denote disk runs).countP (fun w => w.1 = savedAs t.hash) ↔
      ∃ cuts, List.Forall₂ (DeliveredBy t) runs cuts ∧ (cuts.map List.length).sum = k := by
  induction runs generalizing disk k with
  | nil =>
      rw [writesOver, Run.outputs_nil, List.flatten_nil, List.filterMap_nil, List.countP_nil,
        Nat.le_zero]
      constructor
      · rintro rfl
        exact ⟨[], List.Forall₂.nil, rfl⟩
      · rintro ⟨cuts, hcuts, hsum⟩
        rw [List.forall₂_nil_left_iff.mp hcuts] at hsum
        exact hsum.symm
  | cons run runs ih =>
      obtain ⟨hrun, hruns⟩ := List.forall_mem_cons.mp h
      have hfirst := le_countP_runProgram_iff denote hrun disk
      have hrest := ih hruns (runProgram denote disk run).1
      rw [writesOver, Run.outputs_cons, List.flatten_cons, List.filterMap_append,
        List.countP_append]
      rw [writesOver] at hrest
      constructor
      · intro hk
        obtain ⟨i, j, rfl, hi, hj⟩ := exists_le_add hk
        obtain ⟨stretches, hstretches, rfl⟩ := (hfirst i).mp hi
        obtain ⟨cuts, hcuts, rfl⟩ := (hrest j).mp hj
        exact ⟨stretches :: cuts, List.Forall₂.cons hstretches hcuts, rfl⟩
      · rintro ⟨cuts, hcuts, rfl⟩
        cases hcuts with
        | @cons _ stretches _ rest hstretches hcuts =>
            have hi := (hfirst _).mpr ⟨stretches, hstretches, rfl⟩
            have hj := (hrest _).mpr ⟨rest, hcuts, rfl⟩
            exact Nat.add_le_add hi hj

/-- Runs that do not deliver the transfer leave its file alone, whatever they hear together. -/
theorem afterRuns_fails {runs : List (List Arrival)} (h : ∀ run ∈ runs, Clean denote t run)
    (hdel : ∀ run ∈ runs, ¬Delivers t (heard run)) (disk : Disk Node) :
    afterRuns denote disk runs (denote (savedAs t.hash)) = disk (denote (savedAs t.hash)) := by
  induction runs generalizing disk with
  | nil => rfl
  | cons run runs ih =>
      obtain ⟨hrun, hruns⟩ := List.forall_mem_cons.mp h
      obtain ⟨hfails, hrest⟩ := List.forall_mem_cons.mp hdel
      rw [afterRuns, Run.final_cons]
      exact (ih hruns hrest _).trans (runProgram_fails hrun hfails disk)

structure StoredByRuns (denote : Bytes → Node) (disk : Disk Node) (t : Transfer)
    (runs : List (List Arrival)) : Prop where
  count : ∀ k, k ≤ (writesOver denote disk runs).countP (fun w => w.1 = savedAs t.hash) ↔
    ∃ cuts, List.Forall₂ (DeliveredBy t) runs cuts ∧ (cuts.map List.length).sum = k
  last : ∀ before run after, runs = before ++ run :: after → Delivers t (heard run) →
    (∀ later ∈ after, ¬Delivers t (heard later)) → ∃ a ∈ heard run,
      afterRuns denote disk runs (denote (savedAs t.hash)) = some (a.env.store t.content)
  none : (∀ run ∈ runs, ¬Delivers t (heard run)) →
    afterRuns denote disk runs (denote (savedAs t.hash)) = disk (denote (savedAs t.hash))

variable (denote) in
/-- Only deliveries within a run count. The last run that holds one decides what the file
holds, and without one the file is as it was before the first run. -/
theorem runs_do_not_add_up (disk : Disk Node) {runs : List (List Arrival)}
    (h : ∀ run ∈ runs, Clean denote t run) : StoredByRuns denote disk t runs where
  count := le_countP_writesOver_iff denote (fun run hmem => (h run hmem).only) disk
  last := by
    rintro before run after rfl hdel hlater
    have hrun : Clean denote t run := h run (by simp)
    have hafter : ∀ later ∈ after, Clean denote t later := fun later hmem =>
      h later (by simp [hmem])
    obtain ⟨a, ha, hfile⟩ := runProgram_delivers hrun hdel (afterRuns denote disk before)
    refine ⟨a, ha, ?_⟩
    rw [afterRuns, Run.final_append, Run.final_cons]
    exact (afterRuns_fails hafter hlater _).trans hfile
  none := fun hdel => afterRuns_fails h hdel disk

/-! ## A transfer cut in two -/

theorem heard_plainArrivals {pkgs : List Bytes} (h : ∀ pkg ∈ pkgs, pkg ∈ t.packets) :
    heard (plainArrivals pkgs) = plainArrivals pkgs := by
  refine List.takeWhile_eq_self_iff.mpr fun a ha => ?_
  obtain ⟨pkg, hpkg, rfl⟩ := List.mem_map.mp ha
  simpa using Transfer.ne_nil_of_mem_packets (h pkg hpkg)

theorem clean_plainArrivals {pkgs : List Bytes} (h : ∀ pkg ∈ pkgs, pkg ∈ t.packets) :
    Clean id t (plainArrivals pkgs) where
  only := by
    rw [heard_plainArrivals h]
    exact onlyFrom_plainArrivals h
  own := fun _ _ _ _ hsaved => savedAs_injective hsaved

theorem mem_of_delivers {pkgs : List Bytes} (h : ∀ pkg ∈ pkgs, pkg ∈ t.packets)
    (hdel : Delivers t (heard (plainArrivals pkgs))) : ∀ pkg ∈ t.packets, pkg ∈ pkgs := by
  rw [heard_plainArrivals h] at hdel
  obtain ⟨before, a, after, hsplit, -, -, -, hall⟩ := hdel
  intro pkg hpkg
  obtain ⟨i, part, hi, rfl⟩ := Transfer.mem_packets.mp hpkg
  obtain ⟨b, hb, hacc⟩ := hall _ (mem_chunked.mpr ⟨i, part, hi, rfl⟩)
  have hmem : b ∈ plainArrivals pkgs := by
    rw [hsplit, ← List.singleton_append, ← List.append_assoc]
    exact List.mem_append_left _ hb
  obtain ⟨pkg', hpkg', rfl⟩ := List.mem_map.mp hmem
  obtain ⟨j, part', hj, rfl⟩ := Transfer.mem_packets.mp (h pkg' hpkg')
  rw [acceptedChunk_packet hj rfl, Option.some.injEq] at hacc
  rwa [← hacc]

/-- Two parts, one in each run. -/
theorem runs_do_not_add_up_two_parts :
    let t : Transfer := ⟨[7], [[1], [2]], by decide, by decide, by decide⟩
    afterRuns id (fun _ => none)
      [plainArrivals (t.packets.take 1), plainArrivals (t.packets.drop 1)] (savedAs t.hash) =
        none := by
  intro t
  have hfirst : ∀ pkg ∈ t.packets.take 1, pkg ∈ t.packets := fun pkg => List.mem_of_mem_take
  have hsecond : ∀ pkg ∈ t.packets.drop 1, pkg ∈ t.packets := fun pkg => List.mem_of_mem_drop
  have hdisjoint : (t.packets.take 1).Disjoint (t.packets.drop 1) :=
    List.disjoint_take_drop t.packets_nodup (le_refl 1)
  refine (runs_do_not_add_up id (fun _ => none) ?_).none ?_
  · intro run hrun
    rcases List.mem_pair.mp hrun with rfl | rfl
    · exact clean_plainArrivals hfirst
    · exact clean_plainArrivals hsecond
  · intro run hrun hdel
    rcases List.mem_pair.mp hrun with rfl | rfl
    · have hmem : t.packets[1] ∈ t.packets.drop 1 := List.mem_singleton_self _
      exact hdisjoint (mem_of_delivers hfirst hdel _ (hsecond _ hmem)) hmem
    · have hmem : t.packets[0] ∈ t.packets.take 1 := List.mem_singleton_self _
      exact hdisjoint hmem (mem_of_delivers hsecond hdel _ (hfirst _ hmem))

end EggDelivery
