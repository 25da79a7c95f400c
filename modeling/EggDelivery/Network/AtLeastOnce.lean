import EggDelivery.Network.LoopWrites

/-!
# Chunks that come more than once

One transfer in a loop that may receive anything else besides. Its chunks may be
repeated, reordered and lost, and the file system may fail. The file is stored as often
as the arrivals hold complete deliveries one after the other, always with its content.
-/

namespace EggDelivery

variable (t : Transfer)

/-- What is accepted under the hash of the transfer are its chunks. -/
def OnlyFrom (arrivals : List Arrival) : Prop :=
  ∀ a ∈ arrivals, ∀ chunk, chunkFor t.hash a = some chunk → chunk ∈ chunked t.hash t.parts

/-- These arrivals bring every chunk, and the file can be opened at the last one or at one
that comes later. -/
def Delivers (arrivals : List Arrival) : Prop :=
  ∃ before a after, arrivals = before ++ a :: after ∧ addressee a = some t.hash ∧
    a.env.createDirectories = true ∧ a.env.isOpen = true ∧
    ∀ chunk ∈ chunked t.hash t.parts, ∃ b ∈ before ++ [a], acceptedChunk b = some chunk

variable {t}

theorem lasting_delivers : Rounds.Lasting (Delivers t) := by
  rintro pre s post ⟨before, a, after, rfl, haddr, hdirs, hopen, hall⟩
  refine ⟨pre ++ before, a, after ++ post, by simp, haddr, hdirs, hopen, fun chunk hchunk => ?_⟩
  obtain ⟨b, hb, hacc⟩ := hall chunk hchunk
  exact ⟨b, by rw [List.append_assoc]; exact List.mem_append_right _ hb, hacc⟩

theorem not_delivers_nil : ¬Delivers t [] := by
  rintro ⟨before, a, after, hsplit, -⟩
  exact List.append_ne_nil_of_right_ne_nil before (List.cons_ne_nil a after) hsplit.symm

/-- The arrival that makes a delivery of what came before is the last one it needs. -/
theorem delivers_concat_iff {past : List Arrival} (hpast : ¬Delivers t past) (a : Arrival) :
    Delivers t (past ++ [a]) ↔ addressee a = some t.hash ∧ a.env.createDirectories = true ∧
      a.env.isOpen = true ∧
      ∀ chunk ∈ chunked t.hash t.parts, ∃ b ∈ past ++ [a], acceptedChunk b = some chunk := by
  constructor
  · rintro ⟨before, b, after, hsplit, haddr, hdirs, hopen, hall⟩
    cases after using List.reverseRecOn with
    | nil =>
        obtain ⟨rfl, hb⟩ := List.append_inj' hsplit rfl
        obtain rfl := List.singleton_inj.mp hb
        exact ⟨haddr, hdirs, hopen, hall⟩
    | append_singleton after c =>
        rw [← List.cons_append, ← List.append_assoc] at hsplit
        obtain ⟨rfl, -⟩ := List.append_inj' hsplit rfl
        exact (hpast ⟨before, b, after, rfl, haddr, hdirs, hopen, hall⟩).elim
  · rintro ⟨haddr, hdirs, hopen, hall⟩
    exact ⟨past, a, [], rfl, haddr, hdirs, hopen, hall⟩

/-- On a disk that does what it is asked every chunk is all that it takes. -/
theorem delivers_iff_of_succeeds {arrivals : List Arrival} (hne : t.parts ≠ [])
    (henv : ∀ a ∈ arrivals, a.env.Succeeds) :
    Delivers t arrivals ↔
      ∀ chunk ∈ chunked t.hash t.parts, ∃ b ∈ arrivals, acceptedChunk b = some chunk := by
  constructor
  · rintro ⟨before, a, after, rfl, -, -, -, hall⟩ chunk hchunk
    obtain ⟨b, hb, hacc⟩ := hall chunk hchunk
    exact ⟨b, by rw [← List.singleton_append, ← List.append_assoc]
                 exact List.mem_append_left _ hb, hacc⟩
  intro hall
  induction arrivals using List.reverseRecOn with
  | nil =>
      obtain ⟨part, hpart⟩ := List.exists_mem_of_ne_nil t.parts hne
      obtain ⟨i, hi⟩ := List.mem_iff_getElem?.mp hpart
      obtain ⟨b, hb, -⟩ := hall _ (mem_chunked.mpr ⟨i, part, hi, rfl⟩)
      cases hb
  | append_singleton past a ih =>
      by_cases hpast : Delivers t past
      · exact lasting_delivers.append hpast [a]
      · obtain ⟨hdirs, hopen, -⟩ := henv a (List.mem_append_right _ (List.mem_singleton_self a))
        refine (delivers_concat_iff hpast a).mpr ⟨?_, hdirs, hopen, hall⟩
        by_contra haddr
        refine hpast (ih (fun b hb => henv b (List.mem_append_left _ hb)) fun chunk hchunk => ?_)
        obtain ⟨b, hb, hacc⟩ := hall chunk hchunk
        rcases List.mem_append.mp hb with hb | hb
        · exact ⟨b, hb, hacc⟩
        · obtain rfl := List.mem_singleton.mp hb
          obtain ⟨i, part, -, rfl⟩ := mem_chunked.mp hchunk
          exact (haddr (by rw [addressee, hacc]; rfl)).elim

theorem acceptedChunk_packet {a : Arrival} {i : Nat} {part : Bytes} (hi : t.parts[i]? = some part)
    (ha : a.pkg = (chunkAt t.hash t.parts i part).serialize) :
    acceptedChunk a = some (chunkAt t.hash t.parts i part) := by
  rw [acceptedChunk_eq_some_iff, ha, t.deserialize_packet hi]

theorem onlyFrom_of_packets {arrivals : List Arrival}
    (h : ∀ a ∈ arrivals, a.pkg ∈ t.packets ∨ Rejected a.pkg) : OnlyFrom t arrivals := by
  intro a ha chunk hchunk
  have hacc := (chunkFor_eq_some_iff.mp hchunk).1
  rcases h a ha with hpkg | hrej
  · obtain ⟨i, part, hi, heq⟩ := Transfer.mem_packets.mp hpkg
    rw [acceptedChunk_packet hi heq, Option.some.injEq] at hacc
    rw [← hacc]
    exact mem_chunked.mpr ⟨i, part, hi, rfl⟩
  · rw [acceptedChunk_eq_none_iff.mpr hrej] at hacc
    cases hacc

theorem onlyFrom_plainArrivals {pkgs : List Bytes} (h : ∀ pkg ∈ pkgs, pkg ∈ t.packets) :
    OnlyFrom t (plainArrivals pkgs) := by
  refine onlyFrom_of_packets fun a ha => Or.inl ?_
  obtain ⟨pkg, hpkg, rfl⟩ := List.mem_map.mp ha
  exact h pkg hpkg

theorem delivers_of_packets {arrivals : List Arrival} (hne : t.parts ≠ [])
    (henv : ∀ a ∈ arrivals, a.env.Succeeds)
    (hall : ∀ pkg ∈ t.packets, pkg ∈ arrivals.map Arrival.pkg) : Delivers t arrivals := by
  refine (delivers_iff_of_succeeds hne henv).mpr fun chunk hchunk => ?_
  obtain ⟨i, part, hi, rfl⟩ := mem_chunked.mp hchunk
  obtain ⟨b, hb, heq⟩ := List.mem_map.mp (hall _ (Transfer.mem_packets.mpr ⟨i, part, hi, rfl⟩))
  exact ⟨b, hb, acceptedChunk_packet hi heq⟩

/-! ## Chunks as pieces of the transfer -/

theorem isFrom_deliveryOf {i : Nat} {part : Bytes} (hi : t.parts[i]? = some part)
    (env : DiskBehaviour) :
    Collector.IsFrom t.parts (deliveryOf (chunkAt t.hash t.parts i part) env) ∧
      (deliveryOf (chunkAt t.hash t.parts i part) env).index = i := by
  have hlt : i < t.parts.length := (List.getElem?_eq_some_iff.mp hi).1
  have hid : (UInt32.ofNat i).toNat = i := UInt32.toNat_ofNat_of_lt' (lt_trans hlt t.parts_length)
  exact ⟨⟨UInt32.toNat_ofNat_of_lt' t.parts_length,
    by simpa only [deliveryOf, chunkAt, hid] using hi⟩, hid⟩

theorem OnlyFrom.exists_chunkAt {arrivals : List Arrival} (h : OnlyFrom t arrivals) {a : Arrival}
    (ha : a ∈ arrivals) {d : Collector.Delivery Bytes} (hd : deliveryFor t.hash a = some d) :
    ∃ i part, t.parts[i]? = some part ∧ acceptedChunk a = some (chunkAt t.hash t.parts i part) ∧
      d = deliveryOf (chunkAt t.hash t.parts i part) a.env := by
  obtain ⟨chunk, hchunk, rfl⟩ := Option.map_eq_some_iff.mp hd
  obtain ⟨i, part, hi, rfl⟩ := mem_chunked.mp (h a ha chunk hchunk)
  exact ⟨i, part, hi, (chunkFor_eq_some_iff.mp hchunk).1, rfl⟩

theorem OnlyFrom.pieces_iff {arrivals : List Arrival} (h : OnlyFrom t arrivals) :
    (∀ i, i < t.parts.length → ∃ d ∈ arrivals.filterMap (deliveryFor t.hash), d.index = i) ↔
      ∀ chunk ∈ chunked t.hash t.parts, ∃ b ∈ arrivals, acceptedChunk b = some chunk := by
  constructor
  · intro hall chunk hchunk
    obtain ⟨i, part, hi, rfl⟩ := mem_chunked.mp hchunk
    obtain ⟨d, hd, rfl⟩ := hall i (List.getElem?_eq_some_iff.mp hi).1
    obtain ⟨b, hb, hdb⟩ := List.mem_filterMap.mp hd
    obtain ⟨j, part', hj, hacc, rfl⟩ := h.exists_chunkAt hb hdb
    rw [(isFrom_deliveryOf hj b.env).2, hj, Option.some.injEq] at hi
    rw [(isFrom_deliveryOf hj b.env).2, ← hi]
    exact ⟨b, hb, hacc⟩
  · intro hall i hi
    have hpart := List.getElem?_eq_getElem hi
    obtain ⟨b, hb, hacc⟩ := hall _ (mem_chunked.mpr ⟨i, _, hpart, rfl⟩)
    have hchunk : chunkFor t.hash b = some (chunkAt t.hash t.parts i t.parts[i]) :=
      chunkFor_eq_some_iff.mpr ⟨hacc, rfl⟩
    refine ⟨_, List.mem_filterMap.mpr ⟨b, hb, ?_⟩, (isFrom_deliveryOf hpart b.env).2⟩
    rw [deliveryFor, hchunk, Option.map_some]

theorem OnlyFrom.isFrom {arrivals : List Arrival} (h : OnlyFrom t arrivals) :
    ∀ d ∈ arrivals.filterMap (deliveryFor t.hash), Collector.IsFrom t.parts d := by
  intro d hd
  obtain ⟨b, hb, hdb⟩ := List.mem_filterMap.mp hd
  obtain ⟨i, part, hi, -, rfl⟩ := h.exists_chunkAt hb hdb
  exact (isFrom_deliveryOf hi b.env).1

theorem OnlyFrom.mono {arrivals arrivals' : List Arrival} (h : OnlyFrom t arrivals)
    (hsub : arrivals' ⊆ arrivals) : OnlyFrom t arrivals' := fun a ha => h a (hsub ha)

/-! ## Turns and rounds -/

section Run

variable {Node : Type} [DecidableEq Node] (denote : Bytes → Node) (disk : Disk Node)

theorem OnlyFrom.wrote_iff {past : List Arrival} {a : Arrival} (h : OnlyFrom t (past ++ [a]))
    (haddr : addressee a = some t.hash) (w : Bytes × Bytes) :
    (turn denote disk past a).2.wrote = some w ↔
      (a.env.createDirectories = true ∧ a.env.isOpen = true ∧
        ∀ chunk ∈ chunked t.hash t.parts, ∃ b ∈ sinceStored denote disk t.hash past ++ [a],
          acceptedChunk b = some chunk) ∧
      (savedAs t.hash, a.env.store t.content) = w := by
  obtain ⟨chunk, hchunk⟩ := addressee_eq_some_iff.mp haddr
  obtain ⟨hacc, hhash⟩ := chunkFor_eq_some_iff.mp hchunk
  have honly : OnlyFrom t (sinceStored denote disk t.hash past ++ [a]) :=
    h.mono ((sinceStored_suffix denote disk t.hash past).sublist.append_right [a]).subset
  have hne : (sinceStored denote disk t.hash past ++ [a]).filterMap (deliveryFor t.hash) ≠ [] := by
    rw [List.filterMap_append, List.filterMap_cons, deliveryFor, hchunk]
    exact List.append_ne_nil_of_right_ne_nil _ (List.cons_ne_nil _ _)
  rw [wrote_turn_iff hacc, hhash]
  simp only [Collector.makes_iff honly.isFrom, honly.pieces_iff, Transfer.content]
  constructor
  · rintro ⟨hdirs, hopen, parts, ⟨rfl, -, hall⟩, hw⟩
    exact ⟨⟨hdirs, hopen, hall⟩, hw⟩
  · rintro ⟨⟨hdirs, hopen, hall⟩, hw⟩
    exact ⟨hdirs, hopen, t.parts, ⟨rfl, hne, hall⟩, hw⟩

/-- The loop stores the transfer at the ends of the rounds. -/
theorem OnlyFrom.rounds {arrivals : List Arrival} (h : OnlyFrom t arrivals) :
    Run.final (Rounds.step (Delivers t)) [] arrivals = sinceStored denote disk t.hash arrivals ∧
      Run.outputs (Rounds.step (Delivers t)) [] arrivals =
        (Run.log (recvFileStep denote) (startReceiver disk) arrivals).map (stores t.hash) := by
  induction arrivals using List.reverseRecOn with
  | nil => exact ⟨rfl, rfl⟩
  | append_singleton past a ih =>
      obtain ⟨hseen, houts⟩ := ih (h.mono (List.subset_append_left _ _))
      have hround : ¬Delivers t (sinceStored denote disk t.hash past) := by
        rw [← hseen]
        exact Rounds.not_final not_delivers_nil past
      have hends : stores t.hash (a, (turn denote disk past a).2) = true ↔
          Delivers t (sinceStored denote disk t.hash past ++ [a]) := by
        rw [delivers_concat_iff hround, stores, Bool.and_eq_true, decide_eq_true_iff,
          Option.isSome_iff_exists]
        refine and_congr_right fun haddr => ?_
        simp only [h.wrote_iff denote disk haddr, exists_and_left, exists_eq', and_true]
      rw [Run.final_append, Run.outputs_append, hseen, houts, Run.log_append_singleton,
        List.map_append, Run.final_cons, Run.final_nil, Run.outputs_cons, Run.outputs_nil,
        List.map_singleton]
      cases hstores : stores t.hash (a, (turn denote disk past a).2) with
      | true =>
          rw [Rounds.step_of_pos (hends.mp hstores), sinceStored_concat_of_stores _ _ _ hstores]
          exact ⟨rfl, congrArg (fun b => _ ++ [b]) hstores.symm⟩
      | false =>
          have hneg : ¬Delivers t (sinceStored denote disk t.hash past ++ [a]) := by
            rw [← hends, hstores]
            exact Bool.false_ne_true
          rw [Rounds.step_of_neg hneg, sinceStored_concat _ _ _ hstores]
          exact ⟨rfl, congrArg (fun b => _ ++ [b]) hstores.symm⟩

/-! ## Writes -/

variable {denote disk}

theorem exists_turn_of_mem_writes {arrivals : List Arrival} {w : Bytes × Bytes}
    (h : w ∈ writes denote disk arrivals) :
    ∃ past a rest, arrivals = past ++ a :: rest ∧ (turn denote disk past a).2.wrote = some w := by
  obtain ⟨report, hreport, hw⟩ := List.mem_filterMap.mp h
  obtain ⟨past, a, rest, hsplit, rfl⟩ := Run.exists_split_of_mem_outputs _ hreport
  exact ⟨past, a, rest, hsplit, hw⟩

theorem path_of_wrote {past : List Arrival} {a : Arrival} {w : Bytes × Bytes}
    (h : (turn denote disk past a).2.wrote = some w) :
    ∃ hash, addressee a = some hash ∧ w.1 = savedAs hash := by
  cases hacc : acceptedChunk a with
  | none =>
      rw [turn, recvFileStep_of_none denote _ hacc] at h
      cases h
  | some chunk =>
      obtain ⟨-, -, parts, -, rfl⟩ := (wrote_turn_iff hacc w).mp h
      exact ⟨chunk.fileHash, by rw [addressee, hacc, Option.map_some], rfl⟩

theorem stores_iff {hash : Bytes} {past : List Arrival} {a : Arrival} :
    stores hash (a, (turn denote disk past a).2) = true ↔
      ∃ w, (turn denote disk past a).2.wrote = some w ∧ w.1 = savedAs hash := by
  rw [stores, Bool.and_eq_true, decide_eq_true_iff, Option.isSome_iff_exists]
  constructor
  · rintro ⟨haddr, w, hw⟩
    obtain ⟨hash', haddr', hpath⟩ := path_of_wrote hw
    rw [haddr, Option.some.injEq] at haddr'
    exact ⟨w, hw, by rw [hpath, haddr']⟩
  · rintro ⟨w, hw, hpath⟩
    obtain ⟨hash', haddr', hpath'⟩ := path_of_wrote hw
    rw [savedAs_injective (hpath.symm.trans hpath')]
    exact ⟨haddr', w, hw⟩

theorem countP_writes (hash : Bytes) (arrivals : List Arrival) :
    (writes denote disk arrivals).countP (fun w => w.1 = savedAs hash) =
      ((Run.log (recvFileStep denote) (startReceiver disk) arrivals).map (stores hash)).count
        true := by
  induction arrivals using List.reverseRecOn with
  | nil => rfl
  | append_singleton past a ih =>
      have hturn : (recvFileStep denote (Run.final (recvFileStep denote) (startReceiver disk) past)
          a).2 = (turn denote disk past a).2 := rfl
      rw [writes, reports] at ih ⊢
      rw [Run.outputs_append, Run.log_append_singleton, List.filterMap_append, List.countP_append,
        ih, List.map_append, List.count_append, Run.outputs_cons, hturn]
      congr 1
      have hstores := @stores_iff Node _ denote disk hash past a
      cases hwrote : (turn denote disk past a).2.wrote with
      | none =>
          have hfalse : stores hash (a, (turn denote disk past a).2) = false := by
            simpa [hwrote] using hstores
          simp [hwrote, hfalse]
      | some w =>
          by_cases hpath : w.1 = savedAs hash
          · simp [hwrote, hpath, hstores.mpr ⟨w, hwrote, hpath⟩]
          · have hfalse : stores hash (a, (turn denote disk past a).2) = false := by
              simpa [hwrote, hpath] using hstores
            simp [hwrote, hpath, hfalse]

theorem OnlyFrom.content {arrivals : List Arrival} (h : OnlyFrom t arrivals) {w : Bytes × Bytes}
    (hw : w ∈ writes denote disk arrivals) (hpath : w.1 = savedAs t.hash) :
    ∃ a ∈ arrivals, w.2 = a.env.store t.content := by
  obtain ⟨past, a, rest, rfl, hwrote⟩ := exists_turn_of_mem_writes hw
  obtain ⟨hash, haddr, hpath'⟩ := path_of_wrote hwrote
  rw [← savedAs_injective (hpath.symm.trans hpath')] at haddr
  have honly : OnlyFrom t (past ++ [a]) := h.mono (by simp)
  obtain ⟨-, rfl⟩ := (honly.wrote_iff denote disk haddr w).mp hwrote
  exact ⟨a, by simp, rfl⟩

theorem OnlyFrom.le_countP_iff {arrivals : List Arrival} (h : OnlyFrom t arrivals) (k : Nat) :
    k ≤ (writes denote disk arrivals).countP (fun w => w.1 = savedAs t.hash) ↔
      ∃ (stretches : List (List Arrival)) (rest : List Arrival),
        arrivals = stretches.flatten ++ rest ∧ stretches.length = k ∧
        ∀ stretch ∈ stretches, Delivers t stretch := by
  rw [countP_writes, ← (h.rounds denote disk).2]
  exact Rounds.le_rounds_iff lasting_delivers not_delivers_nil k arrivals

/-! ## The disk -/

variable (denote disk) in
theorem replay_cases (node : Node) (ws : List (Bytes × Bytes)) :
    ((∀ w ∈ ws, denote w.1 ≠ node) ∧ replay denote disk ws node = disk node) ∨
      ∃ w ∈ ws, denote w.1 = node ∧ replay denote disk ws node = some w.2 := by
  induction ws using List.reverseRecOn with
  | nil => exact Or.inl ⟨fun w hw => absurd hw List.not_mem_nil, rfl⟩
  | append_singleton ws w ih =>
      have hlast : replay denote disk (ws ++ [w]) =
          Function.update (replay denote disk ws) (denote w.1) (some w.2) := by
        rw [replay, List.foldl_append]
        rfl
      rw [hlast]
      by_cases heq : denote w.1 = node
      · exact Or.inr ⟨w, by simp, heq, by rw [heq, Function.update_self]⟩
      · rw [Function.update_of_ne (Ne.symm heq)]
        rcases ih with ⟨hnone, hdisk⟩ | ⟨v, hv, hnode, hdisk⟩
        · refine Or.inl ⟨fun v hv => ?_, hdisk⟩
          rcases List.mem_append.mp hv with hv | hv
          · exact hnone v hv
          · rwa [List.mem_singleton.mp hv]
        · exact Or.inr ⟨v, List.mem_append_left _ hv, hnode, hdisk⟩

variable (denote disk) in
/-- One delivery is enough for a write, and no write comes without one. -/
theorem OnlyFrom.exists_write_iff {arrivals : List Arrival} (h : OnlyFrom t arrivals) :
    (∃ w ∈ writes denote disk arrivals, w.1 = savedAs t.hash) ↔ Delivers t arrivals := by
  have hpos : (∃ w ∈ writes denote disk arrivals, w.1 = savedAs t.hash) ↔
      1 ≤ (writes denote disk arrivals).countP (fun w => w.1 = savedAs t.hash) := by
    rw [Nat.one_le_iff_ne_zero, ← Nat.pos_iff_ne_zero, List.countP_pos_iff]
    simp only [decide_eq_true_iff]
  rw [hpos, h.le_countP_iff]
  constructor
  · rintro ⟨stretches, rest, rfl, hlen, hall⟩
    obtain ⟨stretch, rfl⟩ := List.length_eq_one_iff.mp hlen
    rw [List.flatten_singleton]
    exact lasting_delivers.append (hall stretch (List.mem_singleton_self _)) rest
  · intro hdel
    refine ⟨[arrivals], [], by simp, rfl, fun stretch hstretch => ?_⟩
    rwa [List.mem_singleton.mp hstretch]

/-- No other hash that has been accepted is stored in the file of the transfer. -/
def OwnFile (denote : Bytes → Node) (t : Transfer) (arrivals : List Arrival) : Prop :=
  ∀ a ∈ arrivals, ∀ hash, addressee a = some hash →
    denote (savedAs hash) = denote (savedAs t.hash) → hash = t.hash

variable (denote disk) in
/-- The file of the transfer is there exactly if it has been delivered. -/
theorem OnlyFrom.file {arrivals : List Arrival} (h : OnlyFrom t arrivals)
    (hown : OwnFile denote t arrivals) :
    (Delivers t arrivals → ∃ a ∈ arrivals,
      (afterTurns denote disk arrivals).disk (denote (savedAs t.hash)) =
        some (a.env.store t.content)) ∧
    (¬Delivers t arrivals →
      (afterTurns denote disk arrivals).disk (denote (savedAs t.hash)) =
        disk (denote (savedAs t.hash))) := by
  have hpath : ∀ w ∈ writes denote disk arrivals, denote w.1 = denote (savedAs t.hash) →
      w.1 = savedAs t.hash := by
    intro w hw heq
    obtain ⟨past, a, rest, rfl, hwrote⟩ := exists_turn_of_mem_writes hw
    obtain ⟨hash, haddr, hpath⟩ := path_of_wrote hwrote
    rw [hpath] at heq ⊢
    rw [hown a (by simp) hash haddr heq]
  have hreplay : (afterTurns denote disk arrivals).disk =
      replay denote disk (writes denote disk arrivals) :=
    disk_final_replay denote (startReceiver disk) arrivals
  rw [hreplay, ← h.exists_write_iff denote disk]
  rcases replay_cases denote disk (denote (savedAs t.hash)) (writes denote disk arrivals) with ⟨hnone, hdisk⟩ | ⟨w, hw, heq, hdisk⟩
  · refine ⟨fun ⟨w, hw, hsaved⟩ => ?_, fun _ => hdisk⟩
    exact (hnone w hw (congrArg denote hsaved)).elim
  · have hsaved := hpath w hw heq
    refine ⟨fun _ => ?_, fun hnone => (hnone ⟨w, hw, hsaved⟩).elim⟩
    obtain ⟨a, ha, hstore⟩ := h.content hw hsaved
    exact ⟨a, ha, by rw [hdisk, hstore]⟩

structure StoredAsDelivered (denote : Bytes → Node) (disk : Disk Node) (t : Transfer)
    (arrivals : List Arrival) : Prop where
  content : ∀ w ∈ writes denote disk arrivals, w.1 = savedAs t.hash →
    ∃ a ∈ arrivals, w.2 = a.env.store t.content
  count : ∀ k, k ≤ (writes denote disk arrivals).countP (fun w => w.1 = savedAs t.hash) ↔
    ∃ (stretches : List (List Arrival)) (rest : List Arrival),
      arrivals = stretches.flatten ++ rest ∧ stretches.length = k ∧
      ∀ stretch ∈ stretches, Delivers t stretch
  file : OwnFile denote t arrivals →
    (Delivers t arrivals → ∃ a ∈ arrivals,
      (afterTurns denote disk arrivals).disk (denote (savedAs t.hash)) =
        some (a.env.store t.content)) ∧
    (¬Delivers t arrivals →
      (afterTurns denote disk arrivals).disk (denote (savedAs t.hash)) =
        disk (denote (savedAs t.hash)))

variable (denote disk) in
/-- For every transfer, whatever else arrives and however the file system behaves: the
loop stores it as often as the arrivals hold deliveries of it one after the other. -/
theorem stored_as_delivered {arrivals : List Arrival} (h : OnlyFrom t arrivals) :
    StoredAsDelivered denote disk t arrivals :=
  ⟨fun _ hw hpath => h.content hw hpath, h.le_countP_iff, h.file denote disk⟩

end Run

/-- Two parts, whose packets come once in their order and once the other way round. -/
theorem stored_as_delivered_twice :
    let t : Transfer := ⟨[7], [[1], [2]], by decide, by decide, by decide⟩
    2 ≤ (writes id (fun _ => none) (plainArrivals (t.packets ++ t.packets.reverse))).countP
      (fun w => w.1 = savedAs t.hash) := by
  intro t
  have honly : OnlyFrom t (plainArrivals (t.packets ++ t.packets.reverse)) :=
    onlyFrom_plainArrivals fun pkg hpkg => by simpa using hpkg
  have hdel : ∀ pkgs : List Bytes, (∀ pkg ∈ t.packets, pkg ∈ pkgs) →
      Delivers t (plainArrivals pkgs) := fun pkgs hall =>
    delivers_of_packets (by decide) (plainArrivals_succeeds pkgs) (by rwa [plainArrivals_pkg])
  refine ((stored_as_delivered id (fun _ => none) honly).count 2).mpr
    ⟨[plainArrivals t.packets, plainArrivals t.packets.reverse], [], ?_, rfl, ?_⟩
  · simp [plainArrivals]
  · intro stretch hstretch
    rcases List.mem_pair.mp hstretch with rfl | rfl
    · exact hdel _ fun pkg h => h
    · exact hdel _ fun pkg h => List.mem_reverse.mpr h

end EggDelivery
