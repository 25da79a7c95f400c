import EggDelivery.Manager.Runs
import EggDelivery.Manager.SavePath
import EggDelivery.Network.LoopStep

/-!
# Where received files go

Containment over whole runs. The manager takes its file names from the caller, and
`recv_file_loop` builds them from bytes of the packets; in both, a run is contained
when no name climbs out of the directory it is joined to, read with the separators of
the file system.
-/

namespace EggDelivery

open LexicalPath

variable (fmt : PathFormat)

/-! ## Runs of the manager -/

section Manager

variable {Node : Type} [DecidableEq Node] (denote : Bytes → Node)

theorem touched_completeTransfer {fm : FileManager} {hash : Bytes} {env : DiskBehaviour}
    {disk : Disk Node} {r : AssembleResult Node}
    (hr : (fm.completeTransfer denote hash env disk).assembly = some r) :
    ∃ s, fm.find hash = some s ∧ ∀ call ∈ r.touched, call ∈ fileCalls s.savePath := by
  unfold FileManager.completeTransfer at hr
  cases h : fm.find hash with
  | none => simp [h] at hr
  | some s =>
      refine ⟨s, rfl, fun call hcall => ?_⟩
      obtain rfl : s.assembleFile denote env disk = r := by
        simp only [h] at hr
        split at hr <;> exact Option.some.inj hr
      unfold FileTransferSession.assembleFile at hcall
      split at hcall
      next => simp at hcall
      next =>
        split at hcall
        next => exact List.mem_cons.mpr (Or.inl (List.mem_singleton.mp hcall))
        next => split at hcall <;> exact hcall

theorem touched_of_complete {fm : FileManager} {hash : Bytes} {s : FileTransferSession}
    (disk : Disk Node) (h : fm.find hash = some s) (hc : s.isComplete = true) :
    ∃ r, (fm.completeTransfer denote hash {} disk).assembly = some r ∧
      r.touched = fileCalls s.savePath := by
  simp [FileManager.completeTransfer, h, FileTransferSession.assembleFile, hc, fileCalls]

/-- Every completion of the run stays in the directory that was in force when its
session was created. -/
def CompletionsContained (dir : Bytes) (disk : Disk Node) (ops : List Op) : Prop :=
  ∀ past hash env rest, ops = past ++ .complete hash env :: rest →
    ∀ r, ((after denote dir disk past).manager.completeTransfer denote hash env
        (after denote dir disk past).disk).assembly = some r →
      ∃ before name total since,
        Opened hash (history denote dir disk past) before name total since ∧
          ∀ call ∈ r.touched, Contained fmt (cStr (directoryAfter dir before)) (call.path fmt)

theorem directoryAfter_ne_nil {dir : Bytes} {past : History} (hdir : dir ≠ [])
    (hpast : ∀ new created returned,
      (.setDownloadDirectory new created, .flag returned) ∈ past → new ≠ []) :
    directoryAfter dir past ≠ [] := by
  induction past using List.reverseRecOn with
  | nil => exact hdir
  | append_singleton past e ih =>
      rw [directoryAfter_concat]
      have hold := ih fun new created returned hmem =>
        hpast new created returned (List.mem_append_left _ hmem)
      have hlast : e ∈ past ++ [e] := by simp
      obtain ⟨op, answer⟩ := e
      simp only [directoryAfter, List.foldl_cons, List.foldl_nil]
      split
      next new created heq =>
        cases heq
        exact hpast new created true hlast
      next => exact hold

theorem mem_of_mem_history {dir : Bytes} {disk : Disk Node} {ops : List Op} {e : Op × Answer}
    (h : e ∈ history denote dir disk ops) : e.1 ∈ ops :=
  (List.of_mem_zip h).1

theorem completionsContained_of_neverClimbs {dir : Bytes} (hdir : dir ≠ []) (disk : Disk Node)
    {ops : List Op} (hdirs : ∀ new created, .setDownloadDirectory new created ∈ ops → new ≠ [])
    (hnames : ∀ hash name total now, .create hash name total now ∈ ops → NeverClimbs fmt name) :
    CompletionsContained fmt denote dir disk ops := by
  rintro past hash env rest rfl r hr
  obtain ⟨s, hs, htouched⟩ := touched_completeTransfer denote hr
  obtain ⟨before, name, since, hopen, hpath, -⟩ :=
    (tells_after denote dir disk past).session hash s hs
  refine ⟨before, name, s.totalChunks, since, hopen, fun call hcall => ?_⟩
  obtain ⟨now, hsplit⟩ := hopen.split
  have hpast : ∀ op answer, (op, answer) ∈ history denote dir disk past →
      op ∈ past ++ .complete hash env :: rest := fun op answer he =>
    List.mem_append_left _ (mem_of_mem_history denote he)
  have hname : NeverClimbs fmt name :=
    hnames hash name s.totalChunks now (hpast _ (.flag true) (by rw [hsplit]; simp))
  have hbefore : directoryAfter dir before ≠ [] :=
    directoryAfter_ne_nil hdir fun new created returned hmem =>
      hdirs new created
        (hpast _ (.flag returned) (by rw [hsplit]; exact List.mem_append_left _ hmem))
  refine contained_of_neverClimbs hbefore hname ?_
  rw [← hpath]
  exact htouched call hcall

end Manager

/-- Every run with directories and file names of these kinds stays contained. -/
def RunsContained (dirs names : Bytes → Prop) : Prop :=
  ∀ (Node : Type) [DecidableEq Node] (denote : Bytes → Node) (dir : Bytes) (disk : Disk Node)
    (ops : List Op),
    dirs dir → (∀ new created, .setDownloadDirectory new created ∈ ops → dirs new) →
      (∀ hash name total now, .create hash name total now ∈ ops → names name) →
        CompletionsContained fmt denote dir disk ops

theorem runsContained_of_neverClimbs {dirs names : Bytes → Prop}
    (hdirs : ∀ dir, dirs dir → dir ≠ []) (hnames : ∀ name, names name → NeverClimbs fmt name) :
    RunsContained fmt dirs names := by
  intro Node _ denote dir disk ops hdir hset hcreate
  exact completionsContained_of_neverClimbs fmt denote (hdirs dir hdir) disk
    (fun new created hmem => hdirs new (hset new created hmem))
    fun hash name total now hmem => hnames name (hcreate hash name total now hmem)

/-- A transfer without chunks is complete as soon as it is created. -/
theorem contained_of_runsContained {dirs names : Bytes → Prop} (h : RunsContained fmt dirs names)
    {dir name : Bytes} (hdir : dirs dir) (hname : names name) :
    Contained fmt (cStr dir) (cStr (dir ++ ascii "/" ++ name)) := by
  have hrun := h Bytes id dir (fun _ => none) [.create [] name 0 0, .complete [] {}] hdir (by simp)
    (by
      simp only [List.mem_cons, List.not_mem_nil, or_false]
      rintro hash name' total now (heq | heq)
      · cases heq
        exact hname
      · cases heq)
  have hfind : (after id dir (fun _ => none) [.create [] name 0 0]).manager.find [] =
      some (FileTransferSession.new [] (dir ++ ascii "/" ++ name) 0 0) := by
    simp only [after, Run.final_cons, Run.final_nil, step]
    rw [FileManager.find_createTransferSession, if_pos ⟨rfl, FileManager.find_new _ _⟩]
    rfl
  obtain ⟨r, hr, htouched⟩ := touched_of_complete id
    (after id dir (fun _ => none) [.create [] name 0 0]).disk hfind rfl
  obtain ⟨before, name', total, since, hopen, hcontained⟩ :=
    hrun [.create [] name 0 0] [] {} [] rfl r hr
  obtain ⟨rfl, -⟩ := hopen.unique (Opened.fresh [] [] name 0 0)
  exact hcontained (.openOutput (dir ++ ascii "/" ++ name))
    (by simp [htouched, fileCalls, FileTransferSession.new])

/-! ## A directory that a name does not mention -/

theorem length_le_of_mem_splitOnP {s piece : Bytes} {sep : UInt8 → Bool}
    (h : piece ∈ s.splitOnP sep) :
    piece.length ≤ s.length := by
  induction s generalizing piece with
  | nil => simp_all
  | cons x s ih =>
      rw [List.splitOnP_cons_eq_if_modifyHead] at h
      split at h
      next =>
        rcases List.mem_cons.mp h with rfl | h
        · simp
        · exact (ih h).trans (by simp)
      next =>
        cases hs : s.splitOnP sep with
        | nil => exact (List.splitOnP_ne_nil sep s hs).elim
        | cons y ys =>
            rw [hs, List.modifyHead_cons] at h
            rw [hs] at ih
            rcases List.mem_cons.mp h with rfl | h
            · simpa using ih List.mem_cons_self
            · exact (ih (List.mem_cons_of_mem y h)).trans (by simp)

theorem not_mem_components {s n : Bytes} (h : s.length < n.length) :
    .name n ∉ components fmt s := by
  intro hmem
  obtain ⟨piece, hpiece, heq⟩ := List.mem_map.mp hmem
  have hle := length_le_of_mem_splitOnP hpiece
  simp only [componentOf] at heq
  split at heq
  next => cases heq
  next =>
    split at heq
    next => cases heq
    next =>
      cases heq
      omega

/-- A name longer than `k` that is nothing but letters. -/
def letters (k : Nat) : Bytes := List.replicate (k + 1) 0x61

theorem letters_length (k : Nat) : (letters k).length = k + 1 := List.length_replicate

theorem eq_of_mem_letters {k : Nat} {b : UInt8} (h : b ∈ letters k) : b = 0x61 :=
  List.eq_of_mem_replicate h

theorem place_letters (k : Nat) : place fmt (letters k) = ⟨false, 0, [letters k]⟩ := by
  have hfree : ∀ b ∈ letters k, fmt.separates b = false := by
    intro b hb
    rw [eq_of_mem_letters hb]
    cases fmt <;> rfl
  have hdot : (0x2E : UInt8) ∉ letters k := fun h => absurd (eq_of_mem_letters h) (by decide)
  have hname : componentOf (letters k) = .name (letters k) := by
    rw [componentOf, if_neg, if_neg]
    · intro heq
      exact hdot (heq ▸ by decide)
    · rintro (heq | heq)
      · simpa [heq] using letters_length k
      · exact hdot (heq ▸ by decide)
  have hhead : (letters k).head?.any fmt.separates = false := hfree 0x61 List.mem_cons_self
  rw [place, origin, components, List.splitOnP_eq_singleton hfree, List.map_singleton, hname, hhead]
  rfl

theorem neverClimbs_of_runsContained {names : Bytes → Prop}
    (h : RunsContained fmt (fun dir => dir ≠ []) names) {name : Bytes} (hname : names name) :
    NeverClimbs fmt name := by
  by_contra hclimbs
  have hlen := letters_length name.length
  have hne : letters name.length ≠ [] := by
    intro hnil
    simp [hnil] at hlen
  have hnul : (0 : UInt8) ∉ letters name.length := fun hmem =>
    absurd (eq_of_mem_letters hmem) (by decide)
  have hshort : (cStr name).length < (letters name.length).length := by
    have := (List.takeWhile_prefix (· ≠ 0) (l := name)).length_le
    rw [hlen]
    exact Nat.lt_succ_of_le this
  exact not_contained_of_climbs hne hnul (by rw [place_letters]) (not_mem_components fmt hshort)
    hclimbs (contained_of_runsContained fmt h hne hname)

/-- Joined to the empty directory, every name is absolute. -/
theorem ne_nil_of_runsContained {dirs : Bytes → Prop} (h : RunsContained fmt dirs (NeverClimbs fmt))
    {dir : Bytes} (hdir : dirs dir) : dir ≠ [] := by
  rintro rfl
  have hname : NeverClimbs fmt [] := by cases fmt <;> decide
  have hroot := (contained_of_runsContained fmt h hdir hname).inside.absolute
  cases fmt <;> exact absurd hroot (by decide)

/-! ## Runs of the receive loop -/

section Loop

variable {Node : Type} [DecidableEq Node] (denote : Bytes → Node)

theorem touched_recvFileStep {r : Receiver Node} (h : SavedUnderHash r) {a : Arrival}
    {call : FileCall} (hcall : call ∈ (recvFileStep denote r a).2.touched) :
    ∃ chunk, FileChunk.deserialize 64 {} a.pkg = .ok (true, chunk) ∧
      call ∈ fileCalls (savedAs chunk.fileHash) := by
  rcases deserialize_cases a.pkg with ⟨chunk, hdec⟩ | ⟨chunk, hdec⟩
  · refine ⟨chunk, hdec, ?_⟩
    rw [recvFileStep_accepted denote r hdec] at hcall
    unfold finishSession at hcall
    dsimp only at hcall
    split at hcall
    next =>
      cases hassembly : ((afterAdd r chunk a).fm.completeTransfer denote chunk.fileHash a.env
          (afterAdd r chunk a).disk).assembly with
      | none => simp [hassembly, PacketReport.touched] at hcall
      | some assembly =>
          obtain ⟨s, hs, htouched⟩ := touched_completeTransfer denote hassembly
          rw [hassembly] at hcall
          rw [← (savedUnderHash_afterAdd h chunk a).path _ s hs]
          exact htouched call hcall
    next => simp [PacketReport.touched] at hcall
  · rw [recvFileStep_rejected denote r hdec] at hcall
    simp [PacketReport.touched] at hcall

end Loop

/-- Every run of the loop whose accepted packets have hashes of this kind stays in
the download directory. -/
def LoopContained (hashes : Bytes → Prop) : Prop :=
  ∀ (Node : Type) [DecidableEq Node] (denote : Bytes → Node) (disk : Disk Node)
    (arrivals : List Arrival),
    (∀ a ∈ arrivals, ∀ chunk, FileChunk.deserialize 64 {} a.pkg = .ok (true, chunk) →
      hashes chunk.fileHash) →
      ∀ report ∈ (recvFileLoop denote disk arrivals).2, ∀ call ∈ report.touched,
        Contained fmt downloads (call.path fmt)

theorem cStr_downloads : cStr downloads = downloads := cStr_of_not_mem (by decide)

theorem loopContained_of_neverClimbs {hashes : Bytes → Prop}
    (h : ∀ hash, hashes hash → NeverClimbs fmt (saveName hash)) : LoopContained fmt hashes := by
  intro Node _ denote disk arrivals hhashes report hreport call hcall
  obtain ⟨past, a, rest, hsplit, rfl⟩ := Run.exists_split_of_mem_outputs _ hreport
  have hsaved : SavedUnderHash (Run.final (recvFileStep denote) (startReceiver disk) past) :=
    Run.invariant (recvFileStep denote) (P := SavedUnderHash)
      (fun _ a hr => savedUnderHash_step denote hr a) (savedUnderHash_start disk) past
  obtain ⟨chunk, hdec, hpath⟩ := touched_recvFileStep denote hsaved hcall
  have ha : a ∈ arrivals := by
    have hmem : a ∈ past ++ a :: rest := by simp
    rw [← hsplit] at hmem
    exact (List.takeWhile_sublist _).subset hmem
  rw [← cStr_downloads]
  exact contained_of_neverClimbs (by decide) (h _ (hhashes a ha chunk hdec)) hpath

def loneChunk (hash : Bytes) : Arrival := { pkg := (chunkAt hash [[]] 0 []).serialize }

theorem deserialize_loneChunk {hash : Bytes} (hlen : hash.length < 2 ^ 32) :
    FileChunk.deserialize 64 {} (loneChunk hash).pkg = .ok (true, chunkAt hash [[]] 0 []) :=
  deserialize_chunkAt {} hlen [[]] 0 (by decide)

theorem loneChunk_ne_nil (hash : Bytes) : (loneChunk hash).pkg ≠ [] :=
  FileChunk.serialize_ne_nil _

theorem touched_loneChunk {hash : Bytes} (hlen : hash.length < 2 ^ 32) :
    ∃ report ∈ (recvFileLoop id (fun _ => none) [loneChunk hash]).2,
      report.touched = fileCalls (savedAs hash) := by
  have hidle : Idle (startReceiver (fun _ : Bytes => none)) hash :=
    ⟨FileManager.find_new _ _, by simp [startReceiver]⟩
  obtain ⟨-, s, hfind, hfill⟩ := busy_afterAdd (r := startReceiver fun _ : Bytes => none) rfl
    (by decide) (Or.inl ⟨hidle, fun _ _ => id⟩ : Waiting _ hash [[]] fun _ => False)
    (show [([] : Bytes)][0]? = some [] from rfl) (loneChunk hash)
  have hall : ∀ j, j < [([] : Bytes)].length → False ∨ j = 0 := by
    intro j hj
    rw [List.length_singleton] at hj
    omega
  have hcomplete := (FileManager.isTransferComplete_iff hfind hfill (by decide)).mpr hall
  obtain ⟨s', hfind', hc⟩ := (FileManager.isTransferComplete_eq_true_iff _ _).mp hcomplete
  obtain rfl : s' = s := Option.some.inj (hfind'.symm.trans hfind)
  obtain ⟨r, hr, htouched⟩ := touched_of_complete id (afterAdd (startReceiver fun _ => none)
    (chunkAt hash [[]] 0 []) (loneChunk hash)).disk hfind hc
  refine ⟨(recvFileStep id (startReceiver fun _ => none) (loneChunk hash)).2, ?_, ?_⟩
  · simp [recvFileLoop, loneChunk_ne_nil, Run.exec]
  · rw [recvFileStep_accepted id _ (deserialize_loneChunk hlen),
      show (chunkAt hash [[]] 0 []).fileHash = hash from rfl]
    simp only [finishSession, hcomplete, if_true]
    rw [show (loneChunk hash).env = {} from rfl, hr, PacketReport.touched, htouched, hfill.path_eq]

theorem neverClimbs_of_loopContained {hash : Bytes} (hlen : hash.length < 2 ^ 32)
    (hown : .name (ascii "downloads") ∉ components fmt (cStr (saveName hash)))
    (h : LoopContained fmt (· = hash)) : NeverClimbs fmt (saveName hash) := by
  by_contra hclimbs
  obtain ⟨report, hreport, htouched⟩ := touched_loneChunk hlen
  have hhash : ∀ a ∈ [loneChunk hash], ∀ chunk,
      FileChunk.deserialize 64 {} a.pkg = .ok (true, chunk) → chunk.fileHash = hash := by
    intro a ha chunk hdec
    rw [List.mem_singleton.mp ha, deserialize_loneChunk hlen] at hdec
    cases hdec
    rfl
  have hpath := h Bytes id (fun _ => none) [loneChunk hash] hhash report hreport
    (.openOutput (savedAs hash)) (by simp [htouched, fileCalls])
  have hplace : (place fmt downloads).names = [ascii "downloads"] := by cases fmt <;> decide
  refine not_contained_of_climbs (by decide) (by decide) hplace hown hclimbs ?_
  rw [cStr_downloads]
  exact hpath

/-- On file systems of either kind, received files stay in the download directory as
long as it is not the empty path and no name climbs. For the manager no other names
are safe in every directory, and no other directories for every such name; for the
loop, a hash that climbs leads out unless it names `downloads` again. -/
theorem containment (dirs names hashes : Bytes → Prop) (hash : Bytes) :
    (RunsContained fmt (fun dir => dir ≠ []) names ↔
        ∀ name, names name → NeverClimbs fmt name) ∧
      (RunsContained fmt dirs (NeverClimbs fmt) ↔ ∀ dir, dirs dir → dir ≠ []) ∧
      ((∀ hash, hashes hash → NeverClimbs fmt (saveName hash)) → LoopContained fmt hashes) ∧
      (hash.length < 2 ^ 32 →
        .name (ascii "downloads") ∉ components fmt (cStr (saveName hash)) →
          LoopContained fmt (· = hash) → NeverClimbs fmt (saveName hash)) := by
  refine ⟨⟨fun h name => ?_, fun h => ?_⟩, ⟨fun h dir => ?_, fun h => ?_⟩, fun h => ?_,
    fun hlen hown h => ?_⟩
  · exact neverClimbs_of_runsContained fmt h
  · exact runsContained_of_neverClimbs fmt (fun _ hdir => hdir) h
  · exact ne_nil_of_runsContained fmt h
  · exact runsContained_of_neverClimbs fmt h fun _ hname => hname
  · exact loopContained_of_neverClimbs fmt h
  · exact neverClimbs_of_loopContained fmt hlen hown h

/-- The hash `../evil` leads to a file beside the download directory. -/
theorem evil_hash_leads_out :
    ¬∀ arrivals, ∀ report ∈ (recvFileLoop id (fun _ => none) arrivals).2, ∀ call ∈ report.touched,
      Inside (place .posix downloads) (place .posix (call.path .posix)) := by
  intro h
  have hlen : (ascii "../evil").length < 2 ^ 32 := by decide
  obtain ⟨report, hreport, htouched⟩ := touched_loneChunk hlen
  have hinside := h _ report hreport (.openOutput (savedAs (ascii "../evil")))
    (by simp [htouched, fileCalls])
  exact absurd hinside.names (by decide)

end EggDelivery
