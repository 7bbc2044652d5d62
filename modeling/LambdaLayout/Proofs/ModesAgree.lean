import LambdaLayout.Proofs.Reporting
import LambdaLayout.Proofs.RunFrame

/-!
What the modes have in common. The mode decides only where the layout of a source goes, so on
different files the runs in all modes count the same changes and failures. What one mode prints is
what another one leaves in the files, and the exit status of a run that changes nothing tells what a
run in place would change.
-/

namespace LambdaLayout

open FileSystem (Apart)

/-- Whether the source changed or what went wrong decides on the numbers of a report. -/
theorem Report.IsExact.summary_eq {first second : Report} {outcomes others : List Outcome}
    (left : first.IsExact outcomes) (right : second.IsExact others)
    (same : outcomes.map Outcome.result = others.map Outcome.result) :
    first.summary = second.summary := by
  have counted : ∀ holds : Except Trouble Bool → Bool,
      (outcomes.countP fun outcome => holds outcome.result) =
        others.countP fun outcome => holds outcome.result := by
    intro holds
    have mapped := congrArg (List.countP holds) same
    rwa [List.countP_map, List.countP_map] at mapped
  have length := congrArg List.length same
  rw [List.length_map, List.length_map] at length
  have failure : ∀ outcome : Outcome, outcome.trouble?.isSome = !outcome.result.isOk := by
    rintro ⟨origin, printed, result, request⟩
    cases result <;> rfl
  have failures := counted fun result => !result.isOk
  simp only [← failure] at failures
  have jobs := (left.jobs.trans length).trans right.jobs.symm
  have changed := (left.changed.trans (counted fun result => result.toOption = some true)).trans
    right.changed.symm
  have failed := (left.failed.trans failures).trans right.failed.symm
  show Summary.mk first.summary.jobs first.summary.changed first.summary.failed = second.summary
  rw [jobs, changed, failed]

/-- The exit status is one where a change is to be told of and nothing failed. -/
theorem Summary.exitCode_one {summary : Summary} {mode : Mode}
    (tells : mode.reportsChanges = true) :
    summary.exitCode mode = 1 ↔ summary.failed = 0 ∧ 0 < summary.changed := by
  rw [exitCode, tells, Bool.and_true]
  by_cases failed : 0 < summary.failed
  · rw [if_pos failed]
    omega
  · rw [if_neg failed]
    by_cases changed : 0 < summary.changed
    · simp [changed]
      omega
    · simp [changed]

namespace Job

variable {options : Options} {backend : Backend} {input : Except Text Bytes} {files : FileSystem}
  {path : Text}

/-- Whatever is to be written in place to a file of the run can be written. -/
def Writable (options : Options) (backend : Backend) (files : FileSystem) : Prop :=
  ∀ path ∈ options.files, ∀ content bytes, files.read path = .ok content →
    rewritten? options backend content = some bytes → ∃ after, files.write path bytes = .ok after

/-- The run in a mode. -/
def Setting.inMode (setting : Setting) (mode : Mode) : Setting :=
  { setting with options := { setting.options with mode := mode } }

/-- A job on a file fails in all modes for one reason. -/
def Fails (setting : Setting) (files : FileSystem) (path : Text) : Prop :=
  ∃ trouble, ∀ mode, ((Stage.waiting (.file path)).complete (setting.inMode mode) files).1.result =
    .error trouble

/-- A job on a file finds one layout in all modes. It is what is printed, and what the file holds
after it was laid out in place. -/
structure LaysOut (setting : Setting) (files : FileSystem) (path source code : Text) : Prop where
  result : ∀ mode, ((Stage.waiting (.file path)).complete (setting.inMode mode) files).1.result =
    .ok (code != source)
  before : files.read path = .ok (Utf8.encode source)
  printed : ((Stage.waiting (.file path)).complete (setting.inMode .print) files).1.printed =
    Utf8.encode code
  written : ((Stage.waiting (.file path)).complete (setting.inMode .inPlace) files).2.read path =
    .ok (Utf8.encode code)

section Deliver

variable {document : Document} {work : Work} {code : Text}

/-- A layout that can be delivered is compared with the source in every mode. -/
theorem deliver_result (file : document.origin = .file path) (laid : work.code = .ok code)
    (writable : code ≠ document.source → ∃ after, files.write path (Utf8.encode code) = .ok after) :
    (deliver document work files).1.result = .ok (document.isChanged code) := by
  simp only [deliver, laid, Document.write]
  cases task : document.delivery code with
  | nothing => rfl
  | print bytes => rfl
  | overwrite own bytes =>
    obtain ⟨-, origin, changed, rfl⟩ := Document.delivery_overwrite.mp task
    cases file.symm.trans origin
    obtain ⟨after, written⟩ := writable changed
    simp only [Delivery.perform, written]

theorem deliver_printed (mode : document.mode = .print) (laid : work.code = .ok code) :
    (deliver document work files).1.printed = Utf8.encode code := by
  have task : document.delivery code = .print (Utf8.encode code) := by
    rw [Document.delivery, mode]
  simp only [deliver, laid, Document.write, task]
  rfl

/-- In place a file holds the layout afterwards, whether it had to be written or not. -/
theorem deliver_written (mode : document.mode = .inPlace) (file : document.origin = .file path)
    (laid : work.code = .ok code) (read : files.read path = .ok (Utf8.encode document.source))
    (writable : code ≠ document.source → ∃ after, files.write path (Utf8.encode code) = .ok after) :
    (deliver document work files).2.read path = .ok (Utf8.encode code) := by
  have result := deliver_result file laid writable
  by_cases same : code = document.source
  · have kept : (deliver document work files).2 = files := by
      apply deliver_unchanged
      rw [result, Document.isChanged, same, bne_self_eq_false]
      simp
    rw [kept, read, same]
  · have task : document.delivery code = .overwrite path (Utf8.encode code) :=
      Document.delivery_overwrite.mpr ⟨mode, file, same, rfl⟩
    obtain ⟨after, written⟩ := writable same
    simp only [deliver, laid, Document.write, task, Delivery.perform, written]
    exact FileSystem.read_of_write read written

end Deliver

/-- A job on a file does the same in all modes until it delivers. -/
theorem fails_or_lays_out (setting : Setting) (files : FileSystem) (path : Text)
    (writable : ∀ content bytes, files.read path = .ok content →
      rewritten? setting.options setting.backend content = some bytes →
        ∃ after, files.write path bytes = .ok after) :
    Fails setting files path ∨ ∃ source code, LaysOut setting files path source code := by
  cases read : files.read path with
  | error fault =>
    refine .inl ⟨.read path fault.message, fun mode => ?_⟩
    simp only [Stage.complete, load, Document.ofFile, read]
    rfl
  | ok content =>
    cases decoded : Utf8.decode content with
    | error flaw =>
      refine .inl ⟨.decode path flaw, fun mode => ?_⟩
      simp only [Stage.complete, load, Document.ofFile, read, Document.ofBytes, decoded]
      rfl
    | ok source =>
      have loaded : ∀ mode, load (setting.inMode mode) files (.file path) =
          .ok ⟨.file path, mode, source, []⟩ := by
        intro mode
        simp only [load, Document.ofFile, read, Document.ofBytes, decoded]
        rfl
      -- The backend is asked about the source, and neither it nor the layout depends on the mode.
      have alone : ∀ mode, (Stage.waiting (.file path)).complete (setting.inMode mode) files =
          deliver ⟨.file path, mode, source, []⟩
            (work setting.options setting.backend ⟨.file path, .print, source, []⟩) files := by
        intro mode
        rw [Stage.complete, loaded mode]
        rfl
      cases laid : (work setting.options setting.backend ⟨.file path, .print, source, []⟩).code with
      | error trouble =>
        refine .inl ⟨trouble, fun mode => ?_⟩
        simp only [alone, deliver, laid]
      | ok code =>
        have may : code ≠ source → ∃ after, files.write path (Utf8.encode code) = .ok after :=
          fun changed => writable content _ read (rewritten_of_work decoded laid changed)
        have before : files.read path = .ok (Utf8.encode source) := by
          rw [read, Utf8.encode_decode decoded]
        refine .inr ⟨source, code, fun mode => ?_, before, ?_, ?_⟩
        · rw [alone]
          exact deliver_result rfl laid may
        · rw [alone]
          exact deliver_printed rfl laid
        · rw [alone]
          exact deliver_written rfl rfl laid before may

/-- Jobs that report no change have left all files as they were. -/
theorem complete_all_unchanged {setting : Setting} {jobs : List Stage}
    (same : ∀ outcome ∈ (completeAll setting jobs files).1, outcome.result ≠ .ok true) :
    (completeAll setting jobs files).2 = files := by
  induction jobs generalizing files with
  | nil => rfl
  | cons stage rest ih =>
    have kept : (stage.complete setting files).2 = files :=
      Stage.complete_unchanged (same _ List.mem_cons_self)
    have later := ih fun outcome mem => same outcome (List.mem_cons_of_mem _ mem)
    exact later.trans kept

section Modes

variable (backend input) (named : options.files ≠ [])
  (distinct : options.files.Pairwise (Apart files)) (writable : Writable options backend files)

include named distinct

/-- In each mode a job on one of several different files does what it would do alone. -/
theorem outcomes_in_mode (mode : Mode) :
    let setting : Setting := ⟨options, backend, input⟩
    let run := Run.outcomes { options with mode := mode } backend input files
    run.1 = (options.files.map fun path =>
        ((Stage.waiting (.file path)).complete (setting.inMode mode) files).1) ∧
      ∀ path ∈ options.files, run.2.read path =
        ((Stage.waiting (.file path)).complete (setting.inMode mode) files).2.read path := by
  intro setting run
  have sources : origins { options with mode := mode } = options.files.map .file :=
    origins_of_files named
  have orderly : Orderly ⟨(options.files.map Origin.file).map .waiting, files⟩ := by
    rw [← sources]
    exact Orderly.start distinct
  have whole : run = completeAll (setting.inMode mode)
      ((options.files.map Origin.file).map .waiting) files := by
    rw [← sources]
    exact outcomes_eq { options with mode := mode } backend input distinct
  obtain ⟨outcomes, reads⟩ : (completeAll (setting.inMode mode) _ files).1 = _ ∧ _ :=
    complete_all_apart orderly
  rw [whole]
  constructor
  · rw [outcomes, List.map_map, List.map_map]
    rfl
  · intro path mem
    refine reads (.waiting (.file path)) ?_ path rfl
    exact List.mem_map_of_mem (List.mem_map_of_mem mem)

include writable

/-- What came of each file is the same in all modes. -/
theorem results_agree (mode other : Mode) :
    (Run.outcomes { options with mode := mode } backend input files).1.map Outcome.result =
      (Run.outcomes { options with mode := other } backend input files).1.map Outcome.result := by
  obtain ⟨first, -⟩ := outcomes_in_mode backend input named distinct mode
  obtain ⟨second, -⟩ := outcomes_in_mode backend input named distinct other
  rw [first, second, List.map_map, List.map_map]
  refine List.map_congr_left fun path mem => ?_
  rcases fails_or_lays_out ⟨options, backend, input⟩ files path (writable path mem) with
    ⟨trouble, fails⟩ | ⟨source, code, lays⟩
  · exact (fails mode).trans (fails other).symm
  · exact (lays.result mode).trans (lays.result other).symm

/-- A run in place changes some file exactly if it reports a change. -/
theorem changes_iff :
    let run := Run.outcomes { options with mode := .inPlace } backend input files
    (∃ place, FileSystem.entry? run.2 place ≠ files.entry? place) ↔
      ∃ outcome ∈ run.1, outcome.result = .ok true := by
  intro run
  constructor
  · rintro ⟨place, differs⟩
    by_contra none
    have whole : run = _ := outcomes_eq { options with mode := .inPlace } backend input distinct
    have kept : run.2 = files := by
      have same : ∀ outcome ∈ run.1, outcome.result ≠ .ok true :=
        fun outcome mem changed => none ⟨outcome, mem, changed⟩
      rw [whole] at same
      rw [whole]
      exact complete_all_unchanged same
    exact differs (by rw [kept])
  · rintro ⟨outcome, mem, changed⟩
    by_contra none
    obtain ⟨outcomes, reads⟩ := outcomes_in_mode backend input named distinct .inPlace
    rw [outcomes] at mem
    obtain ⟨path, among, rfl⟩ := List.mem_map.mp mem
    have same : ∀ place, FileSystem.entry? run.2 place = files.entry? place :=
      fun place => not_not.mp fun differs => none ⟨place, differs⟩
    rcases fails_or_lays_out ⟨options, backend, input⟩ files path (writable path among) with
      ⟨trouble, fails⟩ | ⟨source, code, lays⟩
    · cases (fails .inPlace).symm.trans changed
    · have differs : (code != source) = true :=
        Except.ok.inj ((lays.result .inPlace).symm.trans changed)
      have read := (FileSystem.read_congr same path).symm.trans
        ((reads path among).trans lays.written)
      have bytes := Except.ok.inj (lays.before.symm.trans read)
      exact bne_iff_ne.mp differs (Utf8.encode_inj bytes).symm

/-- What a job prints is what its file holds after the run in place. -/
theorem printed_is_written {outcome : Outcome}
    (mem : outcome ∈ (Run.outcomes { options with mode := .print } backend input files).1)
    (well : outcome.trouble? = none) :
    (Run.outcomes { options with mode := .inPlace } backend input files).2.read outcome.origin =
      .ok outcome.printed := by
  obtain ⟨outcomes, -⟩ := outcomes_in_mode backend input named distinct .print
  obtain ⟨-, reads⟩ := outcomes_in_mode backend input named distinct .inPlace
  rw [outcomes] at mem
  obtain ⟨path, among, rfl⟩ := List.mem_map.mp mem
  rcases fails_or_lays_out ⟨options, backend, input⟩ files path (writable path among) with
    ⟨trouble, fails⟩ | ⟨source, code, lays⟩
  · rw [Outcome.trouble?, fails] at well
    cases well
  · rw [Stage.complete_name, lays.printed]
    exact (reads path among).trans lays.written

end Modes

/-- If all that is written in the four modes is taken, the runs on different files agree. They
count the same jobs, changes and failures. What is printed in one mode are, one after the other, the
contents that the files of the successful jobs have after the run in place. And a run that only tells
of changes ends with the status for them exactly if no job fails and the run in place changes a
file. -/
theorem modes_agree (options : Options) (backend : Backend) (input : Except Text Bytes)
    (files : FileSystem) (sink : Sink) (named : options.files ≠ [])
    (distinct : options.files.Pairwise (Apart files)) (writable : Writable options backend files)
    (taken : ∀ mode, ∀ outcome ∈
      (Run.outcomes { options with mode := mode } backend input files).1,
        sink.write outcome.printed = .ok outcome.printed) :
    let run (mode : Mode) := Run.outcomes { options with mode := mode } backend input files
    let report (mode : Mode) := Report.ofOutcomes sink (run mode).1
    let after := (run .inPlace).2
    (∀ mode, (run mode).1.map Outcome.origin = options.files) ∧
      (∀ mode other, (report mode).summary = (report other).summary) ∧
      (∃ contents : List Bytes,
        ((run .print).1.filter fun outcome => outcome.trouble?.isNone).map
          (fun outcome => after.read outcome.origin) = contents.map .ok ∧
        (report .print).output = contents.flatten) ∧
      ∀ mode, mode = .quiet ∨ mode = .diff → ((report mode).summary.exitCode mode = 1 ↔
        (∀ outcome ∈ (run mode).1, outcome.trouble? = none) ∧
          ∃ place, after.entry? place ≠ files.entry? place) := by
  intro run report after
  have told : ∀ mode, (run mode).1.map Outcome.origin = options.files ∧
      ∀ outcome ∈ (run mode).1, outcome.Silent := by
    intro mode
    have ends : Ends ⟨{ options with mode := mode }, backend, input⟩ files _ _ :=
      outcomes_reaches { options with mode := mode } backend input files
    exact ⟨ends.named.1.trans (names_of_files named), ends.named.2⟩
  have exactly : ∀ mode, (report mode).IsExact (run mode).1 :=
    fun mode => Report.of_outcomes_exact (taken mode) (told mode).2
  refine ⟨fun mode => (told mode).1, fun mode other => ?_, ?_, fun mode only => ?_⟩
  · exact (exactly mode).summary_eq (exactly other)
      (results_agree backend input named distinct writable mode other)
  · let succeeded := (run .print).1.filter fun outcome => outcome.trouble?.isNone
    refine ⟨succeeded.map Outcome.printed, ?_, ?_⟩
    · rw [List.map_map]
      refine List.map_congr_left fun outcome mem => ?_
      obtain ⟨among, well⟩ := List.mem_filter.mp mem
      exact printed_is_written backend input named distinct writable among
        (Option.isNone_iff_eq_none.mp well)
    · rw [(exactly .print).output, List.flatMap_def]
  · have tells : mode.reportsChanges = true := by
      rcases only with rfl | rfl <;> rfl
    rw [Summary.exitCode_one tells, (exactly mode).failed, (exactly mode).changed,
      List.countP_eq_zero, List.countP_pos_iff]
    refine and_congr ?_ ?_
    · simp
    · refine Iff.trans ?_ (changes_iff backend input named distinct writable).symm
      have reported : ∀ mode, (∃ outcome ∈ (run mode).1, outcome.result = .ok true) ↔
          .ok true ∈ (run mode).1.map Outcome.result := fun mode => List.mem_map.symm
      rw [reported, ← results_agree backend input named distinct writable mode .inPlace, ← reported]
      refine exists_congr fun outcome => and_congr_right fun _ => ?_
      cases outcome.result <;> simp [Except.toOption]

/-- A run on two files. -/
private def twoOptions : Options where
  files := ["a.py".toList, "b.py".toList]

/-- The first file is to be laid out, and the second one is as it is to be. -/
private def twoFiles : FileSystem where
  entries :=
    [(["a.py".toList], .file (Utf8.encode "f = def_(lambda: [a])\n".toList) false),
      (["b.py".toList], .file (Utf8.encode ['b']) false)]

theorem modes_agree_two :
    let run (mode : Mode) :=
      Run.outcomes { twoOptions with mode := mode } Backend.none (.ok []) twoFiles
    let report (mode : Mode) := Report.ofOutcomes { } (run mode).1
    (∀ mode, (report mode).summary = ⟨2, 1, 0⟩) ∧ (report .quiet).summary.exitCode .quiet = 1 ∧
      FileSystem.entry? (run .inPlace).2 ["a.py".toList] =
        some (.file (Utf8.encode "f = def_(lambda: [\n    a\n])\n".toList) false) := by
  intro run report
  have distinct : twoOptions.files.Pairwise (Apart twoFiles) := by decide +kernel
  have writable : Writable twoOptions Backend.none twoFiles := by
    intro path among content bytes _ _
    simp only [twoOptions, List.mem_cons, List.not_mem_nil, or_false] at among
    rcases among with rfl | rfl <;> exact ⟨_, rfl⟩
  obtain ⟨-, summaries, -, status⟩ := modes_agree twoOptions Backend.none (.ok []) twoFiles { }
    (by decide) distinct writable fun _ _ _ => rfl
  have quiet : (report .quiet).summary = ⟨2, 1, 0⟩ ∧
      ∀ outcome ∈ (run .quiet).1, outcome.trouble? = none := by decide +kernel
  have written : FileSystem.entry? (run .inPlace).2 ["a.py".toList] =
      some (.file (Utf8.encode "f = def_(lambda: [\n    a\n])\n".toList) false) := by
    decide +kernel
  refine ⟨fun mode => (summaries mode .quiet).trans quiet.1, ?_, written⟩
  refine (status .quiet (.inl rfl)).mpr ⟨quiet.2, ["a.py".toList], ?_⟩
  rw [written]
  decide +kernel

end Job

end LambdaLayout
