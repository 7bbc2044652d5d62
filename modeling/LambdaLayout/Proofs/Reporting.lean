import Mathlib.Data.List.InsertIdx
import LambdaLayout.Proofs.Interleaving

/-!
What a run says of its jobs. Each job is counted, and either what it printed is passed on or a line
tells what went wrong with it. A job that fails prints nothing and leaves the files as they are, so
without it the other jobs would have done the same.
-/

namespace LambdaLayout

open FileSystem (Apart)

namespace Outcome

/-- What went wrong with the job by itself. -/
def trouble? (outcome : Outcome) : Option Trouble :=
  match outcome.result with
  | .ok _ => none
  | .error trouble => some trouble

/-- The outcome where nothing can be printed, for a reason. A job that prints nothing does not
notice. -/
def refused (reason : Text) (outcome : Outcome) : Outcome :=
  if outcome.printed = [] then outcome
  else { outcome with printed := [], result := .error (.write "stdout".toList reason) }

/-- A job that failed by itself printed nothing. -/
def Silent (outcome : Outcome) : Prop := outcome.trouble?.isSome → outcome.printed = []

variable {outcome : Outcome}

theorem failed_unchanged (failed : outcome.trouble?.isSome) : outcome.result ≠ .ok true := by
  intro changed
  rw [trouble?, changed] at failed
  cases failed

theorem refused_silent (reason : Text) : (outcome.refused reason).Silent := by
  intro _
  by_cases nothing : outcome.printed = []
  · rw [refused, if_pos nothing, nothing]
  · rw [refused, if_neg nothing]

end Outcome

/-- The report tells of each job what came of it, in the order of the jobs. -/
structure Report.IsExact (report : Report) (outcomes : List Outcome) : Prop where
  /-- What was printed by the jobs that succeeded. -/
  output : report.output =
    (outcomes.filter fun outcome => outcome.trouble?.isNone).flatMap Outcome.printed
  /-- A line for each job that failed. -/
  errors : report.errors = (outcomes.filterMap Outcome.trouble?).flatMap fun trouble =>
    "lxfmt: ".toList ++ trouble.message ++ "\n".toList
  jobs : report.summary.jobs = outcomes.length
  changed : report.summary.changed =
    outcomes.countP fun outcome => outcome.result.toOption = some true
  failed : report.summary.failed = outcomes.countP fun outcome => outcome.trouble?.isSome

namespace Report

variable {sink : Sink} {outcome : Outcome} {outcomes others : List Outcome} {first second : Report}

theorem IsExact.append (left : first.IsExact outcomes) (right : second.IsExact others) :
    (first.append second).IsExact (outcomes ++ others) where
  output := by simp [Report.append, left.output, right.output]
  errors := by simp [Report.append, left.errors, right.errors]
  jobs := by simp [Report.append, left.jobs, right.jobs]
  changed := by simp [Report.append, left.changed, right.changed]
  failed := by simp [Report.append, left.failed, right.failed]

/-- The report on a job whose output is taken. -/
theorem of_outcome_exact (taken : sink.write outcome.printed = .ok outcome.printed)
    (silent : outcome.Silent) : (ofOutcome sink outcome).IsExact [outcome] := by
  obtain ⟨origin, printed, result, request⟩ := outcome
  rw [ofOutcome, taken]
  cases result with
  | error trouble =>
    have nothing : printed = [] := silent rfl
    exact {
      output := nothing
      errors := (List.append_nil _).symm
      jobs := rfl
      changed := rfl
      failed := rfl }
  | ok changed =>
    exact {
      output := (List.append_nil printed).symm
      errors := rfl
      jobs := rfl
      changed := by cases changed <;> rfl
      failed := rfl }

theorem of_outcomes_exact
    (taken : ∀ outcome ∈ outcomes, sink.write outcome.printed = .ok outcome.printed)
    (silent : ∀ outcome ∈ outcomes, outcome.Silent) :
    (ofOutcomes sink outcomes).IsExact outcomes := by
  induction outcomes with
  | nil => exact ⟨rfl, rfl, rfl, rfl, rfl⟩
  | cons outcome rest ih =>
    have later := ih (fun other mem => taken other (List.mem_cons_of_mem _ mem))
      (fun other mem => silent other (List.mem_cons_of_mem _ mem))
    exact (of_outcome_exact (taken outcome List.mem_cons_self)
      (silent outcome List.mem_cons_self)).append later

/-- Where nothing can be printed, the jobs that print something fail. -/
theorem of_outcomes_refused (reason : Text) (outcomes : List Outcome) :
    ofOutcomes ⟨some reason⟩ outcomes = ofOutcomes { } (outcomes.map (Outcome.refused reason)) := by
  have single : ∀ outcome,
      ofOutcome ⟨some reason⟩ outcome = ofOutcome { } (outcome.refused reason) := by
    rintro ⟨origin, printed, result, request⟩
    cases printed <;> rfl
  induction outcomes with
  | nil => rfl
  | cons outcome rest ih => rw [ofOutcomes, List.map_cons, ofOutcomes, single, ih]

theorem count_refused (reason : Text) (silent : ∀ outcome ∈ outcomes, outcome.Silent) :
    ((outcomes.map (Outcome.refused reason)).countP fun outcome => outcome.trouble?.isSome) =
      (outcomes.countP fun outcome => outcome.trouble?.isSome) +
        outcomes.countP fun outcome => outcome.printed ≠ [] := by
  induction outcomes with
  | nil => rfl
  | cons outcome rest ih =>
    have later := ih fun other mem => silent other (List.mem_cons_of_mem _ mem)
    rw [List.map_cons, List.countP_cons, List.countP_cons, List.countP_cons, later]
    by_cases nothing : outcome.printed = []
    · have same : outcome.refused reason = outcome := if_pos nothing
      rw [same, if_neg (by simp [nothing] : ¬ decide (outcome.printed ≠ []) = true)]
      omega
    · have fails : (outcome.refused reason).trouble?.isSome = true := by
        rw [Outcome.refused, if_neg nothing]
        rfl
      have well : ¬ outcome.trouble?.isSome = true :=
        fun failed => nothing (silent outcome List.mem_cons_self failed)
      rw [if_pos fails, if_neg well, if_pos (decide_eq_true nothing)]
      omega

end Report

namespace Job

variable {setting : Setting} {files after : FileSystem} {stage : Stage} {jobs : List Stage}

/-- A job that fails prints nothing. -/
theorem deliver_silent (document : Document) (work : Work) (files : FileSystem) :
    (deliver document work files).1.Silent := by
  intro failed
  rw [deliver] at failed ⊢
  split at failed
  · rfl
  · split at failed
    · rfl
    · cases failed

/-- A job that reports no change leaves the files as they are. -/
theorem deliver_unchanged {document : Document} {work : Work}
    (same : (deliver document work files).1.result ≠ .ok true) :
    (deliver document work files).2 = files := by
  rcases deliver_cases document work files with ⟨_, _, -, -, -, -, -, reported⟩ | ⟨kept, -⟩
  · rw [reported] at same
    exact absurd rfl same
  · exact kept

theorem deliver_name (document : Document) (work : Work) (files : FileSystem) :
    (deliver document work files).1.origin = document.name := by
  rw [deliver]
  split
  · rfl
  · split <;> rfl

namespace Stage

/-- The name of the source in the messages. -/
def name : Stage → Text
  | waiting origin => origin.name
  | loaded origin _ => origin.name
  | laidOut document _ => document.name
  | done outcome => outcome.origin

/-- If the job is done and failed, it printed nothing. -/
def Silent : Stage → Prop
  | done outcome => outcome.Silent
  | _ => True

theorem advance_name (ready : stage.Ready files) :
    (stage.advance setting files).1.name = stage.name := by
  cases stage with
  | waiting origin => rfl
  | loaded origin document =>
    cases document with
    | error trouble => rfl
    | ok document => exact congrArg Origin.name (ready document rfl).1
  | laidOut document work => exact deliver_name document work files
  | done outcome => rfl

theorem advance_silent (silent : stage.Silent) : (stage.advance setting files).1.Silent := by
  cases stage with
  | waiting origin => trivial
  | loaded origin document =>
    cases document with
    | error trouble => exact fun _ => rfl
    | ok document => trivial
  | laidOut document work => exact deliver_silent document work files
  | done outcome => exact silent

/-- A job that reports no change in the end never changed a file. -/
theorem complete_unchanged (same : (stage.complete setting files).1.result ≠ .ok true) :
    (stage.complete setting files).2 = files := by
  have finished : ∀ origin document,
      (finish setting.options setting.backend origin document files).1.result ≠ .ok true →
        (finish setting.options setting.backend origin document files).2 = files := by
    intro origin document same
    cases document with
    | error trouble => rfl
    | ok document => exact deliver_unchanged same
  cases stage with
  | waiting origin => exact finished _ _ same
  | loaded origin document => exact finished _ _ same
  | laidOut document work => exact deliver_unchanged same
  | done outcome => rfl

theorem complete_name (setting : Setting) (files : FileSystem) (origin : Origin) :
    ((waiting origin).complete setting files).1.origin = origin.name := by
  show (finish setting.options setting.backend _ (load setting files origin) files).1.origin = _
  cases loaded : load setting files origin with
  | error trouble => rfl
  | ok document => exact (deliver_name document _ files).trans (congrArg _ (load_ok loaded).1)

/-- Laying out the standard input changes no file. -/
theorem complete_input (setting : Setting) (files : FileSystem) :
    ((waiting .input).complete setting files).2 = files := by
  show (finish setting.options setting.backend _ (load setting files .input) files).2 = files
  cases loaded : load setting files .input with
  | error trouble => rfl
  | ok document =>
    obtain ⟨own, -⟩ := load_ok loaded
    rcases deliver_cases document (work setting.options setting.backend document) files with
      ⟨path, -, -, file, -⟩ | ⟨same, -⟩
    · rw [own] at file
      cases file
    · exact same

end Stage

/-- The jobs go by the names of their sources, and those that failed printed nothing. -/
structure Named (start now : Moment) : Prop where
  ready : ∀ stage ∈ now.jobs, stage.Ready now.files
  names : now.jobs.map Stage.name = start.jobs.map Stage.name
  silent : ∀ stage ∈ now.jobs, stage.Silent

theorem Named.advances {start now next : Moment} {index : Nat} (named : Named start now)
    (advances : Advances setting index now next) : Named start next := by
  have ready := ready_advances named.ready advances
  cases advances with
  | @step stage here unfinished =>
    have mem := List.mem_of_getElem? here
    refine ⟨ready, ?_, fun other among => ?_⟩
    · obtain ⟨inside, is⟩ := List.getElem?_eq_some_iff.mp here
      rw [List.map_set, Stage.advance_name (named.ready stage mem), ← named.names, ← is,
        ← List.getElem_map Stage.name, List.set_getElem_self]
      simpa using inside
    · rcases List.mem_or_eq_of_mem_set among with before | rfl
      · exact named.silent other before
      · exact Stage.advance_silent (named.silent stage mem)

theorem named_of_reaches {options : Options} {now : Moment}
    (reaches : Reaches setting (.start options files) now) : Named (.start options files) now := by
  induction reaches with
  | refl =>
    refine ⟨fun stage mem => ?_, rfl, fun stage mem => ?_⟩ <;>
    · obtain ⟨origin, -, rfl⟩ := List.mem_map.mp mem
      trivial
  | tail _ step ih =>
    obtain ⟨index, advances⟩ := step
    exact ih.advances advances

/-- Without a job that fails the others end as they did with it. -/
theorem complete_all_erase {index : Nat} {outcome : Outcome}
    (here : (completeAll setting jobs files).1[index]? = some outcome)
    (failed : outcome.trouble?.isSome) :
    completeAll setting (jobs.eraseIdx index) files =
      ((completeAll setting jobs files).1.eraseIdx index, (completeAll setting jobs files).2) := by
  induction jobs generalizing index files with
  | nil => cases here
  | cons stage rest ih =>
    cases index with
    | zero =>
      cases here
      have kept := Stage.complete_unchanged (Outcome.failed_unchanged failed)
      simp only [List.eraseIdx_cons_zero, completeAll, kept]
    | succ index =>
      have later : completeAll setting (rest.eraseIdx index) (stage.complete setting files).2 = _ :=
        ih here
      simp only [List.eraseIdx_cons_succ, completeAll, later]

/-- All jobs of a run are done, whatever the order in which they did their steps. -/
def Ends (setting : Setting) (files : FileSystem) (outcomes : List Outcome) (after : FileSystem) :
    Prop :=
  Reaches setting (.start setting.options files) ⟨outcomes.map .done, after⟩

/-- The run without one of its files. -/
def Setting.without (setting : Setting) (index : Nat) : Setting :=
  { setting with options := { setting.options with files := setting.options.files.eraseIdx index } }

theorem Setting.complete_all_without (setting : Setting) (index : Nat) (jobs : List Stage)
    (files : FileSystem) :
    completeAll (setting.without index) jobs files = completeAll setting jobs files := by
  refine complete_all_congr (fun stage files => ?_) jobs files
  cases stage with
  | waiting origin => cases origin <;> rfl
  | _ => rfl

theorem origins_of_files {options : Options} (named : options.files ≠ []) :
    origins options = options.files.map .file := by
  rw [origins, Options.readsInput, if_neg (by simpa using named)]

theorem names_of_files {options : Options} (named : options.files ≠ []) :
    (origins options).map Origin.name = options.files := by
  rw [origins_of_files named, List.map_map]
  exact List.map_id options.files

namespace Ends

variable {outcomes others : List Outcome} {later : FileSystem}

/-- The outcomes are those of the sources in order, and those of failed jobs have no output. -/
theorem named (ends : Ends setting files outcomes after) :
    outcomes.map Outcome.origin = (origins setting.options).map Origin.name ∧
      ∀ outcome ∈ outcomes, outcome.Silent := by
  obtain ⟨-, names, silent⟩ := named_of_reaches ends
  constructor
  · simpa [Moment.start, Function.comp_def, Stage.name] using names
  · exact fun outcome mem => silent (.done outcome) (List.mem_map_of_mem mem)

/-- Jobs on different files end as if one were done after the other. -/
theorem in_turn (ends : Ends setting files outcomes after)
    (distinct : setting.options.files.Pairwise (Apart files)) :
    completeAll setting ((origins setting.options).map .waiting) files = (outcomes, after) := by
  have same := ((Orderly.start distinct).reaches ends).2
  rw [complete_all_done] at same
  exact same.symm

/-- A run on the standard input changes no file. -/
theorem input_keeps (ends : Ends setting files outcomes after)
    (none : setting.options.files = []) : after = files := by
  have distinct : setting.options.files.Pairwise (Apart files) := by rw [none]; exact .nil
  have whole := ends.in_turn distinct
  rw [origins, Options.readsInput, none] at whole
  have kept := congrArg Prod.snd whole
  exact kept.symm.trans (Stage.complete_input setting files)

/-- Without a file whose job fails, the other jobs and the files end as they did with it. -/
theorem without {index : Nat} {outcome : Outcome} (ends : Ends setting files outcomes after)
    (distinct : setting.options.files.Pairwise (Apart files))
    (here : outcomes[index]? = some outcome) (failed : outcome.trouble?.isSome)
    (fewer : Ends (setting.without index) files others later) :
    later = after ∧
      ((setting.without index).options.files ≠ [] → others = outcomes.eraseIdx index) := by
  by_cases none : setting.options.files = []
  · have still : (setting.without index).options.files = [] := by
      simp [Setting.without, none]
    exact ⟨(fewer.input_keeps still).trans (ends.input_keeps none).symm, absurd still⟩
  · have whole := ends.in_turn distinct
    have erased := complete_all_erase (by rw [whole]; exact here) failed
    rw [whole, origins_of_files none, List.eraseIdx_map, List.eraseIdx_map] at erased
    by_cases last : (setting.without index).options.files = []
    · have gone : setting.options.files.eraseIdx index = [] := last
      rw [gone] at erased
      exact ⟨(fewer.input_keeps last).trans (congrArg Prod.snd erased), absurd last⟩
    · have still : (setting.without index).options.files.Pairwise (Apart files) :=
        distinct.eraseIdx index
      have rest := fewer.in_turn still
      rw [origins_of_files last, setting.complete_all_without] at rest
      obtain ⟨same, kept⟩ := Prod.mk.inj (rest.symm.trans erased)
      exact ⟨kept, fun _ => same⟩

end Ends

/-- Whatever the order in which the jobs of a run do their steps, there is one job for each file, or
one for the standard input, and the report tells of each what came of it. A job that fails prints
nothing, and where nothing can be printed, just the jobs that would have printed something fail as
well. On different files a run without one whose job fails ends as it did with it: the other jobs
have the same outcomes, and the files are the same. -/
theorem run_reports (options : Options) (backend : Backend) (input : Except Text Bytes)
    (files : FileSystem) :
    let setting : Setting := ⟨options, backend, input⟩
    let run := Run.outcomes options backend input files
    Ends setting files run.1 run.2 ∧
      ∀ outcomes after, Ends setting files outcomes after →
        outcomes.map Outcome.origin =
          (if options.files = [] then ["<stdin>".toList] else options.files) ∧
        (∀ outcome ∈ outcomes, outcome.trouble?.isSome → outcome.printed = []) ∧
        (Report.ofOutcomes { } outcomes).IsExact outcomes ∧
        (Report.ofOutcomes { } outcomes).summary.jobs = max 1 options.files.length ∧
        (∀ reason, let report := Report.ofOutcomes ⟨some reason⟩ outcomes
          report.IsExact (outcomes.map (Outcome.refused reason)) ∧
            report.summary.failed = (outcomes.countP fun outcome => outcome.trouble?.isSome) +
              outcomes.countP fun outcome => outcome.printed ≠ []) ∧
        (options.files.Pairwise (Apart files) → ∀ index outcome,
          outcomes[index]? = some outcome → outcome.trouble?.isSome →
            ∀ others later, Ends (setting.without index) files others later → later = after ∧
              (options.files.eraseIdx index ≠ [] → others = outcomes.eraseIdx index)) := by
  intro setting run
  refine ⟨outcomes_reaches options backend input files, fun outcomes after ends => ?_⟩
  obtain ⟨names, silent⟩ : outcomes.map Outcome.origin = (origins options).map Origin.name ∧
      ∀ outcome ∈ outcomes, outcome.Silent := ends.named
  have named : outcomes.map Outcome.origin =
      if options.files = [] then ["<stdin>".toList] else options.files := by
    rw [names]
    split
    · next none =>
      rw [origins, Options.readsInput, none]
      rfl
    · next some => exact names_of_files some
  have exactly : (Report.ofOutcomes { } outcomes).IsExact outcomes :=
    Report.of_outcomes_exact (fun _ _ => rfl) silent
  have jobs : outcomes.length = max 1 options.files.length := by
    have same := congrArg List.length named
    rw [List.length_map] at same
    rw [same]
    cases options.files <;> simp
  refine ⟨named, silent, exactly, exactly.jobs.trans jobs, fun reason => ?_, ?_⟩
  · have quiet : ∀ outcome ∈ outcomes.map (Outcome.refused reason), outcome.Silent := by
      intro outcome mem
      obtain ⟨own, -, rfl⟩ := List.mem_map.mp mem
      exact Outcome.refused_silent reason
    have refused : (Report.ofOutcomes { } (outcomes.map (Outcome.refused reason))).IsExact _ :=
      Report.of_outcomes_exact (fun _ _ => rfl) quiet
    rw [← Report.of_outcomes_refused] at refused
    exact ⟨refused, refused.failed.trans (Report.count_refused reason silent)⟩
  · intro distinct index outcome here failed others later fewer
    exact ends.without distinct here failed fewer

/-- A run on three files. -/
private def mixedOptions : Options where
  files := ["a.py".toList, "b.py".toList, "c.py".toList]

/-- The first file is to be laid out, the second one is not a text, and the third one is as it is to
be. -/
private def mixedFiles : FileSystem where
  entries :=
    [(["a.py".toList], .file (Utf8.encode "f = def_(lambda: [a])\n".toList) false),
      (["b.py".toList], .file [0xFF] false), (["c.py".toList], .file (Utf8.encode ['a']) false)]

theorem run_reports_mixed :
    let run := Run.outcomes mixedOptions Backend.none (.ok []) mixedFiles
    let report := Report.ofOutcomes { } run.1
    let fewer := Run.outcomes { mixedOptions with files := ["a.py".toList, "c.py".toList] }
      Backend.none (.ok []) mixedFiles
    report.IsExact run.1 ∧ report.summary = ⟨3, 1, 1⟩ ∧
      fewer.1 = run.1.eraseIdx 1 ∧ fewer.2 = run.2 := by
  intro run report fewer
  have distinct : mixedOptions.files.Pairwise (Apart mixedFiles) := by decide +kernel
  have failed : (run.1[1]?.any fun outcome => outcome.trouble?.isSome) = true := by decide +kernel
  obtain ⟨outcome, here, failed⟩ : ∃ outcome, run.1[1]? = some outcome ∧
      outcome.trouble?.isSome = true := by
    cases here : run.1[1]? with
    | none =>
      rw [here] at failed
      cases failed
    | some outcome =>
      rw [here] at failed
      exact ⟨outcome, rfl, failed⟩
  obtain ⟨ends, all⟩ := run_reports mixedOptions Backend.none (.ok []) mixedFiles
  obtain ⟨-, -, tells, -, -, without⟩ := all run.1 run.2 ends
  have same := without distinct 1 outcome here failed fewer.1 fewer.2
    (outcomes_reaches { mixedOptions with files := ["a.py".toList, "c.py".toList] } Backend.none
      (.ok []) mixedFiles)
  exact ⟨tells, by decide +kernel, same.2 (by decide), same.1⟩

end Job

end LambdaLayout
