import LambdaLayout.Proofs.DecodedBytes
import LambdaLayout.Proofs.JobEffects

/-!
What a run leaves alone. Files change in place only, and only those that the run is about. There a
job gives its file the layout of what it has read from it, all at once and only if nothing went
wrong on the way; otherwise it leaves its file as it is. That holds of every moment of a run,
whatever the order in which the jobs do their steps.
-/

namespace LambdaLayout.Job

open FileSystem (HasFile)

variable {setting : Setting} {start now next : Moment} {index : Nat} {files : FileSystem}

/-- What the backend makes of the content of a file. Without a backend that is the content itself. -/
def answered? (options : Options) (backend : Backend) (content : Bytes) : Option Bytes :=
  match options.adapter.command options.backendArguments with
  | none => some content
  | some command => (backend ⟨command, content⟩).toOption.map Reply.output

/-- What is written in place of the content of a file. Nothing is written if the content is not a
text, if the backend fails, if what it makes of the content is not a text or cannot be laid out, or
if the layout is the text that was there. -/
def rewritten? (options : Options) (backend : Backend) (content : Bytes) : Option Bytes := do
  let source ← (Utf8.decode content).toOption
  let answer ← answered? options backend content
  let code ← (Utf8.decode answer).toOption
  let reformat ← (Reformat.ofSource options.keyword code).toOption
  if reformat.output = source then none else some (Utf8.encode reformat.output)

/-- The backend is asked about the content, because that is what the source is encoded as. -/
theorem answered_of_answer {options : Options} {backend : Backend} {document : Document}
    {content bytes : Bytes} (decoded : Utf8.decode content = .ok document.source)
    (found : answer options backend document = .ok bytes) :
    answered? options backend content = some bytes := by
  rw [answer, request?, Utf8.encode_decode decoded] at found
  rw [answered?]
  cases asked : options.adapter.command options.backendArguments with
  | none =>
    rw [asked] at found
    exact congrArg some (Except.ok.inj found)
  | some command =>
    simp only [asked, Option.map_some] at found
    split at found
    · next reply replied =>
      cases found
      simp only [replied, Except.toOption, Option.map_some]
    · cases found

theorem layOut_ok {keyword origin : Text} {bytes : Bytes} {code : Text}
    (laid : layOut keyword origin bytes = .ok code) : ∃ text reformat,
      Utf8.decode bytes = .ok text ∧ Reformat.ofSource keyword text = .ok reformat ∧
        reformat.output = code := by
  rw [layOut] at laid
  split at laid
  · cases laid
  · next text decoded =>
    split at laid
    · cases laid
    · next reformat ran =>
      cases laid
      exact ⟨text, reformat, decoded, ran, rfl⟩

/-- The layout that a job has found for a document is what is written in place of its content. -/
theorem rewritten_of_work {options : Options} {backend : Backend} {document : Document}
    {content : Bytes} {code : Text} (decoded : Utf8.decode content = .ok document.source)
    (found : (work options backend document).code = .ok code) (changed : code ≠ document.source) :
    rewritten? options backend content = some (Utf8.encode code) := by
  obtain ⟨bytes, answered, laid⟩ : ∃ bytes, answer options backend document = .ok bytes ∧
      layOut options.keyword document.name bytes = .ok code := by
    rw [work] at found
    cases answered : answer options backend document with
    | error trouble => rw [answered] at found; cases found
    | ok bytes => rw [answered] at found; exact ⟨bytes, rfl, found⟩
  obtain ⟨text, reformat, read, ran, rfl⟩ := layOut_ok laid
  rw [rewritten?, answered_of_answer decoded answered, decoded]
  simp only [Except.toOption, bind, Option.bind, read, ran, if_neg changed]

/-- On the way from the start, the job at the index has read the content from the file at the
path. -/
def HasRead (setting : Setting) (start now : Moment) (index : Nat) (path : Text)
    (content : Bytes) : Prop :=
  ∃ before after, Reaches setting start before ∧
    before.jobs[index]? = some (.waiting (.file path)) ∧ before.files.read path = .ok content ∧
    Advances setting index before after ∧ Reaches setting after now

section HasRead

variable {path : Text} {content : Bytes}

/-- What was read before a step was read before the next one. -/
theorem HasRead.later {other : Nat} (read : HasRead setting start now index path content)
    (advances : Advances setting other now next) :
    HasRead setting start next index path content := by
  obtain ⟨before, after, reached, waiting, content, first, rest⟩ := read
  exact ⟨before, after, reached, waiting, content, first, rest.tail ⟨other, advances⟩⟩

end HasRead

/-- The document is of the mode of the run, and a document of a file has the text that the job has
read from it. -/
def Came (setting : Setting) (start now : Moment) (index : Nat) (document : Document) : Prop :=
  document.mode = setting.options.mode ∧ ∀ path, document.origin = .file path →
    ∃ content, HasRead setting start now index path content ∧
      Utf8.decode content = .ok document.source

theorem Came.later {document : Document} {other : Nat} (came : Came setting start now index document)
    (advances : Advances setting other now next) : Came setting start next index document := by
  refine ⟨came.1, fun path is => ?_⟩
  obtain ⟨content, read, decoded⟩ := came.2 path is
  exact ⟨content, read.later advances, decoded⟩

/-- How a job at the index got to its stage. -/
def Stage.Traced (setting : Setting) (start now : Moment) (index : Nat) : Stage → Prop
  | waiting origin => start.jobs[index]? = some (waiting origin)
  | loaded origin document => start.jobs[index]? = some (waiting origin) ∧
    ∀ read, document = .ok read → read.origin = origin ∧ Came setting start now index read
  | laidOut document work => start.jobs[index]? = some (waiting document.origin) ∧
    Came setting start now index document ∧
    work = Job.work setting.options setting.backend document
  | done _ => True

theorem Stage.Traced.later {stage : Stage} {other : Nat}
    (traced : stage.Traced setting start now index) (advances : Advances setting other now next) :
    stage.Traced setting start next index := by
  cases stage with
  | waiting | done => exact traced
  | loaded origin document =>
    refine ⟨traced.1, fun read is => ?_⟩
    obtain ⟨own, came⟩ := traced.2 read is
    exact ⟨own, came.later advances⟩
  | laidOut document work => exact ⟨traced.1, traced.2.1.later advances, traced.2.2⟩

/-- A job that does a step remains traced. -/
theorem Stage.Traced.advance {stage : Stage} (reaches : Reaches setting start now)
    (here : now.jobs[index]? = some stage) (traced : stage.Traced setting start now index)
    (advances : Advances setting index now next) :
    (stage.advance setting now.files).1.Traced setting start next index := by
  cases stage with
  | waiting origin =>
    refine ⟨traced, fun document is => ?_⟩
    obtain ⟨own, mode, -, found⟩ := load_ok is
    refine ⟨own, mode, fun path file => ?_⟩
    obtain ⟨content, read, decoded⟩ := found path (own.symm.trans file)
    rw [← own, file] at here
    exact ⟨content, ⟨now, next, reaches, here, read, advances, .refl⟩, decoded⟩
  | loaded origin document =>
    cases document with
    | error trouble => trivial
    | ok document =>
      obtain ⟨own, came⟩ := traced.2 document rfl
      exact ⟨own ▸ traced.1, came.later advances, rfl⟩
  | laidOut | done => trivial

/-- All jobs are ready, each of them is traced, and every path leads where it led at the start. -/
structure Sound (setting : Setting) (start now : Moment) : Prop where
  located : ∀ path, now.files.locate path = start.files.locate path
  ready : ∀ stage ∈ now.jobs, stage.Ready now.files
  traced : ∀ (index : Nat) (stage : Stage), now.jobs[index]? = some stage → stage.Traced setting start now index

theorem sound_start (setting : Setting) (options : Options) (files : FileSystem) :
    Sound setting (.start options files) (.start options files) where
  located := fun _ => rfl
  ready := by
    intro stage mem
    obtain ⟨origin, -, rfl⟩ := List.mem_map.mp mem
    trivial
  traced := by
    intro index stage here
    obtain ⟨origin, -, rfl⟩ := List.mem_map.mp (List.mem_of_getElem? here)
    exact here

theorem Sound.advances (sound : Sound setting start now) (reaches : Reaches setting start now)
    (advances : Advances setting index now next) : Sound setting start next where
  located := by
    intro path
    have step := advances
    cases step with
    | @step stage here unfinished =>
      have touches : stage.Touches now.files (stage.advance setting now.files).2 :=
        Stage.advance_touches (sound.ready stage (List.mem_of_getElem? here))
      exact (touches.locate path).trans (sound.located path)
  ready := ready_advances sound.ready advances
  traced := by
    intro other stage there
    by_cases same : other = index
    · subst same
      have step := advances
      cases step with
      | @step before here unfinished =>
        rw [List.getElem?_set_self (List.getElem?_eq_some_iff.mp here).1] at there
        cases there
        exact (sound.traced other before here).advance reaches here advances
    · have step := advances
      cases step with
      | @step before here unfinished =>
        rw [List.getElem?_set_ne (Ne.symm same)] at there
        exact (sound.traced other stage there).later advances

theorem sound_of_reaches (reaches : Reaches setting (.start setting.options files) now) :
    Sound setting (.start setting.options files) now := by
  induction reaches with
  | refl => exact sound_start setting setting.options files
  | tail before step ih =>
    obtain ⟨index, advances⟩ := step
    exact ih.advances before advances

/-- A step of the job at the index that replaces the content of its file. -/
structure Overwrites (setting : Setting) (start now next : Moment) (index : Nat) (path : Text)
    (place : Place) (content bytes : Bytes) : Prop where
  /-- The run is in place. -/
  inPlace : setting.options.mode = .inPlace
  /-- The file is the one that the job is about. -/
  named : setting.options.files[index]? = some path
  /-- The job has read the content from it. -/
  read : HasRead setting start now index path content
  /-- The bytes are those to be written in place of the content. -/
  layout : rewritten? setting.options setting.backend content = some bytes
  /-- The path leads to the place. -/
  located : start.files.locate path = .ok place
  /-- The bytes are now there, and nothing else is different. -/
  replaced : ∀ other, next.files.entry? other =
    if other = place then some (.file bytes false) else now.files.entry? other
  /-- The job says that the source has changed. -/
  reported : ∃ request, next.jobs[index]? = some (.done ⟨path, [], .ok true, request⟩)

/-- A step of the job at the index that leaves all files as they are. In place the job does not say
of a file that it has changed. -/
structure Keeps (setting : Setting) (now next : Moment) (index : Nat) : Prop where
  /-- The files are the same. -/
  files : next.files = now.files
  /-- The job does not say otherwise. -/
  reported : setting.options.mode = .inPlace → ∀ path outcome,
    setting.options.files[index]? = some path → next.jobs[index]? = some (.done outcome) →
      outcome.result ≠ .ok true

theorem waiting_file {options : Options} {path : Text} :
    (Moment.start options files).jobs[index]? = some (.waiting (.file path)) ↔
      options.files[index]? = some path := by
  rw [Moment.start, origins]
  split
  · next none =>
    have empty : options.files = [] := List.isEmpty_iff.mp none
    rw [empty]
    cases index <;> simp
  · simp

theorem set_here {jobs : List Stage} {stage later : Stage} (here : jobs[index]? = some stage) :
    (jobs.set index later)[index]? = some later :=
  List.getElem?_set_self (List.getElem?_eq_some_iff.mp here).1

/-- A step of a run replaces the content of a file or leaves all files as they are. -/
theorem Sound.effect (sound : Sound setting (.start setting.options files) now)
    (advances : Advances setting index now next) :
    Keeps setting now next index ∨ ∃ path place content bytes, Overwrites setting
      (.start setting.options files) now next index path place content bytes := by
  have step := advances
  cases step with
  | @step stage here unfinished =>
    have ready := sound.ready stage (List.mem_of_getElem? here)
    have traced := sound.traced index stage here
    cases stage with
    | waiting origin =>
      refine .inl ⟨rfl, fun _ path outcome _ done => ?_⟩
      rw [set_here here] at done
      cases done
    | loaded origin document =>
      refine .inl ?_
      cases document with
      | error trouble =>
        refine ⟨rfl, fun _ path outcome _ done => ?_⟩
        rw [set_here here] at done
        cases done
        nofun
      | ok document =>
        refine ⟨rfl, fun _ path outcome _ done => ?_⟩
        rw [set_here here] at done
        cases done
    | laidOut document work =>
      obtain ⟨own, ⟨mode, came⟩, rfl⟩ := traced
      rcases deliver_cases document (work setting.options setting.backend document) now.files with
        ⟨path, code, in_place, origin, laid, changed, written, reported⟩ | ⟨same, quiet⟩
      · obtain ⟨place, located, old, flag, there⟩ := ready path origin
        obtain ⟨content, read, decoded⟩ := came path origin
        rw [FileSystem.write_of_file located there] at written
        cases flag with
        | true => cases written
        | false =>
          have changes :
              (deliver document (work setting.options setting.backend document) now.files).2 =
                now.files.put place (.file (Utf8.encode code) false) := (Except.ok.inj written).symm
          rw [origin] at own
          refine .inr ⟨path, place, content, Utf8.encode code, ?_⟩
          exact {
            inPlace := mode.symm.trans in_place
            named := waiting_file.mp own
            read := read
            layout := rewritten_of_work decoded laid changed
            located := (sound.located path).symm.trans located
            replaced := fun other => by
              rw [Stage.advance, changes, FileSystem.entry?_put ⟨old, false, there⟩]
            reported := ⟨_, (set_here here).trans (congrArg (some <| Stage.done ·) reported)⟩ }
      · refine .inl ⟨same, fun in_place path outcome named done => ?_⟩
        rw [set_here here] at done
        cases done
        refine quiet (mode.trans in_place) fun input => ?_
        rw [waiting_file.mpr named, input] at own
        cases own
    | done outcome => cases unfinished

/-- Only a run in place changes the files. -/
theorem files_kept (mode : setting.options.mode ≠ .inPlace)
    (reaches : Reaches setting (.start setting.options files) now) : now.files = files := by
  induction reaches with
  | refl => rfl
  | tail before step ih =>
    obtain ⟨index, advances⟩ := step
    rcases (sound_of_reaches before).effect advances with keeps | ⟨_, _, _, _, overwrites⟩
    · exact keeps.files.trans ih
    · exact absurd overwrites.inPlace mode

/-- A place to which the path of no file of the run leads is as it was. -/
theorem elsewhere_kept {place : Place}
    (away : ∀ path ∈ setting.options.files, files.locate path ≠ .ok place)
    (reaches : Reaches setting (.start setting.options files) now) :
    now.files.entry? place = files.entry? place := by
  induction reaches with
  | refl => rfl
  | @tail between next before step ih =>
    obtain ⟨index, advances⟩ := step
    rcases (sound_of_reaches before).effect advances with keeps | ⟨path, own, _, _, overwrites⟩
    · rw [keeps.files, ih]
    · have apart : place ≠ own := by
        rintro rfl
        exact away path (List.mem_of_getElem? overwrites.named) overwrites.located
      rw [overwrites.replaced, if_neg apart, ih]

/-- A run is a sequence of steps of its jobs. Unless it is in place, the files are the same at every
moment of it. In place, whatever is at a place to which no path of the run leads remains there, and
each step of a job either leaves all files as they are, or replaces the content of the job's own file
by what is to be written in place of the content that the job has read from it. -/
theorem run_frame (options : Options) (backend : Backend) (input : Except Text Bytes)
    (files : FileSystem) :
    let setting : Setting := ⟨options, backend, input⟩
    let start := Moment.start options files
    let ended := Run.outcomes options backend input files
    Reaches setting start ⟨ended.1.map .done, ended.2⟩ ∧
      ∀ now, Reaches setting start now →
        (options.mode ≠ .inPlace → now.files = files) ∧
        (∀ place, (∀ path ∈ options.files, files.locate path ≠ .ok place) →
          now.files.entry? place = files.entry? place) ∧
        ∀ index next, Advances setting index now next →
          Keeps setting now next index ∨ ∃ path place content bytes,
            Overwrites setting start now next index path place content bytes := by
  intro setting start ended
  refine ⟨outcomes_reaches options backend input files, fun now reaches => ?_⟩
  refine ⟨fun mode => files_kept mode reaches, fun place away => elsewhere_kept away reaches, ?_⟩
  exact fun index next advances => (sound_of_reaches reaches).effect advances

/-- A run in place on one of two files, where both have the same content. -/
private def soleOptions : Options where
  mode := .inPlace
  files := ["a.py".toList]

private def soleFiles (first second : String) : FileSystem where
  entries :=
    [(["a.py".toList], .file (Utf8.encode first.toList) false),
      (["b.py".toList], .file (Utf8.encode second.toList) false)]

/-- The file that the run is about is laid out, and the other one remains as it is. -/
theorem run_frame_sole :
    let files := soleFiles "f = def_(lambda: [a])\n" "f = def_(lambda: [a])\n"
    let ended := (Run.outcomes soleOptions Backend.none (.ok []) files).2
    ended.entry? ["b.py".toList] = files.entry? ["b.py".toList] ∧
      ended = soleFiles "f = def_(lambda: [\n    a\n])\n" "f = def_(lambda: [a])\n" := by
  intro files
  have away : ∀ path ∈ soleOptions.files, files.locate path ≠ .ok ["b.py".toList] := by
    have located : ∀ path ∈ soleOptions.files,
        (files.locate path).toOption ≠ some ["b.py".toList] := by decide +kernel
    intro path among same
    exact located path among (by rw [same]; rfl)
  obtain ⟨reaches, moments⟩ := run_frame soleOptions Backend.none (.ok []) files
  have kept : ∀ ended : List Outcome × FileSystem,
      Reaches ⟨soleOptions, Backend.none, .ok []⟩ (.start soleOptions files)
        ⟨ended.1.map .done, ended.2⟩ →
      FileSystem.entry? ended.2 ["b.py".toList] = files.entry? ["b.py".toList] :=
    fun ended reaches => (moments ⟨ended.1.map .done, ended.2⟩ reaches).2.1 _ away
  exact ⟨kept _ reaches, by decide +kernel⟩

end LambdaLayout.Job
