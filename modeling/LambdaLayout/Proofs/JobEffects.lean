import LambdaLayout.Proofs.FilesApart
import LambdaLayout.Proofs.JobSteps

/-!
What a step of a job does to the files, and what it sees of them. Only the last step changes
anything, and only in place: it gives the file that the job has read another content. Nothing that
happens to other files makes a difference to a step.
-/

namespace LambdaLayout

open FileSystem (HasFile)

variable {files : FileSystem} {place : Place} {content bytes : Bytes} {readOnly : Bool}
  {document : Document} {path code : Text}

namespace Document

/-- Only in place is a file written, the one the document came from, and only a layout that differs
from the source. -/
theorem delivery_overwrite :
    document.delivery code = .overwrite path bytes ↔ document.mode = .inPlace ∧
      document.origin = .file path ∧ code ≠ document.source ∧ bytes = Utf8.encode code := by
  obtain ⟨origin, mode, source, output⟩ := document
  cases mode with
  | quiet => simp [delivery]
  | print => simp [delivery]
  | diff => by_cases same : code = source <;> simp [delivery, isChanged, same]
  | inPlace =>
    cases origin with
    | input => simp [delivery]
    | file own =>
      by_cases same : code = source
      · simp [delivery, isChanged, same]
      · simp only [delivery, isChanged, bne_iff_ne.mpr same, if_true, Delivery.overwrite.injEq,
          Origin.file.injEq, ne_eq, same, not_false_iff, true_and, eq_comm]

/-- In place a layout of a file that is not written is the source. -/
theorem unchanged_of_kept (mode : document.mode = .inPlace) (file : document.origin ≠ .input)
    (kept : ∀ path bytes, document.delivery code ≠ .overwrite path bytes) :
    document.isChanged code = false := by
  rw [Bool.eq_false_iff]
  intro changed
  rw [isChanged, bne_iff_ne] at changed
  cases origin : document.origin with
  | input => exact file origin
  | file path => exact kept _ _ (delivery_overwrite.mpr ⟨mode, origin, changed, rfl⟩)

/-- A document that was read came from where it was read, in the mode of the run. -/
theorem ofBytes_ok {origin : Origin} {mode : Mode} (read : ofBytes origin mode content = .ok document) :
    document.origin = origin ∧ document.mode = mode ∧ Utf8.decode content = .ok document.source := by
  rw [ofBytes] at read
  split at read
  · next source decoded =>
    cases read
    exact ⟨rfl, rfl, decoded⟩
  · cases read

end Document

namespace Job

/-- The path of a job that works on a file stands for a file that is there. -/
def Stands (files : FileSystem) (origin : Origin) : Prop :=
  ∀ path, origin = .file path → ∃ place, files.locate path = .ok place ∧ HasFile files place

/-- The path of a job that works on a file does not lead to the place. -/
def Avoids (files : FileSystem) (place : Place) (origin : Origin) : Prop :=
  ∀ path, origin = .file path → files.locate path ≠ .ok place

section Deliver

variable {work : Work}

theorem Stands.put (has : HasFile files place) {origin : Origin} (stands : Stands files origin) :
    Stands (files.put place (.file content readOnly)) origin := by
  intro path is
  obtain ⟨own, located, there⟩ := stands path is
  exact ⟨own, by rw [FileSystem.locate_put has, located], has.put content readOnly there⟩

/-- Writing in place gives the file another content and reports the change. Any other delivery
leaves the files as they are, and in place it reports no change of a file. -/
theorem deliver_cases (document : Document) (work : Work) (files : FileSystem) :
    (∃ path code, document.mode = .inPlace ∧ document.origin = .file path ∧ work.code = .ok code ∧
      code ≠ document.source ∧
      files.write path (Utf8.encode code) = .ok (deliver document work files).2 ∧
      (deliver document work files).1 = ⟨path, [], .ok true, work.request⟩) ∨
    ((deliver document work files).2 = files ∧
      (document.mode = .inPlace → document.origin ≠ .input →
        (deliver document work files).1.result ≠ .ok true)) := by
  obtain ⟨request, code⟩ := work
  cases code with
  | error trouble => exact .inr ⟨rfl, fun _ _ => nofun⟩
  | ok code =>
    simp only [deliver, Document.write]
    cases task : document.delivery code with
    | overwrite path bytes =>
      obtain ⟨mode, origin, changed, rfl⟩ := Document.delivery_overwrite.mp task
      simp only [Delivery.perform]
      cases written : files.write path (Utf8.encode code) with
      | error fault => exact .inr ⟨rfl, fun _ _ => nofun⟩
      | ok after =>
        have differs : document.isChanged code = true := bne_iff_ne.mpr changed
        refine .inl ⟨path, code, mode, origin, rfl, changed, written, ?_⟩
        rw [Document.name, origin, differs]
        rfl
    | nothing =>
      refine .inr ⟨rfl, fun mode file => ?_⟩
      have same := Document.unchanged_of_kept mode file fun _ _ => by rw [task]; nofun
      simp [Delivery.perform, same]
    | print bytes =>
      refine .inr ⟨rfl, fun mode file => ?_⟩
      have same := Document.unchanged_of_kept mode file fun _ _ => by rw [task]; nofun
      simp [Delivery.perform, Sink.write, bind, Except.bind, pure, Except.pure, same]

/-- What is delivered does not depend on other files, and leaves them alone. -/
theorem deliver_put (has : HasFile files place) (stands : Stands files document.origin)
    (avoids : Avoids files place document.origin) :
    deliver document work (files.put place (.file content readOnly)) =
      ((deliver document work files).1,
        (deliver document work files).2.put place (.file content readOnly)) := by
  obtain ⟨request, code⟩ := work
  cases code with
  | error trouble => rfl
  | ok code =>
    simp only [deliver, Document.write]
    cases task : document.delivery code with
    | nothing => rfl
    | print bytes => rfl
    | overwrite path bytes =>
      obtain ⟨-, origin, -, rfl⟩ := Document.delivery_overwrite.mp task
      obtain ⟨own, located, old, flag, there⟩ := stands path origin
      have apart : own ≠ place := by
        rintro rfl
        exact avoids path origin located
      have later : FileSystem.entry? (files.put place (.file content readOnly)) own =
          some (.file old flag) := by
        rw [FileSystem.entry?_put has, if_neg apart, there]
      have again := (FileSystem.locate_put has content readOnly path).trans located
      simp only [Delivery.perform, FileSystem.write_of_file located there,
        FileSystem.write_of_file again later]
      cases flag with
      | true => rfl
      | false =>
        have swapped := FileSystem.put_put has ⟨old, false, there⟩ (Ne.symm apart) content
          (Utf8.encode code) readOnly false
        simp only [Bool.false_eq_true, if_false, swapped]

end Deliver

section Load

variable {setting : Setting} {origin : Origin}

/-- A document that was loaded came from the origin asked for. A file it came from is there and has
the content that the document was made of. -/
theorem load_ok (loaded : load setting files origin = .ok document) :
    document.origin = origin ∧ document.mode = setting.options.mode ∧ Stands files origin ∧
      ∀ path, origin = .file path → ∃ content, files.read path = .ok content ∧
        Utf8.decode content = .ok document.source := by
  cases origin with
  | input =>
    cases bytes : setting.input with
    | error reason => simp [load, Document.ofInput, bytes] at loaded
    | ok content =>
      simp only [load, Document.ofInput, bytes] at loaded
      obtain ⟨own, mode, -⟩ := Document.ofBytes_ok loaded
      exact ⟨own, mode, nofun, nofun⟩
  | file path =>
    simp only [load, Document.ofFile] at loaded
    cases found : files.read path with
    | error fault => rw [found] at loaded; cases loaded
    | ok content =>
      rw [found] at loaded
      obtain ⟨own, mode, decoded⟩ := Document.ofBytes_ok loaded
      obtain ⟨place, flag, located, there⟩ := FileSystem.read_ok found
      refine ⟨own, mode, ?_, ?_⟩
      · rintro _ ⟨⟩
        exact ⟨place, located, content, flag, there⟩
      · rintro _ ⟨⟩
        exact ⟨content, found, decoded⟩

/-- What is loaded does not depend on other files. -/
theorem load_put (has : HasFile files place) (avoids : Avoids files place origin) :
    load setting (files.put place (.file content readOnly)) origin = load setting files origin := by
  cases origin with
  | input => rfl
  | file path => simp only [load, Document.ofFile, FileSystem.read_put has (avoids path rfl)]

end Load

namespace Stage

/-- The source of a job that is not done. -/
def origin? : Stage → Option Origin
  | waiting origin => some origin
  | loaded origin _ => some origin
  | laidOut document _ => some document.origin
  | done _ => none

/-- A job that has read a file works on one that is there. -/
def Ready (files : FileSystem) : Stage → Prop
  | loaded origin document =>
    ∀ read, document = .ok read → read.origin = origin ∧ Stands files origin
  | laidOut document _ => Stands files document.origin
  | _ => True

/-- A job that is not done does not work on the file at the place. -/
def Avoids (files : FileSystem) (place : Place) (stage : Stage) : Prop :=
  ∀ origin, stage.origin? = some origin → Job.Avoids files place origin

/-- What a job may make of the files: the one it works on has another content, or nothing differs. -/
def Touches (files : FileSystem) (stage : Stage) (after : FileSystem) : Prop :=
  after = files ∨ ∃ path place content, stage.origin? = some (.file path) ∧
    files.locate path = .ok place ∧ HasFile files place ∧
    after = files.put place (.file content false)

section

variable {setting : Setting} {stage : Stage}

theorem Ready.put (has : HasFile files place) (ready : stage.Ready files) :
    stage.Ready (files.put place (.file content readOnly)) := by
  cases stage with
  | waiting | done => trivial
  | loaded origin document =>
    intro read is
    obtain ⟨own, stands⟩ := ready read is
    exact ⟨own, stands.put has⟩
  | laidOut document work => exact Stands.put has ready

theorem deliver_touches (document : Document) (work : Work)
    (stands : Stands files document.origin) :
    (laidOut document work).Touches files (deliver document work files).2 := by
  rcases deliver_cases document work files with ⟨path, code, -, origin, -, -, written, -⟩ | ⟨same, -⟩
  · obtain ⟨place, located, old, flag, there⟩ := stands path origin
    rw [FileSystem.write_of_file located there] at written
    cases flag with
    | true => cases written
    | false =>
      rw [← Except.ok.inj written]
      exact .inr ⟨path, place, _, congrArg some origin, located, ⟨old, false, there⟩, rfl⟩
  · exact .inl same

/-- A step keeps a job ready. -/
theorem Ready.advance (ready : stage.Ready files) :
    (stage.advance setting files).1.Ready (stage.advance setting files).2 := by
  cases stage with
  | waiting origin =>
    intro read is
    obtain ⟨own, -, stands, -⟩ := load_ok is
    exact ⟨own, stands⟩
  | loaded origin document =>
    cases document with
    | error trouble => trivial
    | ok document =>
      obtain ⟨own, stands⟩ := ready document rfl
      show Stands files document.origin
      rw [own]
      exact stands
  | laidOut | done => trivial

theorem advance_touches (ready : stage.Ready files) :
    stage.Touches files (stage.advance setting files).2 := by
  cases stage with
  | laidOut document work => exact deliver_touches document work ready
  | waiting | done => exact .inl rfl
  | loaded origin document => cases document <;> exact .inl rfl

/-- A step does not depend on other files, and leaves them alone. -/
theorem advance_put (has : HasFile files place) (ready : stage.Ready files)
    (avoids : stage.Avoids files place) :
    stage.advance setting (files.put place (.file content readOnly)) =
      ((stage.advance setting files).1,
        (stage.advance setting files).2.put place (.file content readOnly)) := by
  cases stage with
  | waiting origin => simp only [advance, load_put has (avoids origin rfl)]
  | loaded origin document => cases document <;> rfl
  | laidOut document work => simp only [advance, deliver_put has ready (avoids _ rfl)]
  | done outcome => rfl

/-- A job comes from one stage to the next, or is done. -/
theorem origin_advance (ready : stage.Ready files) {origin : Origin}
    (next : (stage.advance setting files).1.origin? = some origin) :
    stage.origin? = some origin := by
  cases stage with
  | waiting => exact next
  | loaded own document =>
    cases document with
    | error trouble => cases next
    | ok document =>
      obtain ⟨same, -⟩ := ready document rfl
      rw [← same]
      exact next
  | laidOut | done => cases next

/-- Every path leads where it led before. -/
theorem Touches.locate {after : FileSystem} (touches : stage.Touches files after) (path : Text) :
    after.locate path = files.locate path := by
  rcases touches with rfl | ⟨own, place, content, works, located, has, rfl⟩
  · rfl
  · exact FileSystem.locate_put has content false path

/-- All that a job makes of the files leaves the other jobs ready. -/
theorem Touches.ready {other : Stage} {after : FileSystem} (touches : stage.Touches files after)
    (ready : other.Ready files) : other.Ready after := by
  rcases touches with rfl | ⟨path, place, content, works, located, has, rfl⟩
  · exact ready
  · exact ready.put has

end

end Stage

/-- A step keeps all jobs ready. -/
theorem ready_advances {setting : Setting} {moment next : Moment} {index : Nat}
    (ready : ∀ stage ∈ moment.jobs, stage.Ready moment.files)
    (advances : Advances setting index moment next) :
    ∀ stage ∈ next.jobs, stage.Ready next.files := by
  cases advances with
  | @step stage here unfinished =>
    have own := ready stage (List.mem_of_getElem? here)
    intro other among
    rcases List.mem_or_eq_of_mem_set among with before | rfl
    · exact (Stage.advance_touches own).ready (ready other before)
    · exact own.advance

end Job

end LambdaLayout
