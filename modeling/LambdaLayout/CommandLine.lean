import LambdaLayout.Options
import LambdaLayout.Trouble

/-!
The command line. Arguments are taken one after the other: a word with two dashes is a flag or an
option, whose value stands behind an equals sign or is the next argument; a word with one dash holds
flags of one letter; two dashes alone end the arguments of the program and start those of the
backend; anything else is a file. The value of an option is looked at when the next argument has
been understood, so an argument that is not understood is complained about first.
-/

namespace LambdaLayout

namespace CommandLine

/-- The flags. -/
inductive Flag where
  | diff
  | inPlace
  | quiet
  | parallel
  deriving DecidableEq

/-- The flag as it is shown. -/
def Flag.shown : Flag → Text
  | .diff => "--diff".toList
  | .inPlace => "--in-place".toList
  | .quiet => "--quiet".toList
  | .parallel => "--parallel".toList

/-- The options that take a value. -/
inductive Setting where
  | adapter
  | keyword
  | logFilter
  | logFormat
  deriving DecidableEq

/-- The option as it is shown, with the name of its value. -/
def Setting.shown : Setting → Text
  | .adapter => "--adapter <ADAPTER>".toList
  | .keyword => "--keyword <KEYWORD>".toList
  | .logFilter => "--log-filter <LOG_FILTER>".toList
  | .logFormat => "--log-format <LOG_FORMAT>".toList

/-- What stands in front of a program's work. -/
inductive Switch where
  /-- A flag. -/
  | flag (chosen : Flag)
  /-- Asks for help, in full or in short. -/
  | help
  /-- Asks for the version. -/
  | version
  deriving DecidableEq

/-- The switch as it is shown. -/
def Switch.shown : Switch → Text
  | .flag chosen => chosen.shown
  | .help => "--help".toList
  | .version => "--version".toList

/-- What an argument with two dashes can name. -/
inductive Term where
  /-- Something without a value. -/
  | switch (named : Switch)
  /-- Something with a value. -/
  | setting (named : Setting)

/-- The terms by their names. -/
def terms : List (Text × Term) :=
  [("diff".toList, .switch (.flag .diff)), ("in-place".toList, .switch (.flag .inPlace)),
   ("quiet".toList, .switch (.flag .quiet)), ("parallel".toList, .switch (.flag .parallel)),
   ("adapter".toList, .setting .adapter), ("keyword".toList, .setting .keyword),
   ("log-filter".toList, .setting .logFilter), ("log-format".toList, .setting .logFormat),
   ("help".toList, .switch .help), ("version".toList, .switch .version)]

/-- The term of a name. -/
def term? (name : Text) : Option Term :=
  (terms.find? fun pair => pair.1 == name).map fun pair => pair.2

/-- The switch of a letter. -/
def letter? : Char → Option Switch
  | 'd' => some (.flag .diff)
  | 'i' => some (.flag .inPlace)
  | 'q' => some (.flag .quiet)
  | 'p' => some (.flag .parallel)
  | 'h' => some .help
  | 'V' => some .version
  | _ => none

/-- What is wrong with a command line. -/
inductive Complaint where
  /-- An argument is not known. -/
  | unexpected (argument : Text)
  /-- A value was given to something that takes none. -/
  | unexpectedValue (value : Text) (switch : Switch)
  /-- A value is missing. -/
  | missingValue (setting : Setting)
  /-- A value is not one of those there are, with the reason if there is one to give. -/
  | invalidValue (value : Text) (setting : Setting) (reason : Option Text)
  /-- Something that can be given once was given again. -/
  | repeated (shown : Text)
  /-- Flags exclude each other: the one given first, and the others. -/
  | conflict (first : Flag) (others : List Flag)

/-- A text between quotes. -/
def inQuotes (text : Text) : Text := '\'' :: text ++ ['\'']

/-- The words of the complaint. -/
def Complaint.message : Complaint → Text
  | .unexpected argument => "unexpected argument ".toList ++ inQuotes argument ++ " found".toList
  | .unexpectedValue value switch =>
    "unexpected value ".toList ++ inQuotes value ++ " for ".toList ++ inQuotes switch.shown ++
      " found; no more were expected".toList
  | .missingValue setting =>
    "a value is required for ".toList ++ inQuotes setting.shown ++
      " but none was supplied".toList
  | .invalidValue value setting reason =>
    "invalid value ".toList ++ inQuotes value ++ " for ".toList ++ inQuotes setting.shown ++
      (reason.map fun text => ": ".toList ++ text).getD []
  | .repeated shown =>
    "the argument ".toList ++ inQuotes shown ++ " cannot be used multiple times".toList
  | .conflict first others =>
    "the argument ".toList ++ inQuotes first.shown ++ " cannot be used with".toList ++
      match others with
      | [other] => ' ' :: inQuotes other.shown
      | _ => ':' :: others.flatMap fun other => "\n  ".toList ++ other.shown

/-- The complaint as it is printed. -/
def Complaint.report (complaint : Complaint) : Text :=
  "error: ".toList ++ complaint.message ++
    "\n\nFor more information, try '--help'.\n".toList

/-- Why a command line gives no options. -/
inductive Stop where
  /-- Help is asked for, in full or in short. -/
  | help (full : Bool)
  /-- The version is asked for. -/
  | version
  /-- Something is wrong. -/
  | complaint (complaint : Complaint)

/-- What has been read of a command line. -/
structure Draft where
  /-- The flags in order. -/
  flags : List Flag := []
  /-- The options whose values have been looked at. -/
  settings : List Setting := []
  /-- The option that was named last, and its value if there was one. -/
  pending : Option (Setting × Option Text) := none
  /-- Two dashes have been read. -/
  trailing : Bool := false
  /-- The options of the run, as far as they have been given. -/
  options : Options := { }

/-- The complaint that ends the reading. -/
def refuse {α : Type} (complaint : Complaint) : Except Stop α := .error (.complaint complaint)

/-- The options with a value set. -/
def assign (options : Options) (setting : Setting) (value : Text) : Except Stop Options :=
  match setting with
  | .adapter =>
    match Adapter.ofName? value with
    | some adapter => .ok { options with adapter := adapter }
    | none =>
      if value.isEmpty then refuse (.missingValue .adapter)
      else refuse (.invalidValue value .adapter none)
  | .keyword => .ok { options with keyword := value }
  | .logFilter => .ok { options with logFilter := value }
  | .logFormat =>
    match LogFormat.ofName? value with
    | some format => .ok { options with logFormat := format }
    | none => refuse (.invalidValue value .logFormat (some LogFormat.unknown))

/-- Takes the value of an option. -/
def Draft.set (draft : Draft) (setting : Setting) (value : Text) : Except Stop Draft :=
  if draft.settings.contains setting then refuse (.repeated setting.shown)
  else do
    let options ← assign draft.options setting value
    return { draft with settings := draft.settings ++ [setting], options := options }

/-- Looks at the option that was named last. -/
def Draft.settle (draft : Draft) : Except Stop Draft :=
  match draft.pending with
  | none => .ok draft
  | some (setting, none) => refuse (.missingValue setting)
  | some (setting, some value) => { draft with pending := none }.set setting value

/-- Takes something without a value, which stands for itself in full or as a letter. -/
def Draft.flip (draft : Draft) (full : Bool) (switch : Switch) : Except Stop Draft := do
  let draft ← draft.settle
  match switch with
  | .help => throw (.help full)
  | .version => throw .version
  | .flag flag =>
    if draft.flags.contains flag then refuse (.repeated flag.shown)
    else return { draft with flags := draft.flags ++ [flag] }

/-- Takes letters behind one dash. -/
def Draft.letters (draft : Draft) : Text → Except Stop Draft
  | [] => .ok draft
  | c :: rest =>
    match letter? c with
    | none => refuse (.unexpected ['-', c])
    | some switch => do
      let draft ← draft.flip false switch
      draft.letters rest

/-- Takes a name behind two dashes, and the value behind the equals sign if there is one. -/
def Draft.long (draft : Draft) (name : Text) (value : Option Text) : Except Stop Draft :=
  match term? name, value with
  | none, _ => refuse (.unexpected ("--".toList ++ name))
  | some (.switch switch), some value => refuse (.unexpectedValue value switch)
  | some (.switch switch), none => draft.flip true switch
  | some (.setting setting), none => do
    let draft ← draft.settle
    return { draft with pending := some (setting, none) }
  | some (.setting setting), some value => do
    let draft ← draft.settle
    draft.set setting value

/-- Takes a word without dashes: the value that is waited for, or a file. -/
def Draft.word (draft : Draft) (word : Text) : Except Stop Draft :=
  match draft.pending with
  | some (setting, none) => .ok { draft with pending := some (setting, some word) }
  | _ => do
    let draft ← draft.settle
    return { draft with options := { draft.options with files := draft.options.files ++ [word] } }

/-- Takes an argument of the backend. -/
def Draft.backendArgument (draft : Draft) (word : Text) : Except Stop Draft := do
  let draft ← draft.settle
  let options := draft.options
  return { draft with
    options := { options with backendArguments := options.backendArguments ++ [word] } }

/-- Takes one argument. -/
def Draft.take (draft : Draft) (argument : Text) : Except Stop Draft :=
  if draft.trailing then draft.backendArgument argument
  else
    match argument with
    | ['-', '-'] => .ok { draft with trailing := true }
    | '-' :: '-' :: rest =>
      match Text.splitOnce '=' rest with
      | some (name, value) => draft.long name (some value)
      | none => draft.long rest none
    | '-' :: c :: rest => draft.letters (c :: rest)
    | word => draft.word word

/-- The flags of which only one can be given, in the order given. -/
def Draft.exclusive (draft : Draft) : List Flag := draft.flags.filter fun flag => flag != .parallel

/-- The mode that the flags ask for. -/
def Draft.mode (draft : Draft) : Mode :=
  if draft.flags.contains .diff then .diff
  else if draft.flags.contains .inPlace then .inPlace
  else if draft.flags.contains .quiet then .quiet
  else .print

/-- The options of a draft that is complete. -/
def Draft.close (draft : Draft) : Except Stop Options := do
  let draft ← draft.settle
  match draft.exclusive with
  | first :: second :: rest => refuse (.conflict first (second :: rest))
  | _ =>
    return { draft.options with
      mode := draft.mode, parallel := draft.flags.contains .parallel }

/-- The options that arguments ask for. -/
def parse (arguments : List Text) : Except Stop Options := do
  let draft ← arguments.foldlM Draft.take { }
  draft.close

end CommandLine

/-- What is wrong with options that are well written: to change files, or to show their changes,
there must be files. -/
def Options.trouble? (options : Options) : Option Trouble :=
  if options.files.isEmpty && (options.mode == .inPlace || options.mode == .diff) then
    some .fileFlags
  else none

end LambdaLayout
