import LambdaLayout.Token
import LambdaLayout.Text.Quoted

/-!
Rules for tokens. A rule says by three slots which tokens it is for: the category of the token, its
text, and the state of the pass; an empty slot stands for anything. For each token four keys are
tried in a fixed order, from the most to the least specific, and the first rule found is used:
category, text and state; category and state; the state alone; category and text in any state.
Only names are told apart by their text, so for any other token the text is left out of the key.
-/

namespace LambdaLayout.Dispatch

/-- A state that can be named in a message. -/
class Shown (σ : Type) where
  /-- The name of the state. -/
  shown : σ → Text

/-- What a pass carries from token to token: its state, and whatever else its rules need. -/
structure Context (σ α : Type) where
  /-- The recorded state. -/
  state : σ
  /-- The data of the rules. -/
  aux : α

/-- The slots of a rule. -/
structure Key (σ : Type) where
  /-- The category asked for. -/
  kind : Option TokenKind := none
  /-- The text asked for. -/
  text : Option Text := none
  /-- The state asked for. -/
  state : Option σ := none
  deriving DecidableEq

namespace Key

variable {σ : Type}

/-- Says that the key asks for names. -/
def asksName (key : Key σ) : Bool := key.kind.any TokenKind.isNamed

/-- The key without its text, unless it asks for names. -/
def canonical (key : Key σ) : Key σ :=
  if key.asksName then key else { key with text := none }

/-- The written form of a category slot. -/
def kindText (kind : Option TokenKind) : Text :=
  match kind with
  | some kind => kind.display.toList
  | none => ['*']

/-- The written form of the key. -/
def render [Shown σ] (key : Key σ) : Text :=
  let text := (key.text.map Text.quoted).getD ['*']
  let state := (key.state.map Shown.shown).getD ['*']
  "(".toList ++ kindText key.kind ++ ", ".toList ++ text ++ ", ".toList ++ state ++ ")".toList

end Key

/-- Why a rule was not taken. -/
inductive Fault where
  /-- There is a rule with the same key. -/
  | duplicateRule (key : Text)
  /-- The rule asks for a text without asking for names. -/
  | stringRequiresName (kind : Text)
  deriving DecidableEq

/-- The words of the fault. -/
def Fault.message : Fault → Text
  | .duplicateRule key => "duplicate dispatch rule for key ".toList ++ key
  | .stringRequiresName kind =>
    "a string constraint requires the Name exact type, got ".toList ++ kind

/-- What a rule does with a token: it gives a result and the context to go on with. -/
abbrev Handler (σ α ρ : Type) := Context σ α → Token → ρ × Context σ α

/-- A collection of rules with pairwise different keys. -/
structure Table (σ α ρ : Type) where
  /-- The rules, the latest first. -/
  rules : List (Key σ × Handler σ α ρ) := []

namespace Table

variable {σ α ρ : Type} [DecidableEq σ]

/-- The table without rules. -/
def empty : Table σ α ρ := { }

/-- The number of rules. -/
def size (table : Table σ α ρ) : Nat := table.rules.length

/-- The rule with exactly this key. -/
def find? (table : Table σ α ρ) (key : Key σ) : Option (Handler σ α ρ) :=
  (table.rules.find? fun rule => rule.1 == key).map fun rule => rule.2

/-- Adds a rule. A rule that asks for a text must ask for names, and its key must be new. -/
def register [Shown σ] (table : Table σ α ρ) (key : Key σ) (handler : Handler σ α ρ) :
    Except Fault (Table σ α ρ) :=
  if key.text.isSome && !key.asksName then
    .error (.stringRequiresName (Key.kindText key.kind))
  else
    let key := key.canonical
    if (table.find? key).isSome then .error (.duplicateRule key.render)
    else .ok { rules := (key, handler) :: table.rules }

/-- The keys under which a token is looked up, most specific first. -/
def probes (token : Token) (state : σ) : List (Key σ) :=
  [Key.canonical ⟨some token.kind, some token.text, some state⟩,
   ⟨some token.kind, none, some state⟩,
   ⟨none, none, some state⟩,
   Key.canonical ⟨some token.kind, some token.text, none⟩]

/-- Runs the rule for a token. Blanks and comments have none, and neither may other tokens; the
context is then kept. -/
def dispatch (table : Table σ α ρ) (context : Context σ α) (token : Token) :
    Option ρ × Context σ α :=
  if token.isInsignificant then (none, context)
  else
    match (probes token context.state).findSome? table.find? with
    | none => (none, context)
    | some handler =>
      let (result, next) := handler context token
      (some result, next)

/-- Runs the rules for several tokens, one after the other. -/
def dispatchAll (table : Table σ α ρ) (context : Context σ α) :
    List Token → List ρ × Context σ α
  | [] => ([], context)
  | token :: rest =>
    let (result, next) := table.dispatch context token
    let (results, last) := dispatchAll table next rest
    (result.toList ++ results, last)

end Table

end LambdaLayout.Dispatch
