import LinearPlan.Optimizer.Factoring
import LinearPlan.Optimizer.Slicing
import LinearPlan.Text.Fields

/-!
# Configuration

Rules are registered under names, and chosen by a text: names separated by commas, each with
options after a colon if it takes any. Blanks around an item and empty items do not count. A blank
text chooses all registered rules in the order of their names.
-/
namespace LinearPlan.Optimizer

inductive OptionsFault where
  | unexpected (rule options : String)
  | invalid (rule options : String)
  | other (text : String)
deriving DecidableEq, Repr

def OptionsFault.message : OptionsFault → String
  | .unexpected rule options =>
    s!"rule {Text.quoted rule} takes no options, got {Text.quoted options}"
  | .invalid rule options =>
    s!"rule {Text.quoted rule}: invalid options {Text.quoted options}, " ++
      "valid values are \"row\" or \"col\""
  | .other text => text

abbrev Constructor := String → Except OptionsFault Rule

/-- The registered rules by name. No name occurs twice. -/
structure Registry where
  entries : List (String × Constructor)

inductive ConfigFault where
  | badName (name : String)
  | noRules
  | unknownRule (name config : String) (registered : List String)
  | options (name : String) (cause : OptionsFault)
deriving DecidableEq, Repr

def ConfigFault.message : ConfigFault → String
  | .badName name =>
    s!"rewrite.Register({Text.quoted name}): rule names cannot contain ',' or ':'"
  | .noRules =>
    "no registered rewrite rules -- maybe import them with " ++
      "import _ \"github.com/gomlx/hoprewrite/pkg/rewrite/all\"?"
  | .unknownRule name config registered =>
    s!"unknown rewrite rule {Text.quoted name} in configuration {Text.quoted config}, " ++
      s!"registered rules are {Text.quotedList registered}"
  | .options name cause => s!"configuring rewrite rule {Text.quoted name}: {cause.message}"

namespace Registry

def empty : Registry := ⟨[]⟩

def names (r : Registry) : List String := r.entries.map Prod.fst

def sortedNames (r : Registry) : List String := r.names.mergeSort fun a b => decide (¬ b < a)

def find? (r : Registry) (name : String) : Option Constructor := r.entries.lookup name

def put (name : String) (make : Constructor) :
    List (String × Constructor) → List (String × Constructor)
  | [] => [(name, make)]
  | entry :: rest => if entry.1 = name then (name, make) :: rest else entry :: put name make rest

def register (r : Registry) (name : String) (make : Constructor) : Except ConfigFault Registry :=
  if name.toList.any fun c => c == ',' || c == ':' then .error (.badName name)
  else .ok ⟨put name make r.entries⟩

def makeFactoring : Constructor := fun options =>
  if options = "" then .ok Factoring.rule
  else .error (.unexpected Factoring.ruleName options)

def makeSlicing : Constructor := fun options =>
  if options = "" then .ok (Slicing.rule [.row, .col])
  else if options = "row" then .ok (Slicing.rule [.row])
  else if options = "col" then .ok (Slicing.rule [.col])
  else .error (.invalid Slicing.ruleName options)

def standard : Registry :=
  ⟨[(Factoring.ruleName, makeFactoring), (Slicing.ruleName, makeSlicing)]⟩

def items (config : List Char) : List (List Char) :=
  ((Text.fields ',' config).map Text.trimmed).filter fun item => decide (item ≠ [])

def specs (r : Registry) (config : String) : List (List Char) :=
  if Text.trimmed config.toList = [] then r.sortedNames.map String.toList
  else items config.toList

def ruleFor (r : Registry) (config : String) (item : List Char) : Except ConfigFault Rule :=
  let (name, options) := Text.cut ':' item
  match r.find? (String.ofList name) with
  | none => .error (.unknownRule (String.ofList name) config r.sortedNames)
  | some make => match make (String.ofList options) with
    | .error cause => .error (.options (String.ofList name) cause)
    | .ok rule => .ok rule

def configure (r : Registry) (config : String) : Except ConfigFault (List Rule) :=
  if r.entries.isEmpty then .error .noRules else (r.specs config).mapM (r.ruleFor config)

end Registry

/-- The configuration in force: what is asked for, else the setting of the environment, else the
default. -/
def chosenConfig (asked environment : Option String) (default : String) : String :=
  asked.getD (environment.getD default)

end LinearPlan.Optimizer
