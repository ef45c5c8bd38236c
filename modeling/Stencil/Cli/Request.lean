import Stencil.Cli.Arguments
import Stencil.Generator.Basic

/-!
# Requests

What a command line asks for: to show the version or the help text, or to run one of three commands.
A command line that asks for nothing of the kind is a usage error, `Request.ofArguments?` being
`none` for it.
-/

namespace Stencil.Cli

/-- The options of the command that fills templates. -/
structure GenerateOptions where
  templates : String
  combos : String
  paths : List String
  unique : Bool
  dedup : DedupPolicy
  renames : List (String × String)
  compact : Bool
deriving DecidableEq

/-- The options of the command that shows what a path expression selects. -/
structure ExpandOptions where
  expression : String
  document : Option String
  json : Bool
deriving DecidableEq

/-- The options of the command that runs a plan. -/
structure RunOptions where
  plan : String
  /-- The stage to print in place of the output stage. -/
  stage : Option String
  /-- Whether the compact layout is used, whatever the plan says. -/
  compact : Bool
deriving DecidableEq

/-- A command. -/
inductive Command where
  | generate (options : GenerateOptions)
  | expand (options : ExpandOptions)
  | run (options : RunOptions)
deriving DecidableEq

/-- What a command line asks for. -/
inductive Request where
  | version
  | help
  /-- To run a command, with or without notes on its progress. -/
  | command (command : Command) (verbose : Bool)
deriving DecidableEq

/-- The text that shows the version. -/
def versionText : String :=
  "jsonium 0.1.0"

/-! ## What commands take -/

/-- Whether a text is a location: it is not empty. -/
def isLocation (text : String) : Bool :=
  text ≠ ""

/-- The pair of names that a text spells, cut at its first equals sign. Neither is empty. -/
def rename? (text : String) : Option (String × String) :=
  match text.toList.span (· ≠ '=') with
  | (before, _ :: after) =>
    if before = [] ∨ after = [] then none else some (String.ofList before, String.ofList after)
  | _ => none

/-- The options that stand in front of the command as well as behind it. -/
def commonOptions : List OptionEntry :=
  [⟨"verbose", 'v', .switch⟩, ⟨"help", 'h', .switch⟩]

/-- The options in front of the command. -/
def leadingOptions : List OptionEntry :=
  commonOptions ++ [⟨"version", 'V', .switch⟩]

/-- What the command takes that fills templates. -/
def generateForm : CommandForm where
  options := commonOptions ++
    [⟨"templates", 't', .once isLocation⟩, ⟨"combos", 'c', .once isLocation⟩,
      ⟨"path", 'p', .many fun _ => true⟩, ⟨"unique", 'u', .switch⟩,
      ⟨"dedup", none, .once fun text => (DedupPolicy.ofName? text).isSome⟩,
      ⟨"rename", 'r', .many fun text => (rename? text).isSome⟩, ⟨"compact", none, .switch⟩]
  operand := none

/-- What the command takes that shows what a path expression selects. -/
def expandForm : CommandForm where
  options := commonOptions ++ [⟨"document", 'd', .once isLocation⟩, ⟨"json", none, .switch⟩]
  operand := some fun _ => true

/-- What the command takes that runs a plan. -/
def runForm : CommandForm where
  options := commonOptions ++ [⟨"stage", 's', .once fun _ => true⟩, ⟨"compact", none, .switch⟩]
  operand := some isLocation

/-! ## What marks ask of a command

The marks are admitted, so that only what they lack stands in the way of a command.
-/

/-- The policy with a name; structural equality is the default. -/
def policy? : Option String → Option DedupPolicy
  | none => some .structural
  | some name => DedupPolicy.ofName? name

/-- What marks ask of the command that fills templates. -/
def generate? (marks : List Mark) : Option Command := do
  let templates ← value? "templates" marks
  let combos ← value? "combos" marks
  let dedup ← policy? (value? "dedup" marks)
  let renames ← (values "rename" marks).mapM rename?
  return .generate { templates, combos, paths := values "path" marks,
                     unique := isSet "unique" marks, dedup, renames,
                     compact := isSet "compact" marks }

/-- What marks ask of the command that shows what a path expression selects. -/
def expand? (marks : List Mark) : Option Command := do
  let expression ← operand? marks
  return .expand { expression, document := value? "document" marks, json := isSet "json" marks }

/-- What marks ask of the command that runs a plan. -/
def run? (marks : List Mark) : Option Command := do
  let plan ← operand? marks
  return .run { plan, stage := value? "stage" marks, compact := isSet "compact" marks }

/-! ## Requests -/

/-- What marks behind the name of a command ask for. The help text is shown if nothing before the
first call for it is at fault; what the marks lack does not matter to it. -/
def Request.ofMarks? (verbose : Bool) (form : CommandForm) (command? : List Mark → Option Command)
    (marks : List Mark) : Option Request :=
  if ¬ form.Admits (marks.takeWhile (· ≠ .switch "help")) then none
  else if isSet "help" marks then some .help
  else do return .command (← command? marks) (verbose || isSet "verbose" marks)

/-- What arguments behind the name of a command ask for. -/
def Request.ofForm? (verbose : Bool) (form : CommandForm) (command? : List Mark → Option Command)
    (arguments : List String) : Option Request :=
  ofMarks? verbose form command? (marks form.options arguments)

/-- The names that stand in the place of a command. -/
def commandNames : List String :=
  ["generate", "expand", "run", "help"]

/-- Whether help can be asked for with arguments: they name one command, or none. -/
def isTopic : List String → Bool
  | [] => true
  | [name] => commandNames.contains name
  | _ => false

/-- What the arguments behind the leading options ask for. -/
def Request.ofCommand? (verbose : Bool) : List String → Option Request
  | [] => none
  | name :: rest =>
    if name = "generate" then ofForm? verbose generateForm generate? rest
    else if name = "expand" then ofForm? verbose expandForm expand? rest
    else if name = "run" then ofForm? verbose runForm run? rest
    else if name = "help" ∧ isTopic rest then some .help
    else none

/-- What leading marks and the arguments behind them ask for. The version and the help text are
shown as soon as they are asked for. -/
def Request.ofLeading? (behind : List String) (verbose : Bool) : List Mark → Option Request
  | [] => ofCommand? verbose behind
  | .switch name :: rest =>
    if name = "version" then some .version
    else if name = "help" then some .help
    else if verbose then none
    else ofLeading? behind true rest
  | _ => none

/-- What a command line asks for. -/
def Request.ofArguments? (arguments : List String) : Option Request :=
  let (leading, behind) := arguments.span isOption
  ofLeading? behind false (marks leadingOptions leading)

end Stencil.Cli
