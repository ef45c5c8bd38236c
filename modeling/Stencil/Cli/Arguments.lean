/-!
# Arguments of a command line

Arguments are read against a table of options. An option has a long name and maybe a letter; it is
either a switch or takes a value, which stands behind an equals sign, behind the letter, or in the
next argument. Letters of switches may be joined. Behind a bare double dash every argument is an
operand.

* `marks`: what the arguments say, in order. An argument that the table does not explain is a mark
  too, so that it only matters to those who come to it.
* `CommandForm.Admits`: the marks are at no fault. What they may lack plays no part in this, so that
  it can be asked of the first few marks alone.
-/

namespace Stencil.Cli

/-- What an option takes, and how often it may be given. -/
inductive OptionKind where
  | switch
  | once (accepts : String → Bool)
  | many (accepts : String → Bool)

/-- An option of a command, with its name behind a double dash or its letter behind a single one. -/
structure OptionEntry where
  name : String
  letter : Option Char
  kind : OptionKind

namespace OptionEntry

/-- Whether the option takes a value. -/
def takesValue (entry : OptionEntry) : Bool :=
  match entry.kind with
  | .switch => false
  | .once _ | .many _ => true

/-- Whether a text is a value of the option. -/
def accepts (entry : OptionEntry) (text : String) : Bool :=
  match entry.kind with
  | .switch => false
  | .once accepts | .many accepts => accepts text

/-- Whether the option may be given more than once. -/
def repeatable (entry : OptionEntry) : Bool :=
  match entry.kind with
  | .many _ => true
  | .switch | .once _ => false

end OptionEntry

/-- What an argument says. -/
inductive Mark where
  | switch (name : String)
  | setting (name value : String)
  | operand (text : String)
  | endOfOptions
  /-- An option that is unknown, lacks its value or takes none. -/
  | unexplained
deriving DecidableEq

/-- Whether an argument is read as an option. A single dash is not. -/
def isOption (argument : String) : Bool :=
  match argument.toList with
  | '-' :: _ :: _ => true
  | _ => false

/-- Marks, and the name of the option that takes the next argument as its value, if there is one. -/
abbrev Reading := List Mark × Option String

/-- The text behind an equals sign at its start, if it has one. -/
def dropEquals : List Char → List Char
  | '=' :: rest => rest
  | text => text

/-- Reads what stands behind a single dash. -/
def readLetters (options : List OptionEntry) : List Char → Reading
  | [] => ([], none)
  | c :: rest =>
    match options.find? fun entry => entry.letter = some c with
    | none => ([.unexplained], none)
    | some entry =>
      if !entry.takesValue then
        let (marks, waiting) := readLetters options rest
        (.switch entry.name :: marks, waiting)
      else if rest = [] then ([], some entry.name)
      else ([.setting entry.name (String.ofList (dropEquals rest))], none)

/-- Reads what stands behind a double dash. -/
def readName (options : List OptionEntry) (text : List Char) : Reading :=
  let (name, value) := text.span (· ≠ '=')
  match options.find? fun entry => entry.name = String.ofList name, value with
  | none, _ => ([.unexplained], none)
  | some entry, [] =>
    if entry.takesValue then ([], some entry.name) else ([.switch entry.name], none)
  | some entry, _ :: value =>
    if entry.takesValue then ([.setting entry.name (String.ofList value)], none)
    else ([.unexplained], none)

/-- Reads an argument that is not the value of an option before it. -/
def readArgument (options : List OptionEntry) (argument : String) : Reading :=
  match argument.toList with
  | '-' :: '-' :: text => readName options text
  | '-' :: c :: text => readLetters options (c :: text)
  | _ => ([.operand argument], none)

/-- What arguments say, when the option `waiting` takes the first of them as its value. -/
def marksFrom (options : List OptionEntry) (waiting : Option String) : List String → List Mark
  | [] => if waiting.isSome then [.unexplained] else []
  | argument :: rest =>
    match waiting with
    | some name =>
      if isOption argument then [.unexplained]
      else .setting name argument :: marksFrom options none rest
    | none =>
      if argument = "--" then .endOfOptions :: rest.map .operand
      else
        let (marks, waiting) := readArgument options argument
        marks ++ marksFrom options waiting rest

/-- What arguments say. -/
def marks (options : List OptionEntry) (arguments : List String) : List Mark :=
  marksFrom options none arguments

/-! ## What marks say about one option -/

/-- The values given to an option, in order. -/
def values (name : String) (marks : List Mark) : List String :=
  marks.filterMap fun
    | .setting n value => if n = name then some value else none
    | _ => none

/-- The value of an option that may be given once. -/
def value? (name : String) (marks : List Mark) : Option String :=
  (values name marks).head?

/-- Whether a switch is set. -/
def isSet (name : String) (marks : List Mark) : Bool :=
  marks.contains (.switch name)

/-- The first operand. -/
def operand? (marks : List Mark) : Option String :=
  marks.findSome? fun
    | .operand text => some text
    | _ => none

/-! ## Marks that a command admits -/

/-- What a command takes. -/
structure CommandForm where
  options : List OptionEntry
  /-- Whether a text is its operand, if it takes one. -/
  operand : Option (String → Bool)

namespace CommandForm

/-- Whether a mark is at no fault when it stands alone. -/
def allows (form : CommandForm) : Mark → Bool
  | .switch _ | .endOfOptions => true
  | .setting name value => form.options.any fun entry => entry.name = name && entry.accepts value
  | .operand text => form.operand.any (· text)
  | .unexplained => false

/-- Whether two marks are too many: they set one switch, they set one option that may be given
once, or both are operands. -/
def clash (form : CommandForm) : Mark → Mark → Bool
  | .switch a, .switch b => a = b
  | .setting a _, .setting b _ =>
    a = b && !form.options.any fun entry => entry.name = a && entry.repeatable
  | .operand _, .operand _ => true
  | _, _ => false

/-- Marks that are at no fault, alone and together. -/
def Admits (form : CommandForm) (marks : List Mark) : Prop :=
  (∀ mark ∈ marks, form.allows mark = true) ∧ marks.Pairwise fun a b => form.clash a b = false

instance (form : CommandForm) (marks : List Mark) : Decidable (form.Admits marks) :=
  inferInstanceAs (Decidable (_ ∧ _))

end CommandForm

end Stencil.Cli
