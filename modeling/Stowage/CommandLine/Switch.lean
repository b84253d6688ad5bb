/-
Splitting the arguments of a command into switches with their values and operands. A switch is written
`--name value`, `--name=value`, `-n value`, `-nvalue` or `-n=value`; short switches without a value may
share one argument. After `--` everything is an operand.
-/

namespace Stowage.CommandLine

/-- How many values a switch takes. -/
inductive Arity where
  | flag
  | one
  /-- All arguments up to the next switch. -/
  | many
  deriving DecidableEq, Inhabited

structure Switch where
  name : String
  short : Option Char
  arity : Arity
  deriving DecidableEq, Inhabited

/-- Why arguments cannot be understood. -/
inductive UsageFault where
  | noCommand
  | unknownCommand (name : String)
  | unknownSwitch (text : String)
  | missingValue (name : String)
  | unexpectedValue (text : String)
  | givenTwice (name : String)
  | invalidValue (name value : String)
  deriving DecidableEq, Inhabited

def UsageFault.message : UsageFault → String
  | .noCommand => "a command is required: bundle, trace, expand or root"
  | .unknownCommand name => s!"there is no command '{name}'"
  | .unknownSwitch text => s!"there is no switch '{text}'"
  | .missingValue name => s!"'{name}' needs a value"
  | .unexpectedValue text => s!"'{text}' is not expected"
  | .givenTwice name => s!"'{name}' can be given once only"
  | .invalidValue name value => s!"'{value}' is no value for '{name}'"

/-- What was given on a command line. -/
structure Given where
  /-- Each use of a switch without values, and each value of the others, in order. -/
  switches : List (String × Option String)
  operands : List String
  deriving DecidableEq, Inhabited

namespace Given

def empty : Given := ⟨[], []⟩

def add (g : Given) (name : String) (value : Option String) : Given :=
  { g with switches := g.switches ++ [(name, value)] }

def addOperands (g : Given) (operands : List String) : Given :=
  { g with operands := g.operands ++ operands }

def has (g : Given) (name : String) : Bool := g.switches.any (·.1 = name)

/-- The values of a switch in order. -/
def values (g : Given) (name : String) : List String :=
  g.switches.filterMap fun (n, v) => if n = name then v else none

/-- The value of a switch that takes one. -/
def value? (g : Given) (name : String) : Option String := (g.values name).head?

end Given

/-- What the next argument may be: a value for the switch that was given last, which it may still need. -/
structure Waiting where
  switch : Switch
  isNeeded : Bool
  deriving DecidableEq, Inhabited

/-- The argument starts with a dash and is more than a dash. -/
def isSwitch (text : String) : Bool :=
  match text.toList with
  | '-' :: _ :: _ => true
  | _ => false

/-- A switch was read; the text behind it, if there is any, is its value. -/
def useSwitch (s : Switch) (g : Given) (rest : Option (List Char)) :
    Except UsageFault (Given × Option Waiting) :=
  if s.arity ≠ .many ∧ g.has s.name then .error (.givenTwice s.name)
  else
    match s.arity, rest with
    | .flag, none => .ok (g.add s.name none, none)
    | .flag, some cs => .error (.unexpectedValue (String.ofList cs))
    | _, none => .ok (g, some ⟨s, true⟩)
    | arity, some cs =>
      let isAssigned := cs.head? = some '='
      let g := g.add s.name (some (String.ofList (cs.dropWhile (· = '='))))
      .ok (g, if arity = .many ∧ !isAssigned then some ⟨s, false⟩ else none)

/-- Reads a switch by its name, after its dashes. -/
def readLong (switches : List Switch) (text : List Char) (g : Given) :
    Except UsageFault (Given × Option Waiting) :=
  let name := String.ofList (text.takeWhile (· ≠ '='))
  let rest := text.dropWhile (· ≠ '=')
  match switches.find? (·.name = name) with
  | some s => useSwitch s g (if rest.isEmpty then none else some rest)
  | none => .error (.unknownSwitch ("--" ++ name))

/-- Reads switches by their letters, after the dash. -/
def readShort (switches : List Switch) : List Char → Given → Except UsageFault (Given × Option Waiting)
  | [], g => .ok (g, none)
  | c :: rest, g =>
    match switches.find? (·.short = some c) with
    | none => .error (.unknownSwitch ("-" ++ String.ofList [c]))
    | some s =>
      match s.arity with
      | .flag => do
        let (g, _) ← useSwitch s g none
        readShort switches rest g
      | _ => useSwitch s g (if rest.isEmpty then none else some rest)

/-- Reads arguments. -/
def readArguments (switches : List Switch) :
    Option Waiting → Given → List String → Except UsageFault Given
  | some ⟨s, true⟩, _, [] => .error (.missingValue s.name)
  | _, g, [] => .ok g
  | waiting, g, text :: rest => do
    if isSwitch text then
      if let some ⟨s, true⟩ := waiting then throw (.missingValue s.name)
      match text.toList with
      | ['-', '-'] => return g.addOperands rest
      | '-' :: '-' :: cs =>
        let (g, waiting) ← readLong switches cs g
        readArguments switches waiting g rest
      | cs =>
        let (g, waiting) ← readShort switches (cs.drop 1) g
        readArguments switches waiting g rest
    else
      match waiting with
      | some ⟨s, _⟩ =>
        let waiting := if s.arity = .many then some ⟨s, false⟩ else none
        readArguments switches waiting (g.add s.name (some text)) rest
      | none => readArguments switches none (g.addOperands [text]) rest

/-- What arguments give. -/
def Given.ofArguments (switches : List Switch) (arguments : List String) : Except UsageFault Given :=
  readArguments switches none .empty arguments

end Stowage.CommandLine
