/-
Strict code. A module that is to be compiled must not hold some things that are read without a
complaint when its references are looked for: a `return` outside of functions, a jump outside of what it
could leave, a `with`, octal numbers with a bare zero, constants without a value, changing or deleting
what cannot be changed or deleted, and names that strict code reserves.
-/
import Stowage.Script.Tree

namespace Stowage.Script.Strict

/-- What surrounds a node. -/
structure Surroundings where
  inFunction : Bool
  inLoop : Bool
  inSwitch : Bool
  /-- The labels that jumps may name. -/
  labels : List String
  /-- It is the variable of a loop over something, which gets its values from there. -/
  isLoopVariable : Bool
  deriving DecidableEq, Inhabited

def reservedNames : List String := [
  "implements", "interface", "let", "package", "private", "protected", "public", "static", "yield",
  "await"]

/-- Names that strict code must not assign to. -/
def fixedNames : List String := ["eval", "arguments"]

/-- A number whose first digit is a zero that another digit follows. -/
def isLegacyNumber (s : String) : Bool :=
  match s.toList with
  | '0' :: c :: _ => c.isDigit
  | _ => false

/-- The expression may be changed in place. -/
def isPlace : Node → Bool
  | .mk (.name n) _ _ => !fixedNames.contains n
  | .mk (.member _ isOptional) _ _ => !isOptional
  | .mk (.index isOptional) _ _ => !isOptional
  | .mk .parenthesized _ [e] => isPlace e
  | _ => false

def isFixedName : Node → Bool
  | .mk (.name n) _ _ => fixedNames.contains n
  | _ => false

def isName : Node → Bool
  | .mk (.name _) _ _ => true
  | _ => false

def hasValue (declarator : Node) : Bool := 1 < declarator.parts.length

/-- A node is allowed where it stands, its parts aside. -/
def allows (s : Surroundings) (kind : Kind) (parts : List Node) : Bool :=
  match kind with
  | .name n => !reservedNames.contains n
  | .number n => !isLegacyNumber n
  | .declaration "const" => s.isLoopVariable || parts.all hasValue
  | .returnWith => s.inFunction
  | .break none => s.inLoop || s.inSwitch
  | .break (some label) => s.labels.contains label
  | .continue none => s.inLoop
  | .continue (some label) => s.inLoop && s.labels.contains label
  | .labeled label => !s.labels.contains label
  | .withObject => false
  | .unary "delete" => !parts.head?.any isName
  | .assign "=" => !parts.head?.any isFixedName
  | .assign _ => parts.head?.any isPlace
  | .update _ _ => parts.head?.any isPlace
  | _ => true

/-- What surrounds the parts of a node. -/
def Surroundings.inside (s : Surroundings) (kind : Kind) : Surroundings :=
  let s := { s with isLoopVariable := false }
  match kind with
  | .function _ _ _ => ⟨true, false, false, [], false⟩
  | .arrow _ => ⟨true, false, false, [], false⟩
  | .forLoop _ _ _ => { s with inLoop := true }
  | .forIn => { s with inLoop := true, isLoopVariable := true }
  | .forOf _ => { s with inLoop := true, isLoopVariable := true }
  | .whileLoop => { s with inLoop := true }
  | .doWhile => { s with inLoop := true }
  | .switch => { s with inSwitch := true }
  | .labeled label => { s with labels := label :: s.labels }
  | _ => s

mutual

def accepts (s : Surroundings) : Node → Bool
  | .mk kind _ parts => allows s kind parts && acceptsAll (s.inside kind) parts

def acceptsAll (s : Surroundings) : List Node → Bool
  | [] => true
  | n :: ns => accepts s n && acceptsAll { s with isLoopVariable := false } ns

end

/-- The items are those of a module in strict code. -/
def isStrict (items : List Node) : Bool := acceptsAll ⟨false, false, false, [], false⟩ items

end Stowage.Script.Strict
