/-
Reading a script. A text is read as a module; one that is no module is read as a plain script, in
which `await` is a name and nothing is imported or exported.
-/
import Stowage.Script.Statement
import Stowage.Script.Element
import Stowage.Script.Lexer

namespace Stowage.Script.Parser

open Parse

/-- The rules with at most the given number of levels of nesting. -/
def rules : Nat → Rules
  | 0 => fun _ _ => failure
  | depth + 1 => fun goal c =>
    match goal with
    | .expression => Expression.expression (rules depth) c
    | .assignment => Expression.assignment (rules depth) c
    | .unary => Expression.unary (rules depth) c
    | .power => Expression.power (rules depth) c
    | .pattern => Expression.pattern (rules depth) c
    | .statement => Statement.statement (rules depth) c true
    | .body => Statement.statement (rules depth) c false
    | .item => Statement.moduleItem (rules depth) c
    | .element => Element.element (rules depth) c

/-- Levels of nesting that no text with this many tokens exceeds: between two levels at most a few
rules are applied without taking a token. -/
def depthFor (tokens : List Token) : Nat := 8 * tokens.length + 64

/-- Reads all items of a text. -/
def items (item : Parse Node) (tokens : List Token) : Option (List Node) :=
  (manyUntil List.isEmpty item (tokens.length + 1) tokens).map Prod.fst

def moduleItems (typed : Bool) (tokens : List Token) : Option (List Node) :=
  let c : Context := ⟨true, false, false, false, false, typed, false⟩
  items (Statement.moduleItem (rules (depthFor tokens)) c) tokens

def scriptItems (tokens : List Token) : Option (List Node) :=
  let c : Context := ⟨false, false, false, false, false, false, false⟩
  items (Statement.statement (rules (depthFor tokens)) c true) tokens

/-- The items of a text, if it is a module or a script. -/
def parse (text : String) : Option (List Node) := do
  let tokens ← Lexer.tokens false text
  moduleItems false tokens <|> scriptItems tokens

/-- What a text may hold beside plain code. -/
structure Dialect where
  typed : Bool
  markup : Bool
  deriving DecidableEq, Inhabited

/-- The items of a module. -/
def parseModule (d : Dialect) (text : String) : Option (List Node) := do
  moduleItems d.typed (← Lexer.tokens d.markup text)

end Stowage.Script.Parser
