/-
Reading tokens one after the other: a reader takes tokens off the front of a list or fails.
-/
import Stowage.Script.Tree
import Stowage.Script.Token

namespace Stowage.Script

abbrev Parse := StateT (List Token) Option

namespace Parse

def isMark (p : String) : List Token → Bool
  | t :: _ => t.kind = .punct p
  | [] => false

def isWord (w : String) : List Token → Bool
  | t :: _ => t.kind = .word w
  | [] => false

/-- The next token stands in a later line than the one before it, or there is none. -/
def isOnNewLine : List Token → Bool
  | t :: _ => t.onNewLine
  | [] => true

/-- The line of the next token. -/
def line : Parse Nat := do return ((← get).head?.map (·.line)).getD 0

def next : Parse Token := do
  match ← get with
  | [] => failure
  | t :: r => set r; return t

def sees (p : String) : Parse Bool := do return isMark p (← get)

def seesWord (w : String) : Parse Bool := do return isWord w (← get)

/-- Takes a mark if it comes next. -/
def eat (p : String) : Parse Bool := do
  if ← sees p then let _ ← next; return true
  return false

def eatWord (w : String) : Parse Bool := do
  if ← seesWord w then let _ ← next; return true
  return false

def expect (p : String) : Parse Unit := do
  if !(← eat p) then failure

def expectWord (w : String) : Parse Unit := do
  if !(← eatWord w) then failure

/-- Ends a statement: with a semicolon, before a closing brace, or where the line ends. -/
def semicolon : Parse Unit := do
  if ← eat ";" then return
  let ts ← get
  if isMark "\x7d" ts || isOnNewLine ts then return
  failure

/-- The name that a token spells, unless it is reserved. -/
def nameOf : TokenKind → Option String
  | .word w => if reservedWords.contains w then none else some w
  | .escapedWord w => some w
  | _ => none

/-- The word that a token spells, reserved or not. -/
def wordOf : TokenKind → Option String
  | .word w => some w
  | .escapedWord w => some w
  | _ => none

def isName : List Token → Bool
  | t :: _ => (nameOf t.kind).isSome
  | [] => false

/-- Takes a name that is not reserved. -/
def name : Parse String := do
  match nameOf (← next).kind with
  | some n => return n
  | none => failure

/-- Takes any word. -/
def word : Parse String := do
  match wordOf (← next).kind with
  | some w => return w
  | none => failure

def stringToken : Parse String := do
  match (← next).kind with
  | .string s => return s
  | _ => failure

/-- Reads one item after the other until `stop`. -/
def manyUntil {α : Type} (stop : List Token → Bool) (item : Parse α) : Nat → Parse (List α)
  | 0 => failure
  | fuel + 1 => do
    if stop (← get) then return []
    let x ← item
    return x :: (← manyUntil stop item fuel)

/-- Enough steps for anything that takes at least one token a step. -/
def steps : Parse Nat := do return (← get).length + 1

/-- Reads items between commas up to and including `close`, a comma may stand after the last one.
The second result says whether it does. -/
def commaList {α : Type} (close : String) (item : Parse α) : Nat → Parse (List α × Bool)
  | 0 => failure
  | fuel + 1 => do
    if ← eat close then return ([], false)
    let x ← item
    if ← eat close then return ([x], false)
    expect ","
    if ← eat close then return ([x], true)
    let (xs, trailing) ← commaList close item fuel
    return (x :: xs, trailing)

def openMarks : List String := ["(", "[", "\x7b", "$\x7b"]

def closeMarks : List String := [")", "]", "\x7d"]

/-- What follows the bracket that closes `depth` open ones. -/
def afterClose : Nat → List Token → Option (List Token)
  | _, [] => none
  | depth, t :: r =>
    match t.kind with
    | .punct p =>
      if openMarks.contains p then afterClose (depth + 1) r
      else if closeMarks.contains p then
        if depth ≤ 1 then some r else afterClose (depth - 1) r
      else afterClose depth r
    | _ => afterClose depth r

/-- Skips a bracket with all that it encloses. -/
def skipGroup : Parse Unit := do
  match ← get with
  | t :: r =>
    match t.kind with
    | .punct p =>
      if openMarks.contains p then
        match afterClose 1 r with
        | some rest => set rest
        | none => failure
      else failure
    | _ => failure
  | [] => failure

end Parse
end Stowage.Script
