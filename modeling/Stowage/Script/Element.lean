/-
Elements: tags with attributes and content, written as operands. An element is short for a call that
creates it from its type, its attributes and its content, and it is read as that call.
-/
import Stowage.Script.Expression

namespace Stowage.Script.Element

open Parse Expression

variable (rules : Rules)

/-! ## Text -/

/-- The characters that stand for themselves by name. -/
def namedCharacters : List (String × Char) := [
  ("amp", '&'), ("lt", '<'), ("gt", '>'), ("quot", '"'), ("apos", '\''), ("nbsp", '\u00a0')]

/-- Text with its named characters put in. -/
def plainText : Nat → List Char → List Char
  | 0, cs => cs
  | _, [] => []
  | fuel + 1, '&' :: r =>
    let name := String.ofList (r.takeWhile Char.isAlpha)
    match namedCharacters.lookup name, r.dropWhile Char.isAlpha with
    | some c, ';' :: rest => c :: plainText fuel rest
    | _, _ => '&' :: plainText fuel r
  | fuel + 1, c :: r => c :: plainText fuel r

def ofPlainText (s : String) : String := String.ofList (plainText (s.length + 1) s.toList)

/-- Text between tags: blanks at the ends of lines are left out, and so are empty lines; a blank takes
the place of the end of a line. Text in a single line stays as it is. -/
def contentText (s : String) : String :=
  match s.splitOn "\n" with
  | [line] => ofPlainText line
  | first :: rest =>
    let last := rest.getLast?.getD ""
    let inner := rest.dropLast.map fun l => l.trimAscii.toString
    let lines := first.trimAsciiEnd.toString :: inner ++ [last.trimAsciiStart.toString]
    ofPlainText (" ".intercalate (lines.filter fun l => !l.isEmpty))
  | [] => ""

/-! ## Tags -/

def isTagOpen : List Token → Bool
  | t :: _ => t.kind = .tagOpen
  | [] => false

def isTagClose : List Token → Bool
  | t :: _ => t.kind = .tagClose
  | [] => false

def take (kind : TokenKind) : Parse Unit := do
  if (← next).kind ≠ kind then failure

def tagName : Parse String := do
  match (← next).kind with
  | .tagName s => return s
  | _ => failure

/-- A name behind a colon belongs to the name before it. -/
def attributeName : Parse String := do
  let n ← tagName
  if ← eat ":" then return n ++ ":" ++ (← tagName)
  return n

/-- The members of a type after its first name. -/
def members (l : Nat) : Nat → Node → Parse Node
  | 0, _ => failure
  | fuel + 1, e => do
    if ← eat "." then members l fuel (node (.member (← tagName) false) l [e])
    else return e

/-- The type of an element: the name of a tag as a text, or a value. -/
def elementType (l : Nat) : Parse Node := do
  let n ← attributeName
  let isValue ← sees "."
  let isPlain := n.toList.head?.any Char.isLower || n.toList.any fun c => c = '-' || c = ':'
  if isPlain && !isValue then return leaf (.string n) l
  let first := if n = "this" then leaf .thisWord l else leaf (.name n) l
  members l (← steps) first

/-- An expression in braces, after the opening one. -/
def braced (c : Context) : Parse Node := do
  let e ← rules .expression (Context.inside c)
  expect "\x7d"
  return e

/-- The value of an attribute. -/
def attributeValue (c : Context) (l : Nat) : Parse Node := do
  match ← get with
  | t :: r =>
    match t.kind with
    | .string s => set r; return leaf (.string (ofPlainText s)) l
    | .punct "\x7b" => set r; braced rules c
    | .tagOpen => rules .element c
    | _ => failure
  | [] => failure

/-- An attribute, as a member of an object. -/
def attributeMember (c : Context) : Parse Node := do
  let l ← line
  if ← eat "\x7b" then
    expect "..."
    return node .spread l [← braced rules c]
  let n ← attributeName
  let key := if n.toList.all fun (c : Char) => c ≠ '-' && c ≠ ':' then leaf (.key n) l
    else leaf (.string n) l
  if ← eat "=" then return node .property l [key, ← attributeValue rules c l]
  return node .property l [key, leaf (.bool true) l]

/-- The attributes of an element, or nothing in their place. -/
def attributes (c : Context) (l : Nat) : Parse Node := do
  let stop (ts : List Token) : Bool := isTagClose ts || isMark "/" ts
  match ← manyUntil stop (attributeMember rules c) (← steps) with
  | [] => return leaf .null l
  | all => return node .object l all

/-- A part of the content: text, an expression in braces, or another element. -/
def child (c : Context) : Parse (Option Node) := do
  let l ← line
  match ← get with
  | t :: r =>
    match t.kind with
    | .content s =>
      set r
      let text := contentText s
      return if text.isEmpty then none else some (leaf (.string text) l)
    | .punct "\x7b" =>
      set r
      if ← eat "\x7d" then return none
      if ← eat "..." then return some (node .spread l [← braced rules c])
      return some (← braced rules c)
    | .tagOpen => return some (← rules .element c)
    | _ => failure
  | [] => failure

/-- The content of an element up to its closing tag, and the type that this names. -/
def content (c : Context) (closing : Parse (Option Node)) : Parse (List Node × Option Node) := do
  let stop (ts : List Token) : Bool := isTagOpen ts && isMark "/" ts.tail
  let children ← manyUntil stop (child rules c) (← steps)
  let _ ← next
  let _ ← next
  let type ← closing
  take .tagClose
  return (children.filterMap id, type)

mutual

/-- Two types are spelled alike. -/
def sameType : Node → Node → Bool
  | .mk k _ ps, .mk k' _ qs => k = k' && sameTypes ps qs

def sameTypes : List Node → List Node → Bool
  | [], [] => true
  | p :: ps, q :: qs => sameType p q && sameTypes ps qs
  | _, _ => false

end

/-- The call that creates an element. -/
def creation (l : Nat) (type attributes : Node) (children : List Node) : Node :=
  let react := leaf (.name "React") l
  node (.call false) l (node (.member "createElement" false) l [react] :: type :: attributes :: children)

/-- An element, or a fragment, which has no type of its own. -/
def element (c : Context) : Parse Node := do
  let l ← line
  take .tagOpen
  if isTagClose (← get) then
    let _ ← next
    let (children, _) ← content rules c (pure none)
    let fragment := node (.member "Fragment" false) l [leaf (.name "React") l]
    return creation l fragment (leaf .null l) children
  let type ← elementType l
  let given ← attributes rules c l
  if ← eat "/" then
    take .tagClose
    return creation l type given []
  take .tagClose
  let (children, closed) ← content rules c (some <$> elementType l)
  if closed.any (sameType type) then return creation l type given children
  failure

end Stowage.Script.Element
