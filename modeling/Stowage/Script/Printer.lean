/-
Writing a script: one statement to a line, four blanks to a level. Parentheses are part of the tree, so
what is written reads back as the same tree.
-/
import Stowage.Script.Tree

namespace Stowage.Script.Printer

/-! ## Words -/

def hexDigits (n : Nat) : List Char :=
  let ds := Nat.toDigits 16 n
  List.replicate (4 - ds.length) '0' ++ ds

/-- A character inside double quotes. -/
def escape (c : Char) : List Char :=
  if c = '"' then ['\\', '"']
  else if c = '\\' then ['\\', '\\']
  else if c = '\n' then ['\\', 'n']
  else if c = '\r' then ['\\', 'r']
  else if c = '\t' then ['\\', 't']
  else if c.toNat < 32 ∨ c = '\u2028' ∨ c = '\u2029' then '\\' :: 'u' :: hexDigits c.toNat
  else [c]

def quote (s : String) : String := "\"" ++ String.ofList (s.toList.flatMap escape) ++ "\""

def indent (level : Nat) : String := String.ofList (List.replicate (4 * level) ' ')

def commas (items : List String) : String := ", ".intercalate items

/-- Lines between an opening and a closing mark. -/
def enclose (level : Nat) (opening closing separator : String) (lines : List String) : String :=
  let inner := lines.map fun l => indent (level + 1) ++ l
  if lines.isEmpty then opening ++ "\n" ++ indent level ++ closing
  else opening ++ "\n" ++ (separator ++ "\n").intercalate inner ++ "\n" ++ indent level ++ closing

def functionHead (name : Option String) (isAsync isGenerator : Bool) : String :=
  (if isAsync then "async " else "") ++ "function" ++ (if isGenerator then "*" else "") ++
    (name.map (" " ++ ·)).getD ""

/-- What stands before the key of a method. -/
def methodHead (kind : MethodKind) (isStatic isAsync isGenerator : Bool) : String :=
  (if isStatic then "static " else "") ++ (if isAsync then "async " else "") ++
    (match kind with
      | .plain => ""
      | .getter => "get "
      | .setter => "set ") ++ (if isGenerator then "*" else "")

/-- The texts of a template with its interpolations. -/
def template : List Chunk → List String → String
  | [], _ => ""
  | [c], _ => c.2
  | c :: cs, [] => c.2 ++ template cs []
  | c :: cs, e :: es => c.2 ++ "$\x7b" ++ e ++ "\x7d" ++ template cs es

/-- A text without the mark that ends a statement. -/
def withoutSemicolon (s : String) : String :=
  match s.toList.reverse with
  | ';' :: r => String.ofList r.reverse
  | _ => s

def isWordOperator (op : String) : Bool := op.toList.any Char.isAlpha

/-- A statement behind the head of another one. -/
def body (kind : Kind) (text : String) : String :=
  match kind with
  | .block => text
  | _ => " " ++ text

def importNames (names : List ImportName) : String :=
  let outside := names.filterMap fun n => match n with
    | .main s => some s
    | .whole s => some ("* as " ++ s)
    | .named _ _ => none
  let inside := names.filterMap fun n => match n with
    | .named a b => some (if a = b then a else a ++ " as " ++ b)
    | _ => none
  commas (outside ++ if inside.isEmpty then [] else ["\x7b " ++ commas inside ++ " \x7d"])

def exportNames (names : List (String × String)) : String :=
  "\x7b " ++ commas (names.map fun (a, b) => if a = b then a else a ++ " as " ++ b) ++ " \x7d"

/-! ## Layout -/

/-- The parts of a kind stand one level deeper than the whole. -/
def isDeeper : Kind → Bool
  | .array => true
  | .object => true
  | .block => true
  | .classBody _ _ => true
  | .switch => true
  | .case _ => true
  | _ => false

/-- The text of an `if` statement. -/
def ifElse (level : Nat) (kinds : List Kind) (parts : List String) : String :=
  match kinds, parts with
  | [_, k], [test, yes] => "if (" ++ test ++ ")" ++ " " ++ (body k yes).trimAsciiStart.toString
  | [_, k, _], [test, yes, no] =>
    let head := "if (" ++ test ++ ") " ++ yes
    match k with
    | .block => head ++ " else " ++ no
    | _ => head ++ "\n" ++ indent level ++ "else " ++ no
  | _, _ => ""

/-- The text of a loop with its parts in the head. -/
def forLoop (hasInit hasTest hasUpdate : Bool) (kinds : List Kind) (parts : List String) : String :=
  let take (has : Bool) (xs : List String) : String × List String :=
    match has, xs with
    | true, x :: r => (withoutSemicolon x, r)
    | _, xs => ("", xs)
  let (start, rest) := take hasInit parts
  let (test, rest) := take hasTest rest
  let (update, rest) := take hasUpdate rest
  let gap (s : String) : String := if s.isEmpty then ";" else "; " ++ s
  "for(" ++ start ++ gap test ++ gap update ++ ")" ++
    body (kinds.getLast?.getD .empty) (rest.headD "")

def loopOver (head word : String) (kinds : List Kind) (parts : List String) : String :=
  match kinds, parts with
  | [_, _, k], [left, right, inner] =>
    head ++ withoutSemicolon left ++ " " ++ word ++ " " ++ right ++ ")" ++ body k inner
  | _, _ => ""

def tryCatch (hasCatch hasFinally : Bool) (parts : List String) : String :=
  match hasCatch, hasFinally, parts with
  | true, true, [b, c, f] => "try " ++ b ++ " " ++ c ++ " finally " ++ f
  | true, false, [b, c] => "try " ++ b ++ " " ++ c
  | false, true, [b, f] => "try " ++ b ++ " finally " ++ f
  | _, _, b :: _ => "try " ++ b ++ " finally \x7b\x7d"
  | _, _, [] => ""

/-- The text of a method from the text of its function. -/
def method (kind : MethodKind) (isStatic : Bool) (kinds : List Kind) (parts : List String) : String :=
  match kinds, parts with
  | [_, .function name isAsync isGenerator], [key, f] =>
    let head := functionHead name isAsync isGenerator
    methodHead kind isStatic isAsync isGenerator ++ key ++ String.ofList (f.toList.drop head.length)
  | _, _ => ""

/-- An operand before a dot. -/
def beforeDot (kinds : List Kind) (text : String) : String :=
  match kinds with
  | [.number _] => "(" ++ text ++ ")"
  | _ => text

/-- The text of a kind from the texts of its parts. -/
def layout (level : Nat) (kind : Kind) (kinds : List Kind) (parts : List String) : String :=
  let first := parts.headD ""
  let rest := parts.tail
  let second := rest.headD ""
  match kind with
  | .name s => s
  | .thisWord => "this"
  | .superWord => "super"
  | .null => "null"
  | .bool b => if b then "true" else "false"
  | .number s => s
  | .string s => quote s
  | .regex s => s
  | .metaProperty s => s
  | .template chunks => "\x60" ++ template chunks parts ++ "\x60"
  | .tagged chunks => first ++ "\x60" ++ template chunks rest ++ "\x60"
  | .array => if parts.isEmpty then "[]" else
    enclose level "[" (if kinds.getLast? = some .hole then ",]" else "]") "," parts
  | .hole => ""
  | .spread => "..." ++ first
  | .object => enclose level "\x7b" "\x7d" "," parts
  | .property => if rest.isEmpty then first else first ++ ": " ++ second
  | .key s => s
  | .computedKey => "[" ++ first ++ "]"
  | .shorthand => first
  | .shorthandDefault => first ++ " = " ++ second
  | .method k isStatic => method k isStatic kinds parts
  | .field isStatic =>
    (if isStatic then "static " else "") ++ " = ".intercalate parts ++ ";"
  | .function name isAsync isGenerator =>
    functionHead name isAsync isGenerator ++ "(" ++ commas parts.dropLast ++ ") " ++
      parts.getLast?.getD ""
  | .arrow isAsync =>
    (if isAsync then "async " else "") ++ "(" ++ commas parts.dropLast ++ ")=>" ++
      parts.getLast?.getD ""
  | .classBody name extended =>
    let head := "class" ++ (name.map (" " ++ ·)).getD ""
    if extended then
      enclose level (head ++ " extends " ++ parts.getLast?.getD "" ++ " \x7b") "\x7d" ""
        parts.dropLast
    else enclose level (head ++ " \x7b") "\x7d" "" parts
  | .member name isOptional =>
    beforeDot kinds first ++ (if isOptional then "?." else ".") ++ name
  | .index isOptional => first ++ (if isOptional then "?.[" else "[") ++ second ++ "]"
  | .call isOptional => first ++ (if isOptional then "?.(" else "(") ++ commas rest ++ ")"
  | .newCall => "new " ++ first ++ "(" ++ commas rest ++ ")"
  | .unary op =>
    if isWordOperator op || (first.toList.head? = op.toList.head?) then op ++ " " ++ first
    else op ++ first
  | .update op isPostfix => if isPostfix then first ++ op else op ++ first
  | .binary op => first ++ " " ++ op ++ " " ++ second
  | .assign op => first ++ " " ++ op ++ " " ++ second
  | .conditional => first ++ " ? " ++ second ++ " : " ++ rest.tail.headD ""
  | .sequence => commas parts
  | .parenthesized => "(" ++ first ++ ")"
  | .await => "await " ++ first
  | .yield isDelegate =>
    if parts.isEmpty then "yield" else (if isDelegate then "yield* " else "yield ") ++ first
  | .expression => first ++ ";"
  | .block => enclose level "\x7b" "\x7d" "" parts
  | .empty => ";"
  | .erased => ";"
  | .declaration word => word ++ " " ++ commas parts ++ ";"
  | .declarator => " = ".intercalate parts
  | .ifElse => ifElse level kinds parts
  | .forLoop hasInit hasTest hasUpdate => forLoop hasInit hasTest hasUpdate kinds parts
  | .forIn => loopOver "for(" "in" kinds parts
  | .forOf isAwait => loopOver (if isAwait then "for await (" else "for (") "of" kinds parts
  | .whileLoop => "while(" ++ first ++ ")" ++ body (kinds.getLast?.getD .empty) second
  | .doWhile => "do " ++ second ++ "while (" ++ first ++ ")" ++ ";"
  | .returnWith => if parts.isEmpty then "return;" else "return " ++ first ++ ";"
  | .throw => "throw " ++ first ++ ";"
  | .break label => "break" ++ (label.map (" " ++ ·)).getD "" ++ ";"
  | .continue label => "continue" ++ (label.map (" " ++ ·)).getD "" ++ ";"
  | .labeled label => label ++ ": " ++ first
  | .switch => enclose level ("switch(" ++ first ++ ")\x7b") "\x7d" "" rest
  | .case isDefault =>
    let head := if isDefault then "default:" else "case " ++ first ++ ":"
    "\n".intercalate (head :: (if isDefault then parts else rest).map (indent (level + 1) ++ ·))
  | .tryCatch hasCatch hasFinally => tryCatch hasCatch hasFinally parts
  | .catchClause => if rest.isEmpty then "catch " ++ first else "catch (" ++ first ++ ") " ++ second
  | .withObject => "with (" ++ first ++ ")" ++ body (kinds.getLast?.getD .empty) second
  | .debugger => "debugger;"
  | .importFrom names source =>
    if names.isEmpty then "import " ++ quote source ++ ";"
    else "import " ++ importNames names ++ " from " ++ quote source ++ ";"
  | .exportNames names source =>
    "export " ++ exportNames names ++ (source.map fun s => " from " ++ quote s).getD "" ++ ";"
  | .exportAll as? source =>
    "export *" ++ (as?.map (" as " ++ ·)).getD "" ++ " from " ++ quote source ++ ";"
  | .exportDefault =>
    match kinds with
    | [.function _ _ _] => "export default " ++ first
    | [.classBody _ _] => "export default " ++ first
    | _ => "export default " ++ first ++ ";"
  | .exportDeclaration => "export " ++ first
  | .importEquals name source => "const " ++ name ++ " = require(" ++ quote source ++ ");"
  | .exportEquals => "module.exports = " ++ first ++ ";"
  | .enumeration name => "var " ++ name ++ ";"
  | .namespaceBody name => "var " ++ name ++ ";"

/-- The number of first parts that are patterns. Parts of a pattern are told by the pattern. -/
def patternParts (kind : Kind) (isPattern : Bool) (parts : Nat) : Nat :=
  match kind with
  | .declarator => 1
  | .function _ _ _ => parts - 1
  | .arrow _ => parts - 1
  | .catchClause => parts - 1
  | .assign _ => 1
  | .forIn => 1
  | .forOf _ => 1
  | .shorthandDefault => if isPattern then 1 else 0
  | .array => if isPattern then parts else 0
  | .object => if isPattern then parts else 0
  | .property => if isPattern then parts else 0
  | .spread => if isPattern then parts else 0
  | _ => 0

/-- A pattern stands in one line. -/
def patternLayout (kind : Kind) (parts : List String) : Option String :=
  match kind with
  | .array => some ("[" ++ commas parts ++ "]")
  | .object => some (if parts.isEmpty then "\x7b\x7d" else "\x7b " ++ commas parts ++ " \x7d")
  | _ => none

mutual

/-- The text of a node at a level of indentation. -/
def renderAs (level : Nat) (isPattern : Bool) : Node → String
  | .mk kind _ parts =>
    let inside := patternParts kind isPattern parts.length
    let texts := renderAll (if isDeeper kind && !isPattern then level + 1 else level) inside parts
    let plain := layout level kind (parts.map Node.kind) texts
    if isPattern then (patternLayout kind texts).getD plain else plain

/-- The texts of nodes, of which the first `patterns` are patterns. -/
def renderAll (level : Nat) (patterns : Nat) : List Node → List String
  | [] => []
  | n :: ns => renderAs level (0 < patterns) n :: renderAll level (patterns - 1) ns

end

/-- The text of a node at a level of indentation. -/
def render (level : Nat) (n : Node) : String := renderAs level false n

end Stowage.Script.Printer
