/-
Statements, and the items of a module.
-/
import Stowage.Script.Expression

namespace Stowage.Script.Statement

open Parse Expression

variable (rules : Rules)

/-! ## Declarations -/

/-- The token may follow `let` where it declares a name. -/
def followsLet (ts : List Token) : Bool := isName ts || isMark "[" ts || isMark "\x7b" ts

/-- The word of a declaration of variables comes next. -/
def isDeclarationWord (ts : List Token) : Bool :=
  isWord "var" ts || isWord "const" ts || (isWord "let" ts && followsLet ts.tail)

/-- What is declared, with its value. In the head of a loop the value may be missing; elsewhere only
a single name may go without one. -/
def declarator (c : Context) (inHead : Bool) : Parse Node := do
  let l ← line
  let p ← rules .pattern c
  if c.typed && (← eat "!") then Types.skipAnnotation
  if ← eat "=" then return node .declarator l [p, ← rules .assignment c]
  match p.kind with
  | .name _ => return node .declarator l [p]
  | _ => if inHead || c.typed then return node .declarator l [p] else failure

/-- The declarators after the word of a declaration. -/
def declarators (c : Context) (inHead : Bool) : Nat → Parse (List Node)
  | 0 => failure
  | fuel + 1 => do
    let d ← declarator rules c inHead
    if ← eat "," then
      let ts ← get
      if isMark ";" ts || ts.isEmpty then return [d]
      return d :: (← declarators c inHead fuel)
    return [d]

/-- Variables up to the end of the statement. -/
def variableStatement (c : Context) : Parse Node := do
  let l ← line
  let w ← word
  let ds ← declarators rules c false (← steps)
  semicolon
  return node (.declaration w) l ds

/-- A function that is declared has a name. -/
def functionDeclaration (c : Context) (isAsync : Bool) (l : Nat) : Parse Node := do
  let f ← functionAfterWord rules c isAsync l
  match f.kind with
  | .function none _ _ => failure
  | _ => return f

/-- A class that is declared has a name. -/
def classDeclaration (c : Context) (l : Nat) : Parse Node := do
  let k ← classAfterWord rules c (extendedClass rules c (← steps)) l
  match k.kind with
  | .classBody none _ => failure
  | _ => return k

/-- An asynchronous function comes next. -/
def isAsyncFunction (ts : List Token) : Bool :=
  isWord "async" ts && isWord "function" ts.tail && !isOnNewLine ts.tail

/-! ## Loops -/

/-- A condition in parentheses. -/
def condition (c : Context) : Parse Node := do
  expect "("
  let e ← rules .expression (Context.inside c)
  expect ")"
  return e

/-- What a loop runs over, after the variable and its word. -/
def loopOver (c : Context) (l : Nat) (isAwait : Bool) (left : Node) : Parse Node := do
  if ← eatWord "of" then
    let right ← rules .assignment c
    expect ")"
    return node (.forOf isAwait) l [left, right, ← rules .body c]
  if isAwait then failure
  expectWord "in"
  let right ← rules .expression c
  expect ")"
  return node .forIn l [left, right, ← rules .body c]

/-- An expression up to `stop`, if there is one. -/
def optionalUntil (c : Context) (stop : String) : Parse (Option Node) := do
  if ← eat stop then return none
  let e ← rules .expression c
  expect stop
  return some e

/-- A loop with its test and its step, after what starts it and a semicolon. -/
def countedLoop (c : Context) (l : Nat) (start : Option Node) : Parse Node := do
  let test ← optionalUntil rules c ";"
  let step ← optionalUntil rules c ")"
  let b ← rules .body c
  return node (.forLoop start.isSome test.isSome step.isSome) l
    (start.toList ++ test.toList ++ step.toList ++ [b])

def forLoop (c : Context) (l : Nat) : Parse Node := do
  let isAwait ← eatWord "await"
  expect "("
  let c := Context.inside c
  let head := { c with noIn := true }
  let ts ← get
  let overOrCounted (start : Node) (mayRunOver : Bool) : Parse Node := do
    let ts ← get
    if mayRunOver && (isWord "of" ts || isWord "in" ts) then loopOver rules c l isAwait start
    else
      if isAwait then failure
      expect ";"
      countedLoop rules c l (some start)
  if isDeclarationWord ts then
    let ld ← line
    let w ← word
    let ds ← declarators rules head true (← steps)
    overOrCounted (node (.declaration w) ld ds) true
  else if ← eat ";" then
    if isAwait then failure
    countedLoop rules c l none
  else
    let start ← rules .expression head
    overOrCounted start (isTarget start)

/-! ## Other compound statements -/

/-- A group of a `switch`; the second result says whether it is the default. -/
def switchCase (c : Context) : Parse Node := do
  let l ← line
  let test ← do
    if ← eatWord "case" then some <$> rules .expression (Context.inside c)
    else
      expectWord "default"
      pure none
  expect ":"
  let stop (ts : List Token) : Bool :=
    isMark "\x7d" ts || isWord "case" ts || isWord "default" ts
  let ss ← manyUntil stop (rules .statement c) (← steps)
  return node (.case test.isNone) l (test.toList ++ ss)

def switch (c : Context) (l : Nat) : Parse Node := do
  let e ← condition rules c
  expect "\x7b"
  let cases ← manyUntil (isMark "\x7d") (switchCase rules c) (← steps)
  expect "\x7d"
  if 1 < (cases.filter fun k => k.kind = .case true).length then failure
  return node .switch l (e :: cases)

/-- What catches, with the name of what is caught. -/
def catchClause (c : Context) (l : Nat) : Parse Node := do
  let caught ← do
    if ← eat "(" then
      let p ← rules .pattern c
      expect ")"
      pure [p]
    else pure []
  return node .catchClause l (caught ++ [← block rules c])

def tryCatch (c : Context) (l : Nat) : Parse Node := do
  let b ← block rules c
  let lc ← line
  let caught ← if ← eatWord "catch" then some <$> catchClause rules c lc else pure none
  let final ← if ← eatWord "finally" then some <$> block rules c else pure none
  return node (.tryCatch caught.isSome final.isSome) l (b :: (caught.toList ++ final.toList))

/-- The label that a jump names, up to the end of the statement. -/
def jumpLabel : Parse (Option String) := do
  let ts ← get
  if isMark ";" ts || isMark "\x7d" ts || isOnNewLine ts then
    semicolon
    return none
  let n ← name
  semicolon
  return some n

/-- An expression up to the end of the statement, if there is one. -/
def optionalValue (c : Context) : Parse (List Node) := do
  let ts ← get
  if isMark ";" ts || isMark "\x7d" ts || isOnNewLine ts then
    semicolon
    return []
  let e ← rules .expression (Context.inside c)
  semicolon
  return [e]

/-! ## Declarations of types -/

/-- Skips an interface after its word. -/
def skipInterface : Parse Unit := do
  let _ ← name
  Types.skipParameters
  if ← eatWord "extends" then Types.skipTypes (← steps)
  if !(← sees "\x7b") then failure
  skipGroup

/-- A namespace after its word; the names after dots are namespaces inside it. -/
def namespaceRest (c : Context) (l : Nat) : Nat → Parse Node
  | 0 => failure
  | fuel + 1 => do
    let n ← name
    if ← eat "." then
      let inner ← namespaceRest c l fuel
      return node (.namespaceBody n) l [node .exportDeclaration l [inner]]
    expect "\x7b"
    let items ← manyUntil (isMark "\x7d") (rules .item c) (← steps)
    expect "\x7d"
    return node (.namespaceBody n) l items

/-- Skips everything up to a brace, and what the brace encloses. -/
def skipThroughBraces : Parse Unit := do
  let rest := (← get).dropWhile fun t => t.kind ≠ .punct "\x7b"
  set rest
  skipGroup

/-- The members of an enumeration after its name. -/
def enumMember (c : Context) : Parse Node := do
  let l ← line
  let k ← memberKey rules c
  if ← eat "=" then return node .property l [k, ← rules .assignment c]
  return node .property l [k]

/-- An enumeration after its word. -/
def enumeration (c : Context) (l : Nat) : Parse Node := do
  let n ← name
  expect "\x7b"
  let (ms, _) ← commaList "\x7d" (enumMember rules c) (← steps)
  return node (.enumeration n) l ms

/-- A declaration that only typed scripts have, if one comes next. -/
def typeDeclaration? (c : Context) : Parse (Option Node) := do
  if !c.typed then return none
  let l ← line
  let ts ← get
  let onSameLine := !isOnNewLine ts.tail
  if isWord "interface" ts && isName ts.tail && onSameLine then
    let _ ← next
    skipInterface
    return some (leaf .erased l)
  if isWord "type" ts && isName ts.tail && onSameLine then
    let _ ← next
    let _ ← name
    Types.skipParameters
    expect "="
    Types.skipType
    semicolon
    return some (leaf .erased l)
  if isWord "enum" ts then
    let _ ← next
    return some (← enumeration rules c l)
  if isWord "const" ts && isWord "enum" ts.tail then
    let _ ← next
    let _ ← next
    return some (← enumeration rules c l)
  if isWord "abstract" ts && isWord "class" ts.tail && onSameLine then
    let _ ← next
    let _ ← next
    return some (← classDeclaration rules c l)
  if (isWord "namespace" ts || isWord "module" ts) && isName ts.tail && onSameLine then
    let _ ← next
    return some (← namespaceRest rules c l (← steps))
  if isWord "declare" ts && onSameLine then
    let after := ts.tail
    if isWord "module" after || isWord "global" after || isWord "namespace" after then
      skipThroughBraces
      return some (leaf .erased l)
    if (after.head?.bind fun t => wordOf t.kind).isSome then
      let _ ← next
      let _ ← rules .statement c
      return some (leaf .erased l)
  return none

/-! ## Statements -/

/-- An expression or a label. -/
def expressionStatement (c : Context) (l : Nat) : Parse Node := do
  let e ← rules .expression (Context.inside c)
  match e.kind with
  | .name n =>
    if ← eat ":" then
      if ← seesWord "function" then
        let lf ← line
        let _ ← next
        let f ← functionDeclaration rules c false lf
        match f.kind with
        | .function _ _ true => failure
        | _ => return node (.labeled n) l [f]
      else return node (.labeled n) l [← rules .body c]
  | _ => pure ()
  semicolon
  return node .expression l [e]

/-- A statement. Where nothing is declared, `let` is a name and neither constants nor classes have a
place. -/
def statement (c : Context) (declares : Bool) : Parse Node := do
  let l ← line
  let ts ← get
  if declares then
    if let some d ← typeDeclaration? rules c then return d
  match ts with
  | [] => failure
  | t :: r =>
    match t.kind with
    | .punct "\x7b" => block rules c
    | .punct ";" => set r; return leaf .empty l
    | .word "var" => variableStatement rules c
    | .word "const" => if declares then variableStatement rules c else failure
    | .word "let" =>
      if declares && followsLet r then variableStatement rules c else expressionStatement rules c l
    | .word "function" => set r; functionDeclaration rules c false l
    | .word "class" =>
      set r
      if declares then classDeclaration rules c l else failure
    | .word "async" =>
      if isAsyncFunction ts then
        set r.tail
        functionDeclaration rules c true l
      else expressionStatement rules c l
    | .word "if" =>
      set r
      let test ← condition rules c
      let yes ← rules .body c
      let no ← if ← eatWord "else" then (fun s => [s]) <$> rules .body c else pure []
      return node .ifElse l (test :: yes :: no)
    | .word "for" => set r; forLoop rules c l
    | .word "while" =>
      set r
      let test ← condition rules c
      return node .whileLoop l [test, ← rules .body c]
    | .word "do" =>
      set r
      let b ← rules .body c
      expectWord "while"
      let test ← condition rules c
      let _ ← eat ";"
      return node .doWhile l [test, b]
    | .word "return" => set r; return node .returnWith l (← optionalValue rules c)
    | .word "throw" =>
      set r
      if isOnNewLine r then failure
      let e ← rules .expression (Context.inside c)
      semicolon
      return node .throw l [e]
    | .word "break" => set r; return leaf (.break (← jumpLabel)) l
    | .word "continue" => set r; return leaf (.continue (← jumpLabel)) l
    | .word "switch" => set r; switch rules c l
    | .word "try" => set r; tryCatch rules c l
    | .word "with" =>
      set r
      let e ← condition rules c
      return node .withObject l [e, ← rules .body c]
    | .word "debugger" => set r; semicolon; return leaf .debugger l
    | .word "import" =>
      -- only the call and the property of `import` are expressions
      let e ← rules .expression (Context.inside c)
      let _ ← eat ";"
      return node .expression l [e]
    | _ => expressionStatement rules c l

/-! ## Imports and exports -/

/-- A name in the list of an import, with the name that it gets. -/
def importName : Parse ImportName := do
  let ts ← get
  let w ← word
  if ← eatWord "as" then return .named w (← name)
  if isName ts then return .named w w
  failure

/-- The names that an import brings in, up to and including `from`. -/
def importNames : Parse (List ImportName) := do
  let main ← do
    if isName (← get) then
      let n ← name
      if !(← seesWord "from") then expect ","
      pure [ImportName.main n]
    else pure []
  let others ← do
    if ← eat "*" then
      expectWord "as"
      pure [ImportName.whole (← name)]
    else if ← eat "\x7b" then pure (← commaList "\x7d" importName (← steps)).1
    else pure []
  expectWord "from"
  return main ++ others

/-- Skips `type` before the names of an import that only concerns types. -/
def isTypeImport (ts : List Token) : Bool :=
  isWord "type" ts &&
    (isMark "\x7b" ts.tail || isMark "*" ts.tail ||
      (isName ts.tail && !(isWord "from" ts.tail && !isWord "from" ts.tail.tail)))

/-- An import in a typed script that gives a name to another module or to a part of a name. -/
def importEquals (c : Context) (l : Nat) : Parse Node := do
  let n ← name
  expect "="
  if (← seesWord "require") && isMark "(" (← get).tail then
    let _ ← next
    let _ ← next
    let source ← stringToken
    expect ")"
    semicolon
    return leaf (.importEquals n source) l
  let value ← rules .expression c
  semicolon
  return node (.declaration "var") l [node .declarator l [leaf (.name n) l, value]]

/-- An import after its word. -/
def importDeclaration (c : Context) (l : Nat) : Parse Node := do
  let ts ← get
  match ts with
  | [] => failure
  | t :: r =>
    match t.kind with
    | .string source =>
      set r
      semicolon
      return leaf (.importFrom [] source) l
    | _ =>
      if c.typed && isTypeImport ts then
        set r
        let _ ← importNames
        let _ ← stringToken
        semicolon
        return leaf .erased l
      if c.typed && isName ts && isMark "=" r then return ← importEquals rules c l
      let names ← importNames
      let source ← stringToken
      semicolon
      return leaf (.importFrom names source) l

/-- A name in the list of an export, with the name that it gets. -/
def exportName : Parse (String × String) := do
  let w ← word
  if ← eatWord "as" then return (w, ← word)
  return (w, w)

/-- `from` and the module that is exported from, up to the end of the statement. -/
def exportSource : Parse String := do
  expectWord "from"
  let source ← stringToken
  semicolon
  return source

/-- A default export after its word. -/
def defaultExport (c : Context) (l : Nat) : Parse Node := do
  let ls ← line
  let ts ← get
  if isWord "function" ts then
    let _ ← next
    let f ← functionAfterWord rules c false ls
    return if f.kind = .erased then f else node .exportDefault l [f]
  if isAsyncFunction ts then
    let _ ← next
    let _ ← next
    return node .exportDefault l [← functionAfterWord rules c true ls]
  if isWord "class" ts || (c.typed && isWord "abstract" ts && isWord "class" ts.tail) then
    let _ ← eatWord "abstract"
    let _ ← next
    return node .exportDefault l [← classAfterWord rules c (extendedClass rules c (← steps)) ls]
  if c.typed && isWord "interface" ts then
    let _ ← next
    skipInterface
    return leaf .erased l
  let e ← rules .assignment (Context.inside c)
  semicolon
  return node .exportDefault l [e]

/-- The names of an export in braces, after their opening brace. -/
def namedExport (l : Nat) : Parse Node := do
  let (names, _) ← commaList "\x7d" exportName (← steps)
  if ← seesWord "from" then return leaf (.exportNames names (some (← exportSource))) l
  semicolon
  return leaf (.exportNames names none) l

/-- An export after its word. -/
def exportDeclaration (c : Context) (l : Nat) : Parse Node := do
  if ← eat "*" then
    let as? ← if ← eatWord "as" then some <$> word else pure none
    return leaf (.exportAll as? (← exportSource)) l
  if ← eat "\x7b" then return ← namedExport l
  if ← eatWord "default" then return ← defaultExport rules c l
  let ts ← get
  if c.typed then
    if ← eat "=" then
      let e ← rules .expression c
      semicolon
      return node .exportEquals l [e]
    if isWord "as" ts && isWord "namespace" ts.tail then
      let _ ← next
      let _ ← next
      let _ ← name
      semicolon
      return leaf .erased l
    if isWord "type" ts && isMark "\x7b" ts.tail then
      let _ ← next
      let _ ← next
      let _ ← namedExport l
      return leaf .erased l
    if let some d ← typeDeclaration? rules c then
      return if d.kind = .erased then d else node .exportDeclaration l [d]
  if isDeclarationWord ts || isWord "function" ts || isWord "class" ts || isAsyncFunction ts then
    let d ← statement rules c true
    return if d.kind = .erased then d else node .exportDeclaration l [d]
  failure

/-- An item at the top of a module. -/
def moduleItem (c : Context) : Parse Node := do
  let l ← line
  let ts ← get
  if isWord "import" ts && !isMark "(" ts.tail && !isMark "." ts.tail then
    let _ ← next
    importDeclaration rules c l
  else if ← eatWord "export" then exportDeclaration rules c l
  else statement rules c true

end Stowage.Script.Statement
