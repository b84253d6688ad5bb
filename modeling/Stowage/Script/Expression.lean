/-
Expressions, patterns, functions and classes. The rules call each other through a `Rules` argument,
which stands for the rules of the next level of nesting.
-/
import Stowage.Script.Types

namespace Stowage.Script

open Parse

/-- Where a rule is applied. -/
structure Context where
  /-- The text is read as a module. -/
  isModule : Bool
  inFunction : Bool
  inAsync : Bool
  inGenerator : Bool
  /-- `in` is no operator here. -/
  noIn : Bool
  /-- The text may hold types. -/
  typed : Bool
  /-- A colon after parentheses starts no type, it belongs to a conditional. -/
  noResultType : Bool
  deriving DecidableEq, Inhabited

/-- The rules that other rules nest. -/
inductive Goal where
  | expression
  | assignment
  | unary
  | power
  | pattern
  | statement
  /-- A statement that is part of another one, where nothing is declared. -/
  | body
  /-- An item of a module or of a namespace. -/
  | item
  /-- An operand that starts with a tag. -/
  | element
  deriving DecidableEq, Inhabited

/-- How the nested rules are applied. -/
abbrev Rules := Goal → Context → Parse Node

namespace Expression

variable (rules : Rules)

def node (kind : Kind) (line : Nat) (parts : List Node) : Node := .mk kind line parts

def leaf (kind : Kind) (line : Nat) : Node := .mk kind line []

/-- The context inside brackets. -/
def Context.inside (c : Context) : Context := { c with noIn := false, noResultType := false }

/-- The context of a function body. -/
def Context.body (c : Context) (isAsync isGenerator : Bool) : Context :=
  { c with
    inFunction := true, inAsync := isAsync, inGenerator := isGenerator, noIn := false
    noResultType := false }

/-! ## Lists -/

/-- An item of a list of arguments or elements, which may be spread. -/
def spreadable (item : Parse Node) : Parse Node := do
  let l ← line
  if ← eat "..." then return node .spread l [← item]
  item

/-- The arguments of a call after their opening parenthesis. -/
def arguments (c : Context) : Parse (List Node × Bool) := do
  commaList ")" (spreadable (rules .assignment (Context.inside c))) (← steps)

/-- The elements of an array after its bracket; an element may be missing. -/
def elements (item : Parse Node) : Nat → Parse (List Node)
  | 0 => failure
  | fuel + 1 => do
    if ← eat "]" then return []
    let l ← line
    if ← eat "," then return leaf .hole l :: (← elements item fuel)
    let x ← spreadable item
    if ← eat "]" then return [x]
    expect ","
    return x :: (← elements item fuel)

/-! ## Keys -/

/-- The key of a member. -/
def memberKey (c : Context) : Parse Node := do
  let l ← line
  if ← eat "[" then
    let e ← rules .assignment (Context.inside c)
    expect "]"
    return node .computedKey l [e]
  match (← next).kind with
  | .word w => return leaf (.key w) l
  | .escapedWord w => return leaf (.key w) l
  | .string s => return leaf (.string s) l
  | .number s => return leaf (.number s) l
  | .bigint s => return leaf (.number s) l
  | .privateName s => return leaf (.key ("#" ++ s)) l
  | _ => failure

/-- A key comes next. -/
def seesKey (ts : List Token) : Bool :=
  match ts with
  | t :: _ => match t.kind with
    | .punct p => p = "["
    | .regex _ => false
    | .chunk _ _ => false
    | _ => true
  | [] => false

/-! ## Patterns -/

/-- A pattern with its default value. -/
def patternElement (c : Context) : Parse Node := do
  let l ← line
  let p ← rules .pattern c
  if ← eat "=" then return node (.assign "=") l [p, ← rules .assignment (Context.inside c)]
  return p

/-- A member of an object pattern. -/
def patternMember (c : Context) : Parse Node := do
  let l ← line
  if ← eat "..." then return node .spread l [← rules .pattern c]
  let ts ← get
  let k ← memberKey rules c
  if ← eat ":" then return node .property l [k, ← patternElement rules c]
  match k.kind with
  | .key w =>
    if !isName ts then failure
    let n := leaf (.name w) l
    if ← eat "=" then
      return node .shorthandDefault l [n, ← rules .assignment (Context.inside c)]
    return node .shorthand l [n]
  | _ => failure

/-- What is bound: a name, or an array or object of patterns; a type may follow it. -/
def pattern (c : Context) : Parse Node := do
  let l ← line
  let p ← do
    if ← eat "[" then
      pure (node .array l (← elements (patternElement rules c) (← steps)))
    else if ← eat "\x7b" then
      pure (node .object l (← commaList "\x7d" (patternMember rules c) (← steps)).1)
    else pure (leaf (.name (← name)) l)
  if c.typed then
    let _ ← eat "?"
    Types.skipAnnotation
  return p

/-! ## Functions -/

/-- Words that may stand before a parameter of a constructor in a typed script. -/
def parameterWords : List String := ["public", "private", "protected", "readonly", "override"]

/-- Skips words that stand before a name. -/
def skipModifiers (words : List String) : Nat → Parse Unit
  | 0 => return
  | fuel + 1 => do
    match ← get with
    | t :: r =>
      match t.kind with
      | .word w =>
        if words.contains w && (isName r || isMark "\x7b" r || isMark "[" r) then
          set r
          skipModifiers words fuel
      | _ => return
    | [] => return

/-- A parameter; nothing for the one that gives `this` a type. -/
def parameter (c : Context) : Parse (Option Node) := do
  if c.typed then
    skipModifiers parameterWords 4
    if ← eatWord "this" then
      Types.skipAnnotation
      return none
  let l ← line
  if ← eat "..." then return some (node .spread l [← rules .pattern c])
  return some (← patternElement rules c)

/-- The parameters of a function with the type of its result. -/
def parameters (c : Context) : Parse (List Node) := do
  if c.typed then Types.skipParameters
  expect "("
  let (ps, _) ← commaList ")" (parameter rules c) (← steps)
  if c.typed then Types.skipAnnotation
  return ps.filterMap id

/-- A block of statements. -/
def block (c : Context) : Parse Node := do
  let l ← line
  expect "\x7b"
  let ss ← manyUntil (isMark "\x7d") (rules .statement c) (← steps)
  expect "\x7d"
  return node .block l ss

/-- The parameters and the body of a function. In a typed script the body may be missing, then the
function only declares a type. -/
def functionRest (c : Context) (name : Option String) (isAsync isGenerator : Bool) (l : Nat) :
    Parse Node := do
  let c := Context.body c isAsync isGenerator
  let ps ← parameters rules c
  if c.typed && !(← sees "\x7b") then
    semicolon
    return leaf .erased l
  let b ← block rules c
  return node (.function name isAsync isGenerator) l (ps ++ [b])

/-- A function after its word. -/
def functionAfterWord (c : Context) (isAsync : Bool) (l : Nat) : Parse Node := do
  let isGenerator ← eat "*"
  let n ← if isName (← get) then some <$> name else pure none
  functionRest rules c n isAsync isGenerator l

/-- The body of an arrow function, which comes next after its arrow. -/
def arrowBody (c : Context) (isAsync : Bool) (ps : List Node) (l : Nat) : Parse Node := do
  let inner := Context.body c isAsync false
  let b ← if ← sees "\x7b" then block rules inner
    else rules .assignment { inner with noIn := c.noIn }
  return node (.arrow isAsync) l (ps ++ [b])

/-- The tokens from an opening parenthesis on are the parameters of an arrow function. -/
def isArrowHead (ts : List Token) : Bool :=
  match ts with
  | t :: r =>
    if t.kind = .punct "(" then
      match afterClose 1 r with
      | some (a :: _) => a.kind = .punct "=>" && !a.onNewLine
      | _ => false
    else false
  | [] => false

/-- An arrow function with its parameters in parentheses. -/
def arrowFunction (c : Context) (isAsync : Bool) (l : Nat) : Parse Node := do
  let ps ← parameters rules (Context.body c isAsync false)
  if isOnNewLine (← get) then failure
  expect "=>"
  arrowBody rules c isAsync ps l

/-- An arrow function with a single name for its parameters. -/
def arrowOfName (c : Context) (isAsync : Bool) (l : Nat) : Parse Node := do
  let lp ← line
  let n ← name
  if isOnNewLine (← get) then failure
  expect "=>"
  arrowBody rules c isAsync [leaf (.name n) lp] l

/-- A name and an arrow come next. -/
def isNameArrow (ts : List Token) : Bool :=
  isName ts && isMark "=>" ts.tail && !isOnNewLine ts.tail

/-- An arrow function, if one comes next. -/
def arrow? (c : Context) : Parse (Option Node) := do
  let l ← line
  let ts ← get
  if isNameArrow ts then return some (← arrowOfName rules c false l)
  if isArrowHead ts then return some (← arrowFunction rules c false l)
  if isWord "async" ts && !isOnNewLine ts.tail then
    if isNameArrow ts.tail then
      let _ ← next
      return some (← arrowOfName rules c true l)
    if isArrowHead ts.tail then
      let _ ← next
      return some (← arrowFunction rules c true l)
  if c.typed then
    -- an arrow function may have type parameters, or a type between its parameters and its arrow
    let attempt (isAsync : Bool) : Parse (Option Node) := some <$> arrowFunction rules c isAsync l
    let mayBeHead (ts : List Token) : Bool := isMark "<" ts || (isMark "(" ts && !c.noResultType)
    if mayBeHead ts then
      return ← attempt false <|> pure none
    if isWord "async" ts && mayBeHead ts.tail then
      return ← (do let _ ← next; attempt true) <|> pure none
  return none

/-! ## Objects -/

/-- The next token shows that the word before it was a key and no modifier. -/
def endsKey (ts : List Token) : Bool :=
  match ts with
  | t :: _ => match t.kind with
    | .punct p => ["(", "=", ";", ",", "\x7d", ":", "<", "?", "!"].contains p
    | _ => false
  | [] => true

/-- The modifiers of a method: how it is called, and whether it is asynchronous or a generator. -/
def methodModifiers : Parse (MethodKind × Bool × Bool) := do
  let isModifier (w : String) : Parse Bool := do
    let ts ← get
    return isWord w ts && !endsKey ts.tail
  if ← isModifier "get" then
    if seesKey (← get).tail then
      let _ ← next
      return (.getter, false, false)
  if ← isModifier "set" then
    if seesKey (← get).tail then
      let _ ← next
      return (.setter, false, false)
  let isAsync ← do
    if (← isModifier "async") && !isOnNewLine (← get).tail then
      let _ ← next
      pure true
    else pure false
  let isGenerator ← eat "*"
  return (.plain, isAsync, isGenerator)

/-- A member of an object. -/
def objectMember (c : Context) : Parse Node := do
  let l ← line
  if ← eat "..." then return node .spread l [← rules .assignment c]
  let (kind, isAsync, isGenerator) ← methodModifiers
  let isModified := kind ≠ .plain || isAsync || isGenerator
  let ts ← get
  let k ← memberKey rules c
  if (← sees "(") || (c.typed && (← sees "<")) then
    return node (.method kind false) l [k, ← functionRest rules c none isAsync isGenerator l]
  if isModified then failure
  if ← eat ":" then return node .property l [k, ← rules .assignment c]
  match k.kind with
  | .key w =>
    if !isName ts then failure
    let n := leaf (.name w) l
    if ← eat "=" then return node .shorthandDefault l [n, ← rules .assignment c]
    return node .shorthand l [n]
  | _ => failure

/-! ## Classes -/

/-- Words that may stand before a member of a class in a typed script. -/
def memberWords : List String :=
  ["public", "private", "protected", "readonly", "declare", "abstract", "override"]

/-- Skips the words before a member. -/
def skipMemberWords : Nat → Parse Unit
  | 0 => return
  | fuel + 1 => do
    match ← get with
    | t :: r =>
      match t.kind with
      | .word w =>
        if memberWords.contains w && !endsKey r then
          set r
          skipMemberWords fuel
      | _ => return
    | [] => return

/-- A signature that says what the members of other names are. -/
def isIndexSignature (ts : List Token) : Bool :=
  isMark "[" ts && isName ts.tail && isMark ":" ts.tail.tail

/-- A member of a class; nothing for one that only concerns types. -/
def classMember (c : Context) : Parse (Option Node) := do
  if ← eat ";" then return none
  let l ← line
  if c.typed then skipMemberWords 6
  let isStatic ← do
    let ts ← get
    if isWord "static" ts && !endsKey ts.tail then
      let _ ← next
      pure true
    else pure false
  if c.typed then
    skipMemberWords 6
    if isIndexSignature (← get) then
      skipGroup
      Types.skipAnnotation
      semicolon
      return none
  let (kind, isAsync, isGenerator) ← methodModifiers
  let k ← memberKey rules c
  if c.typed then
    let _ ← eat "?"
    let _ ← eat "!"
  if (← sees "(") || (c.typed && (← sees "<")) then
    let f ← functionRest rules c none isAsync isGenerator l
    if f.kind = .erased then return none
    return some (node (.method kind isStatic) l [k, f])
  if kind ≠ .plain || isAsync || isGenerator then failure
  if c.typed then Types.skipAnnotation
  let inner := Context.body c false false
  let value ← if ← eat "=" then (fun v => [v]) <$> rules .assignment inner else pure []
  semicolon
  return some (node (.field isStatic) l (k :: value))

/-- A class after its word; `extended` reads the class that it extends. -/
def classAfterWord (c : Context) (extended : Parse Node) (l : Nat) : Parse Node := do
  let ts ← get
  let n ← if isName ts && !(c.typed && isWord "implements" ts) then some <$> name else pure none
  if c.typed then Types.skipParameters
  let parent ← if ← eatWord "extends" then some <$> extended else pure none
  if c.typed then
    if isMark "<" (← get) then Types.skipAngle
    if ← eatWord "implements" then Types.skipTypes (← steps)
  expect "\x7b"
  let ms ← manyUntil (isMark "\x7d") (classMember rules (Context.inside c)) (← steps)
  expect "\x7d"
  return node (.classBody n parent.isSome) l (ms.filterMap id ++ parent.toList)

/-! ## Templates -/

/-- The text and the interpolations of a template after its opening mark. -/
def templateParts (c : Context) : Nat → Parse (List Chunk × List Node)
  | 0 => failure
  | fuel + 1 => do
    match (← next).kind with
    | .chunk cooked raw =>
      if ← eat "\x60" then return ([(cooked, raw)], [])
      expect "$\x7b"
      let e ← rules .expression (Context.inside c)
      expect "\x7d"
      let (chunks, es) ← templateParts c fuel
      return ((cooked, raw) :: chunks, e :: es)
    | _ => failure

/-! ## Operands -/

/-- An operand without what may follow it. `member` reads an operand with its members but without
calls. -/
def primary (c : Context) (member : Parse Node) : Parse Node := do
  let l ← line
  let ts ← get
  match ts with
  | [] => failure
  | t :: r =>
    match t.kind with
    | .number s => set r; return leaf (.number s) l
    | .bigint s => set r; return leaf (.number s) l
    | .string s => set r; return leaf (.string s) l
    | .regex s => set r; return leaf (.regex s) l
    | .tagOpen => rules .element c
    | .escapedWord w => set r; return leaf (.name w) l
    | .punct "(" =>
      set r
      let e ← rules .expression (Context.inside c)
      expect ")"
      return node .parenthesized l [e]
    | .punct "[" =>
      set r
      return node .array l (← elements (rules .assignment (Context.inside c)) (← steps))
    | .punct "\x7b" =>
      set r
      return node .object l (← commaList "\x7d" (objectMember rules (Context.inside c)) (← steps)).1
    | .punct "\x60" =>
      set r
      let (chunks, es) ← templateParts rules c (← steps)
      return node (.template chunks) l es
    | .word "this" => set r; return leaf .thisWord l
    | .word "null" => set r; return leaf .null l
    | .word "true" => set r; return leaf (.bool true) l
    | .word "false" => set r; return leaf (.bool false) l
    | .word "super" =>
      set r
      if isMark "(" r || isMark "." r || isMark "[" r then return leaf .superWord l
      failure
    | .word "function" => set r; functionAfterWord rules c false l
    | .word "class" => set r; classAfterWord rules c member l
    | .word "import" =>
      set r
      if ← eat "." then
        expectWord "meta"
        return leaf (.metaProperty "import.meta") l
      if ← sees "(" then return leaf (.name "import") l
      failure
    | .word "async" =>
      set r
      if isWord "function" r && !isOnNewLine r then
        let _ ← next
        functionAfterWord rules c true l
      else return leaf (.name "async") l
    | .word w =>
      set r
      if reservedWords.contains w then failure
      return leaf (.name w) l
    | _ => failure

/-- The name of a member after its dot. -/
def memberName : Parse String := do
  match (← next).kind with
  | .word w => return w
  | .escapedWord w => return w
  | .privateName w => return "#" ++ w
  | _ => failure

/-- Reads members, calls and tagged templates after an operand. Without `calls` only members and
tagged templates are read. -/
def operations (c : Context) (calls : Bool) : Nat → Node → Parse Node
  | 0, _ => failure
  | fuel + 1, e => do
    let l := e.line
    let ts ← get
    match ts with
    | [] => return e
    | t :: r =>
      match t.kind with
      | .punct "." =>
        set r
        operations c calls fuel (node (.member (← memberName) false) l [e])
      | .punct "[" =>
        set r
        let i ← rules .expression (Context.inside c)
        expect "]"
        operations c calls fuel (node (.index false) l [e, i])
      | .punct "\x60" =>
        set r
        let (chunks, es) ← templateParts rules c (← steps)
        operations c calls fuel (node (.tagged chunks) l (e :: es))
      | .punct "(" =>
        if !calls then return e
        set r
        let (args, trailing) ← arguments rules c
        if trailing && e.kind = .name "import" then failure
        operations c calls fuel (node (.call false) l (e :: args))
      | .punct "?." =>
        if !calls then failure
        set r
        if ← eat "(" then
          let (args, _) ← arguments rules c
          operations c calls fuel (node (.call true) l (e :: args))
        else if ← eat "[" then
          let i ← rules .expression (Context.inside c)
          expect "]"
          operations c calls fuel (node (.index true) l [e, i])
        else operations c calls fuel (node (.member (← memberName) true) l [e])
      | .punct "!" =>
        if c.typed && !t.onNewLine then
          set r
          operations c calls fuel e
        else return e
      | .punct "<" =>
        -- type arguments, when a call or a template follows them
        if !c.typed then return e
        match Types.afterAngle 1 0 r with
        | some rest =>
          if (isMark "(" rest && calls) || isMark "\x60" rest then
            set rest
            operations c calls fuel e
          else return e
        | none => return e
      | _ => return e

/-- What comes next starts no operand. -/
def endsOperand (ts : List Token) : Bool :=
  isOnNewLine ts || match ts with
    | t :: _ => match t.kind with
      | .punct p => [")", "]", "\x7d", ",", ";", ":"].contains p
      | .word w => w = "in" || w = "of"
      | _ => false
    | [] => true

/-- A call of `new` after its word. -/
def newCall (c : Context) : Nat → Nat → Parse Node
  | 0, _ => failure
  | fuel + 1, l => do
    if ← eat "." then
      expectWord "target"
      return leaf (.metaProperty "new.target") l
    let callee ← do
      let lc ← line
      if ← eatWord "new" then newCall c fuel lc
      else if ← seesWord "import" then failure
      else primary rules c failure
    let callee ← operations rules c false (← steps) callee
    if c.typed then
      match ← get with
      | t :: r =>
        if t.kind = .punct "<" then
          match Types.afterAngle 1 0 r with
          | some rest => if isMark "(" rest || endsOperand rest then set rest
          | none => pure ()
      | [] => pure ()
    let args ← if ← eat "(" then Prod.fst <$> arguments rules c else pure []
    return node .newCall l (callee :: args)

/-- The class that a class extends: an operand with its members and calls. The operand may be
another class. -/
def extendedClass (c : Context) : Nat → Parse Node
  | 0 => failure
  | fuel + 1 => do
    let l ← line
    let e ← if ← eatWord "new" then newCall rules c (← steps) l
      else primary rules c (extendedClass c fuel)
    operations rules c true (← steps) e

/-- An operand with its members and calls. -/
def operand (c : Context) : Parse Node := do extendedClass rules c (← steps)

/-- An operand that may be counted up or down after its use. -/
def postfixed (c : Context) : Parse Node := do
  let l ← line
  let e ← operand rules c
  let ts ← get
  if isOnNewLine ts then return e
  if ← eat "++" then return node (.update "++" true) l [e]
  if ← eat "--" then return node (.update "--" true) l [e]
  return e

/-! ## Operators -/

def unaryMarks : List String := ["+", "-", "~", "!"]

def unaryWords : List String := ["typeof", "void", "delete"]

/-- `await` is an operator here. -/
def Context.awaits (c : Context) : Bool := c.inAsync || (c.isModule && !c.inFunction)

def unary (c : Context) : Parse Node := do
  let l ← line
  match ← get with
  | [] => failure
  | t :: r =>
    match t.kind with
    | .punct p =>
      if unaryMarks.contains p then
        set r
        return node (.unary p) l [← rules .unary c]
      if p = "++" || p = "--" then
        set r
        return node (.update p false) l [← rules .unary c]
      if p = "<" && c.typed then
        Types.skipAngle
        return ← rules .unary c
      postfixed rules c
    | .word w =>
      if unaryWords.contains w then
        set r
        return node (.unary w) l [← rules .unary c]
      if w = "await" && Context.awaits c then
        set r
        return node .await l [← rules .unary c]
      postfixed rules c
    | _ => postfixed rules c

/-- A power, which binds to the right; its base is no unary operation. -/
def power (c : Context) : Parse Node := do
  let l ← line
  let base ← unary rules c
  if ← eat "**" then
    match base.kind with
    | .unary _ => failure
    | .await => failure
    | _ => return node (.binary "**") l [base, ← rules .power c]
  return base

/-- The binary operators that bind to the left, from the weakest level on. -/
def levels : List (List String) := [
  ["??", "||"], ["&&"], ["|"], ["^"], ["&"], ["==", "!=", "===", "!=="],
  ["<", ">", "<=", ">=", "in", "instanceof"], ["<<", ">>", ">>>"], ["+", "-"], ["*", "/", "%"]]

/-- The operator that comes next, if it is one of `ops`. -/
def operator? (c : Context) (ops : List String) (ts : List Token) : Option String :=
  match ts with
  | t :: _ => match t.kind with
    | .punct p => if ops.contains p then some p else none
    | .word w => if ops.contains w && !(w = "in" && c.noIn) then some w else none
    | _ => none
  | [] => none

/-- Reads operators of one level and their right operands after `e`. In a typed script the type that
an operand is taken as is skipped at the level of comparisons. -/
def chain (c : Context) (ops : List String) (operand : Parse Node) : Nat → Node → Parse Node
  | 0, _ => failure
  | fuel + 1, e => do
    let ts ← get
    match operator? c ops ts with
    | some op =>
      let _ ← next
      let right ← operand
      chain c ops operand fuel (node (.binary op) e.line [e, right])
    | none =>
      if c.typed && ops.contains "in" && isWord "as" ts && !isOnNewLine ts then
        let _ ← next
        if !(← eatWord "const") then Types.skipType
        chain c ops operand fuel e
      else return e

/-- An operation of the given levels. -/
def binary (c : Context) : List (List String) → Parse Node
  | [] => power rules c
  | ops :: stronger => do
    let e ← binary c stronger
    chain c ops (binary c stronger) (← steps) e

/-- The middle of a conditional up to and including its colon. In a typed script the colon is looked
for again if it was taken for the start of a type. -/
def middle (c : Context) : Parse Node := do
  let inner := Context.inside c
  let upToColon (c : Context) : Parse Node := do
    let yes ← rules .assignment c
    expect ":"
    return yes
  if c.typed then upToColon inner <|> upToColon { inner with noResultType := true }
  else upToColon inner

def conditional (c : Context) : Parse Node := do
  let l ← line
  let test ← binary rules c levels
  if ← eat "?" then
    let yes ← middle rules c
    let no ← rules .assignment c
    return node .conditional l [test, yes, no]
  return test

def assignMarks : List String := [
  "=", "+=", "-=", "*=", "/=", "%=", "**=", "<<=", ">>=", ">>>=", "&=", "|=", "^=", "&&=", "||=",
  "??="]

mutual

/-- The expression may stand left of `=`. -/
def isTarget : Node → Bool
  | .mk (.name _) _ _ => true
  | .mk (.member _ isOptional) _ _ => !isOptional
  | .mk (.index isOptional) _ _ => !isOptional
  | .mk .parenthesized _ [e] => isTarget e
  | .mk .array _ es => areElements es
  | .mk .object _ ms => areMembers ms
  | _ => false

/-- The expressions may be elements of an array left of `=`. -/
def areElements : List Node → Bool
  | [] => true
  | .mk .hole _ _ :: r => areElements r
  | .mk .spread _ [e] :: r => isTarget e && areElements r
  | .mk (.assign op) _ (t :: _) :: r => op = "=" && isTarget t && areElements r
  | e :: r => isTarget e && areElements r

/-- The members may be members of an object left of `=`. -/
def areMembers : List Node → Bool
  | [] => true
  | .mk .shorthand _ _ :: r => areMembers r
  | .mk .shorthandDefault _ _ :: r => areMembers r
  | .mk .spread _ [e] :: r => isTarget e && areMembers r
  | .mk .property _ [_, .mk (.assign op) _ (t :: _)] :: r => op = "=" && isTarget t && areMembers r
  | .mk .property _ [_, e] :: r => isTarget e && areMembers r
  | _ => false

end

/-- `yield` after its word. -/
def yieldRest (c : Context) (l : Nat) : Parse Node := do
  if endsOperand (← get) then return leaf (.yield false) l
  let isDelegate ← eat "*"
  return node (.yield isDelegate) l [← rules .assignment c]

def assignment (c : Context) : Parse Node := do
  let l ← line
  if c.inGenerator && (← seesWord "yield") then
    let _ ← next
    return ← yieldRest rules c l
  if let some f ← arrow? rules c then return f
  let e ← conditional rules c
  match operator? c assignMarks (← get) with
  | some op =>
    if op = "=" && !isTarget e then failure
    let _ ← next
    return node (.assign op) l [e, ← rules .assignment c]
  | none => return e

/-- Reads more items of a sequence. -/
def moreItems (c : Context) : Nat → Parse (List Node)
  | 0 => failure
  | fuel + 1 => do
    if ← eat "," then
      let e ← rules .assignment c
      return e :: (← moreItems c fuel)
    return []

def expression (c : Context) : Parse Node := do
  let l ← line
  let e ← rules .assignment c
  match ← moreItems rules c (← steps) with
  | [] => return e
  | es => return node .sequence l (e :: es)

end Expression
end Stowage.Script
