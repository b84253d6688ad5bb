/-
Types in typed scripts. They have no meaning at run time, so they are skipped: a type is a row of
operands and of the words and marks between them.
-/
import Stowage.Script.Cursor

namespace Stowage.Script.Types

open Parse

/-- The marks that may stand between angle brackets. -/
def typeMarks : List String :=
  [".", ",", "|", "&", "[", "]", "\x7b", "\x7d", "(", ")", "=>", ":", "?", "...", "-", "=", ";"]

/-- The tokens with the mark `p` in front, which was the end of the mark `t`. An equals sign that was
part of it makes an arrow with an angle bracket. -/
def splitOff (p : String) (t : Token) (r : List Token) : List Token :=
  match r with
  | u :: rest =>
    if p = "=" ∧ u.kind = .punct ">" then { t with kind := .punct "=>" } :: rest
    else { t with kind := .punct p } :: r
  | [] => [{ t with kind := .punct p }]

/-- What follows the angle brackets of which `depth` are open. Brackets of other kinds inside have
to be balanced as well, `groups` of them are open. -/
def afterAngle : Nat → Nat → List Token → Option (List Token)
  | _, _, [] => none
  | depth, groups, t :: r =>
    let close (n : Nat) (rest : Option String) : Option (List Token) :=
      if 0 < groups then afterAngle depth groups r
      else if n < depth then
        if rest.isNone then afterAngle (depth - n) groups r else none
      else if n = depth then
        some (match rest with
          | some p => splitOff p t r
          | none => r)
      else if depth = 1 then some ({ t with kind := .punct (if n = 2 then ">" else ">>") } :: r)
      else if depth = 2 then some ({ t with kind := .punct ">" } :: r)
      else none
    match t.kind with
    | .punct "<" => afterAngle (if 0 < groups then depth else depth + 1) groups r
    | .punct ">" => close 1 none
    | .punct ">>" => close 2 none
    | .punct ">>>" => close 3 none
    | .punct ">=" => close 1 (some "=")
    | .punct ">>=" => close 2 (some "=")
    | .punct ">>>=" => close 3 (some "=")
    | .punct p =>
      if openMarks.contains p then afterAngle depth (groups + 1) r
      else if closeMarks.contains p then
        if groups = 0 then none else afterAngle depth (groups - 1) r
      else if typeMarks.contains p then
        if p = ";" ∧ groups = 0 then none else afterAngle depth groups r
      else none
    | .regex _ => none
    | _ => afterAngle depth groups r

/-- Skips type parameters or type arguments, which come next. -/
def skipAngle : Parse Unit := do
  match ← get with
  | t :: r =>
    if t.kind = .punct "<" then
      match afterAngle 1 0 r with
      | some rest => set rest
      | none => failure
    else failure
  | [] => failure

/-- Skips type parameters if there are any. -/
def skipParameters : Parse Unit := do
  if ← sees "<" then skipAngle

/-- The words that stand before the operand of a type. -/
def prefixWords : List String :=
  ["keyof", "unique", "readonly", "infer", "typeof", "new", "abstract", "asserts"]

/-- Skips the rest of a template. -/
def skipTemplate : Nat → Parse Unit
  | 0 => failure
  | fuel + 1 => do
    let _ ← next
    if ← eat "\x60" then return
    match ← get with
    | t :: _ =>
      if t.kind = .punct "$\x7b" then
        skipGroup
        skipTemplate fuel
      else failure
    | [] => failure

/-- A word before the operand: it is one only if an operand follows it. -/
def isPrefixWord (w : String) (r : List Token) : Bool :=
  prefixWords.contains w && !isOnNewLine r && match r with
    | t :: _ => match t.kind with
      | .punct p => ["(", "[", "\x7b", "<"].contains p && w ≠ "infer"
      | .word v => v ≠ "extends" && v ≠ "is"
      | _ => true
    | [] => false

/-- Skips names after dots, then type arguments. -/
def skipQualified : Nat → Parse Unit
  | 0 => failure
  | fuel + 1 => do
    if ← eat "." then
      let _ ← word
      skipQualified fuel
    else
      let ts ← get
      if isMark "<" ts && !isOnNewLine ts then skipAngle

mutual

/-- Skips an operand and what follows it. -/
def skipOperand : Nat → Nat → Parse Unit
  | 0, _ => failure
  | fuel + 1, conditions => do
    let ts ← get
    match ts with
    | [] => failure
    | t :: r =>
      match t.kind with
      | .punct "|" => set r; skipOperand fuel conditions
      | .punct "&" => set r; skipOperand fuel conditions
      | .punct "-" => set r; skipOperand fuel conditions
      | .punct "<" =>
        skipAngle
        skipOperand fuel conditions
      | .punct "(" =>
        skipGroup
        if ← eat "=>" then skipOperand fuel conditions else skipRest fuel conditions
      | .punct "\x7b" => skipGroup; skipRest fuel conditions
      | .punct "[" => skipGroup; skipRest fuel conditions
      | .punct "\x60" => set r; skipTemplate (r.length + 1); skipRest fuel conditions
      | .string _ => set r; skipRest fuel conditions
      | .number _ => set r; skipRest fuel conditions
      | .bigint _ => set r; skipRest fuel conditions
      | .word w =>
        set r
        if isPrefixWord w r then skipOperand fuel conditions
        else
          if w = "import" then skipGroup
          skipQualified (r.length + 1)
          skipRest fuel conditions
      | .escapedWord _ => set r; skipQualified (r.length + 1); skipRest fuel conditions
      | _ => failure

/-- Skips what may follow an operand. -/
def skipRest : Nat → Nat → Parse Unit
  | 0, _ => failure
  | fuel + 1, conditions => do
    let ts ← get
    match ts with
    | [] => return
    | t :: r =>
      match t.kind with
      | .punct "[" => if t.onNewLine then return else skipGroup; skipRest fuel conditions
      | .punct "|" => set r; skipOperand fuel conditions
      | .punct "&" => set r; skipOperand fuel conditions
      | .word "extends" =>
        if t.onNewLine then return else set r; skipOperand fuel (conditions + 1)
      | .word "is" => if t.onNewLine then return else set r; skipOperand fuel conditions
      | .punct "?" =>
        match conditions with
        | 0 => return
        | n + 1 =>
          set r
          skipOperand fuel n
          expect ":"
          skipOperand fuel n
      | _ => return

end

/-- Skips a type. -/
def skipType : Parse Unit := do
  let n ← steps
  skipOperand (2 * n) 0

/-- Skips types with commas between them. -/
def skipTypes : Nat → Parse Unit
  | 0 => failure
  | fuel + 1 => do
    skipType
    if ← eat "," then skipTypes fuel

/-- Skips a colon and a type if there are any. -/
def skipAnnotation : Parse Unit := do
  if ← eat ":" then skipType

end Stowage.Script.Types
