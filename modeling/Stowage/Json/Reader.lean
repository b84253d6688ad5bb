/-
Reading JSON into values and into records of a fixed shape. The text is read from left to right and
the first thing that is wrong with it decides the fault: the text ends too early, it is not JSON, or
it is JSON of another shape than the one asked for.
-/
import Stowage.Json

namespace Stowage.Json

/-- What is wrong with a text. -/
inductive Fault where
  /-- It ends inside a value. -/
  | truncated
  /-- It is not JSON. -/
  | malformed
  /-- It is not of the shape asked for. -/
  | mismatched
  deriving DecidableEq, Inhabited

/-- Takes a value off the front of a text. -/
abbrev Reader (α : Type) := List Char → Except Fault (α × List Char)

/-! ## Blanks and words -/

def isBlank (c : Char) : Bool := c = ' ' || c = '\n' || c = '\r' || c = '\t'

def skipBlanks (cs : List Char) : List Char := cs.dropWhile isBlank

/-- Takes the rest of a literal word. -/
def word : List Char → List Char → Except Fault (List Char)
  | [], cs => .ok cs
  | _ :: _, [] => .error .truncated
  | w :: ws, c :: cs => if c = w then word ws cs else .error .malformed

/-! ## Strings -/

def hexValue (c : Char) : Option Nat :=
  if '0' ≤ c ∧ c ≤ '9' then some (c.toNat - '0'.toNat)
  else if 'a' ≤ c ∧ c ≤ 'f' then some (c.toNat - 'a'.toNat + 10)
  else if 'A' ≤ c ∧ c ≤ 'F' then some (c.toNat - 'A'.toNat + 10)
  else none

/-- Takes the four digits of a unit; a text with fewer than four bytes left is cut off. -/
def hexUnit (cs : List Char) : Except Fault (Nat × List Char) :=
  match cs with
  | a :: b :: c :: d :: r =>
    match hexValue a, hexValue b, hexValue c, hexValue d with
    | some a, some b, some c, some d => .ok (((a * 16 + b) * 16 + c) * 16 + d, r)
    | _, _, _, _ => .error .malformed
  | _ =>
    if (String.ofList cs).utf8ByteSize < 4 then .error .truncated else .error .malformed

def isLeading (n : Nat) : Bool := 0xD800 ≤ n && n < 0xDC00

def isTrailing (n : Nat) : Bool := 0xDC00 ≤ n && n < 0xE000

/-- Takes an escape after its backslash. A half of a pair has to be followed by the other half,
unless `lenient` lets any unit stand. -/
def escapeSequence (lenient : Bool) : List Char → Except Fault (Char × List Char)
  | [] => .error .truncated
  | '"' :: r => .ok ('"', r)
  | '\\' :: r => .ok ('\\', r)
  | '/' :: r => .ok ('/', r)
  | 'b' :: r => .ok ('\x08', r)
  | 'f' :: r => .ok ('\x0c', r)
  | 'n' :: r => .ok ('\n', r)
  | 'r' :: r => .ok ('\r', r)
  | 't' :: r => .ok ('\t', r)
  | 'u' :: r => do
    let (high, r) ← hexUnit r
    if lenient then return (' ', r)
    if isTrailing high then throw .malformed
    if !isLeading high then return (Char.ofNat high, r)
    match r with
    | [] => throw .truncated
    | '\\' :: [] => throw .truncated
    | '\\' :: 'u' :: r =>
      let (low, r) ← hexUnit r
      if isTrailing low then
        return (Char.ofNat (0x10000 + (high - 0xD800) * 0x400 + (low - 0xDC00)), r)
      throw .malformed
    | _ => throw .malformed
  | _ => .error .malformed

/-- Takes the rest of a string up to its closing quote. -/
def stringTail (lenient : Bool) : Nat → List Char → List Char → Except Fault (String × List Char)
  | 0, _, _ => .error .truncated
  | fuel + 1, acc, cs =>
    match cs with
    | [] => .error .truncated
    | '"' :: r => .ok (String.ofList acc.reverse, r)
    | '\\' :: r => do
      let (c, r) ← escapeSequence lenient r
      stringTail lenient fuel (c :: acc) r
    | c :: r => if c.toNat < 32 then .error .malformed else stringTail lenient fuel (c :: acc) r

/-- Takes a string after its opening quote. -/
def quoted : Reader String := fun cs => stringTail false (cs.length + 1) [] cs

/-- Skips a string after its opening quote. -/
def skipQuoted (cs : List Char) : Except Fault (List Char) :=
  (stringTail true (cs.length + 1) [] cs).map Prod.snd

/-! ## Numbers -/

def isDigit (c : Char) : Bool := '0' ≤ c && c ≤ '9'

def digitValue (c : Char) : Nat := c.toNat - '0'.toNat

/-- The digits of a number: before the point, after it, and its exponent. -/
structure Digits where
  isNegative : Bool
  whole : List Char
  fraction : Option (List Char)
  exponent : Option (Bool × List Char)

/-- Takes at least one digit. -/
def someDigits (cs : List Char) : Except Fault (List Char × List Char) :=
  match cs with
  | [] => .error .truncated
  | c :: _ => if isDigit c then .ok (cs.span isDigit) else .error .malformed

def sign : List Char → Bool × List Char
  | '-' :: r => (true, r)
  | cs => (false, cs)

/-- Takes the digits before the point, which have no leading zero. -/
def wholeDigits : List Char → Except Fault (List Char × List Char)
  | '0' :: c :: r => if isDigit c then .error .malformed else .ok (['0'], c :: r)
  | cs => someDigits cs

/-- Takes the digits after a point, if there is one. -/
def fractionDigits : List Char → Except Fault (Option (List Char) × List Char)
  | '.' :: r => do
    let (ds, r) ← someDigits r
    return (some ds, r)
  | cs => .ok (none, cs)

/-- Takes the sign of an exponent, which may be a plus. -/
def exponentSign : List Char → Bool × List Char
  | '+' :: r => (false, r)
  | cs => sign cs

def scaling (cs : List Char) : Except Fault (Option (Bool × List Char) × List Char) := do
  let (isSmall, cs) := exponentSign cs
  let (ds, r) ← someDigits cs
  return (some (isSmall, ds), r)

/-- Takes an exponent, if there is one. -/
def exponentDigits : List Char → Except Fault (Option (Bool × List Char) × List Char)
  | 'e' :: r => scaling r
  | 'E' :: r => scaling r
  | cs => .ok (none, cs)

/-- Takes the digits of a number. -/
def digits (cs : List Char) : Except Fault (Digits × List Char) := do
  let (isNegative, cs) := sign cs
  let (whole, cs) ← wholeDigits cs
  let (fraction, cs) ← fractionDigits cs
  let (exponent, cs) ← exponentDigits cs
  return (⟨isNegative, whole, fraction, exponent⟩, cs)

/-- The largest natural of 64 bits. -/
def natural64 : Nat := Nat.pow 2 64 - 1

/-- Appends digits to a natural while it stays within 64 bits; the digits left over are returned. -/
def gather : Nat → List Char → Nat × List Char
  | n, [] => (n, [])
  | n, c :: r =>
    if n * 10 + digitValue c ≤ natural64 then gather (n * 10 + digitValue c) r else (n, c :: r)

/-- A double times a power of ten. Powers beyond the largest double are applied in steps of it. -/
def scale : Nat → Double → Int → Option Double
  | 0, x, _ => some x
  | fuel + 1, x, e =>
    if x.mantissa = 0 then some x
    else if 308 < e then none
    else if 0 ≤ e then (Double.ofQuotient (Double.pow10 e) 1).bind x.mul
    else if -308 ≤ e then (Double.ofQuotient (Double.pow10 (-e)) 1).bind x.div
    else ((Double.ofQuotient (Double.pow10 308) 1).bind x.div).bind fun y => scale fuel y (e + 308)

/-- The double of a 64-bit natural times a power of ten. -/
def scaleNatural (n : Nat) (e : Int) : Option Double :=
  (Double.ofQuotient n 1).bind fun x => scale 8 x e

/-- The number that some digits stand for. Without point and exponent it is an integer as long as 64
bits hold it; digits of a double past 64 bits do not count. -/
def Digits.number (d : Digits) : Except Fault Number :=
  let (n, restWhole) := gather 0 d.whole
  let isInteger := restWhole.isEmpty && d.fraction.isNone && d.exponent.isNone
  if isInteger && !d.isNegative then .ok (.natural n)
  else if isInteger && 0 < n && n ≤ Nat.pow 2 63 then .ok (.negative n)
  else
    let fraction := d.fraction.getD []
    let (n, restFraction) := gather n fraction
    let shift : Int := restWhole.length - (fraction.length - restFraction.length)
    let e : Int := match d.exponent with
      | none => 0
      | some (isSmall, ds) =>
        let e : Int := ds.foldl (fun e c => e * 10 + digitValue c) 0
        if isSmall then -e else e
    match scaleNatural n (shift + e) with
    | some x => .ok (.real d.isNegative x)
    | none => .error .malformed

def numeral : Reader Number := fun cs => do
  let (d, r) ← digits cs
  return (← d.number, r)

/-! ## Lists and objects -/

variable {α σ : Type}

/-- Takes the items of a list after its bracket, up to and including the closing one. -/
def items (item : Reader α) : Nat → Bool → Reader (List α)
  | 0, _, _ => .error .truncated
  | fuel + 1, isFirst, cs =>
    let one (cs : List Char) : Except Fault (List α × List Char) := do
      let (x, r) ← item cs
      let (xs, r) ← items item fuel false r
      return (x :: xs, r)
    match skipBlanks cs with
    | [] => .error .truncated
    | ']' :: r => .ok ([], r)
    | c :: r =>
      if isFirst then one (c :: r)
      else if c ≠ ',' then .error .malformed
      else match skipBlanks r with
        | [] => .error .truncated
        | ']' :: _ => .error .malformed
        | r => one r

/-- Takes the colon between a name and its value. -/
def colon (cs : List Char) : Except Fault (List Char) :=
  match skipBlanks cs with
  | [] => .error .truncated
  | ':' :: r => .ok r
  | _ => .error .malformed

/-- Takes the members of an object after its brace, up to and including the closing one. A name is
taken after its opening quote; the member reader is given the state and the name and starts before the
colon. -/
def members (quote : Reader String) (member : σ → String → Reader σ) : Nat → Bool → σ → Reader σ
  | 0, _, _, _ => .error .truncated
  | fuel + 1, isFirst, s, cs =>
    let one (cs : List Char) : Except Fault (σ × List Char) :=
      match cs with
      | [] => .error .truncated
      | '"' :: r => do
        let (name, r) ← quote r
        let (s, r) ← member s name r
        members quote member fuel false s r
      | _ => .error .malformed
    match skipBlanks cs with
    | [] => .error .truncated
    | '\x7d' :: r => .ok (s, r)
    | c :: r =>
      if isFirst then one (c :: r)
      else if c = ',' then one (skipBlanks r)
      else .error .malformed

/-! ## Values -/

/-- Takes any value with at most `depth` brackets around its innermost part; `unify` is applied to
the members of every object. -/
def valueWith (unify : List (String × Json) → List (String × Json)) : Nat → Reader Json
  | depth, cs =>
    match skipBlanks cs with
    | [] => .error .truncated
    | '"' :: r => do
      let (s, r) ← quoted r
      return (.string s, r)
    | '[' :: r =>
      match depth with
      | 0 => .error .malformed
      | depth + 1 => do
        let (xs, r) ← items (valueWith unify depth) (r.length + 1) true r
        return (.array xs, r)
    | '\x7b' :: r =>
      match depth with
      | 0 => .error .malformed
      | depth + 1 => do
        let member (acc : List (String × Json)) (name : String) : Reader (List (String × Json)) :=
          fun cs => do
            let (v, r) ← valueWith unify depth (← colon cs)
            return ((name, v) :: acc, r)
        let (ms, r) ← members quoted member (r.length + 1) true [] r
        return (.object (unify ms.reverse), r)
    | 'n' :: r => do return (.null, ← word ['u', 'l', 'l'] r)
    | 't' :: r => do return (.bool true, ← word ['r', 'u', 'e'] r)
    | 'f' :: r => do return (.bool false, ← word ['a', 'l', 's', 'e'] r)
    | c :: r =>
      if c = '-' || isDigit c then do
        let (n, r) ← numeral (c :: r)
        return (.number n, r)
      else .error .malformed

/-- The deepest nesting that is read. -/
def depthLimit : Nat := 127

def value (depth : Nat) : Reader Json := valueWith merge depth

/-- Skips a value that is not asked for, whatever its depth, the size of its numbers and the units in its
strings and names. -/
def skip : Nat → List Char → Except Fault (List Char)
  | 0, _ => .error .truncated
  | fuel + 1, cs =>
    match skipBlanks cs with
    | [] => .error .truncated
    | '"' :: r => skipQuoted r
    | '[' :: r => do
      let item : Reader Unit := fun cs => do return ((), ← skip fuel cs)
      let (_, r) ← items item (r.length + 1) true r
      return r
    | '\x7b' :: r => do
      let quote : Reader String := fun cs => do return ("", ← skipQuoted cs)
      let member (_ : Unit) (_ : String) : Reader Unit := fun cs => do
        return ((), ← skip fuel (← colon cs))
      let (_, r) ← members quote member (r.length + 1) true () r
      return r
    | 'n' :: r => word ['u', 'l', 'l'] r
    | 't' :: r => word ['r', 'u', 'e'] r
    | 'f' :: r => word ['a', 'l', 's', 'e'] r
    | c :: r =>
      if c = '-' || isDigit c then (digits (c :: r)).map Prod.snd else .error .malformed

/-! ## Fixed shapes -/

/-- The fault of a value that is not of the kind asked for: a scalar has to be well formed first. -/
def refuse (cs : List Char) : Fault :=
  let fault (r : Except Fault Unit) : Fault := match r with
    | .error f => f
    | .ok _ => .mismatched
  match skipBlanks cs with
  | [] => .truncated
  | '[' :: _ => .mismatched
  | '\x7b' :: _ => .mismatched
  | cs => fault ((value 0 cs).map fun _ => ())

def asString : Reader String := fun cs =>
  match skipBlanks cs with
  | '"' :: r => quoted r
  | r => .error (refuse r)

def asBool : Reader Bool := fun cs =>
  match skipBlanks cs with
  | 't' :: r => do return (true, ← word ['r', 'u', 'e'] r)
  | 'f' :: r => do return (false, ← word ['a', 'l', 's', 'e'] r)
  | r => .error (refuse r)

/-- A natural below `2 ^ 32`. -/
def asNatural32 : Reader Nat := fun cs =>
  match skipBlanks cs with
  | [] => .error .truncated
  | c :: r =>
    if c = '-' || isDigit c then do
      match ← numeral (c :: r) with
      | (.natural n, r) => if n < Nat.pow 2 32 then return (n, r) else throw .mismatched
      | _ => throw .mismatched
    else .error (refuse (c :: r))

/-- A value, or nothing for `null`. -/
def asOption (inner : Reader α) : Reader (Option α) := fun cs =>
  match skipBlanks cs with
  | 'n' :: r => do return (none, ← word ['u', 'l', 'l'] r)
  | r => do
    let (x, r) ← inner r
    return (some x, r)

def asList (item : Reader α) : Reader (List α) := fun cs =>
  match skipBlanks cs with
  | '[' :: r => items item (r.length + 1) true r
  | r => .error (refuse r)

/-- An object whose values are all of one kind. -/
def asMap (item : Reader α) : Reader (List (String × α)) := fun cs =>
  match skipBlanks cs with
  | '\x7b' :: r =>
    let member (acc : List (String × α)) (name : String) : Reader (List (String × α)) := fun cs => do
      let (v, r) ← item (← colon cs)
      return (put name v acc, r)
    members quoted member (r.length + 1) true [] r
  | r => .error (refuse r)

/-- One of some words, as a string or as the only name of an object that binds it to `null`. -/
def asChoice (choices : List (String × α)) : Reader α := fun cs =>
  let choose (s : String) : Except Fault α :=
    match choices.lookup s with
    | some x => .ok x
    | none => .error .mismatched
  match skipBlanks cs with
  | [] => .error .truncated
  | '"' :: r => do
    let (s, r) ← quoted r
    return (← choose s, r)
  | '\x7b' :: r => do
    let (s, r) ← asString r
    let x ← choose s
    match skipBlanks (← colon r) with
    | 'n' :: r =>
      let r ← word ['u', 'l', 'l'] r
      match skipBlanks r with
      | [] => throw .truncated
      | '\x7d' :: r => return (x, r)
      | _ => throw .malformed
    | r => throw (refuse r)
  | _ => .error .malformed

/-- A field of a record. -/
structure FieldReader (σ : Type) where
  key : String
  /-- A record written as a list may end before this field. -/
  mayEnd : Bool
  read : σ → Reader σ

/-- Takes the fields of a record written as a list. -/
def recordItems : List (FieldReader σ) → Bool → σ → Reader σ
  | [], _, s, cs =>
    match skipBlanks cs with
    | [] => .error .truncated
    | ']' :: r => .ok (s, r)
    | _ => .error .malformed
  | f :: fs, isFirst, s, cs =>
    let one (cs : List Char) : Except Fault (σ × List Char) := do
      let (s, r) ← f.read s cs
      recordItems fs false s r
    match skipBlanks cs with
    | [] => .error .truncated
    | ']' :: r => if f.mayEnd then recordItems fs isFirst s (']' :: r) else .error .mismatched
    | c :: r =>
      if isFirst then one (c :: r)
      else if c ≠ ',' then .error .malformed
      else match skipBlanks r with
        | [] => .error .truncated
        | ']' :: _ => .error .malformed
        | r => one r

/-- A record of known fields. A field may be given once, other names are skipped. -/
def record (fields : List (FieldReader σ)) (start : σ) : Reader σ := fun cs =>
  match skipBlanks cs with
  | '\x7b' :: r => do
    let member (s : σ × List String) (name : String) : Reader (σ × List String) := fun cs =>
      match fields.find? (·.key = name) with
      | none => do
        let cs ← colon cs
        return (s, ← skip (cs.length + 1) cs)
      | some f =>
        if s.2.contains name then .error .mismatched
        else do
          let (t, r) ← f.read s.1 (← colon cs)
          return ((t, name :: s.2), r)
    let ((s, _), r) ← members quoted member (r.length + 1) true (start, []) r
    return (s, r)
  | '[' :: r => recordItems fields true start r
  | r => .error (refuse r)

/-- Reads a text that holds one value and nothing else. -/
def parse (reader : Reader α) (text : String) : Except Fault α := do
  let (x, r) ← reader text.toList
  if (skipBlanks r).isEmpty then return x else throw .malformed

end Stowage.Json
