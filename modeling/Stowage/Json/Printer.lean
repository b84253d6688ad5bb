/-
Written JSON: compact, or with one member a line and two blanks for each level. Doubles are written
with the fewest digits that read back.
-/
import Stowage.Json

namespace Stowage.Json

/-! ## Numbers -/

/-- Where a double is written with its digits in place and where with an exponent. -/
structure RealFormat where
  /-- Digits before the point from which an exponent is used. -/
  mostDigits : Int
  /-- Zeros after the point from which an exponent is used. -/
  mostZeros : Int

/-- Doubles up to sixteen digits before the point, or five zeros after it, are written in place. -/
def realFormat : RealFormat := ⟨16, 5⟩

def zeros (n : Int) : String := String.ofList (List.replicate n.toNat '0')

def writeReal (f : RealFormat) (d : Double.Decimal) : String :=
  let digits := toString d.digits
  let size : Int := digits.length
  let point := size + d.exponent
  if 0 ≤ d.exponent ∧ point ≤ f.mostDigits then digits ++ zeros d.exponent ++ ".0"
  else if 0 < point ∧ point ≤ f.mostDigits then
    let (a, b) := digits.toList.splitAt point.toNat
    String.ofList a ++ "." ++ String.ofList b
  else if -f.mostZeros < point ∧ point ≤ 0 then "0." ++ zeros (-point) ++ digits
  else
    let (a, b) := digits.toList.splitAt 1
    let tail := if b.isEmpty then "" else "." ++ String.ofList b
    String.ofList a ++ tail ++ "e" ++ toString (point - 1)

def writeNumber : Number → String
  | .natural n => toString n
  | .negative n => "-" ++ toString n
  | .real isNegative x => (if isNegative then "-" else "") ++ writeReal realFormat x.shortest

/-! ## Strings -/

def hexDigit (n : Nat) : Char := (Nat.toDigits 16 (n % 16)).headD '0'

/-- A character inside quotes. -/
def escape (c : Char) : List Char :=
  if c = '"' then ['\\', '"']
  else if c = '\\' then ['\\', '\\']
  else if c = '\n' then ['\\', 'n']
  else if c = '\r' then ['\\', 'r']
  else if c = '\t' then ['\\', 't']
  else if c = '\x08' then ['\\', 'b']
  else if c = '\x0c' then ['\\', 'f']
  else if c.toNat < 32 then ['\\', 'u', '0', '0', hexDigit (c.toNat / 16), hexDigit c.toNat]
  else [c]

def writeString (s : String) : String :=
  "\"" ++ String.ofList (s.toList.flatMap escape) ++ "\""

/-! ## Values -/

mutual

/-- The text of a value without blanks. -/
def compact : Json → String
  | .null => "null"
  | .bool b => if b then "true" else "false"
  | .number n => writeNumber n
  | .string s => writeString s
  | .array items => "[" ++ ",".intercalate (compactItems items) ++ "]"
  | .object members => "\x7b" ++ ",".intercalate (compactMembers members) ++ "\x7d"

def compactItems : List Json → List String
  | [] => []
  | v :: r => compact v :: compactItems r

def compactMembers : List (String × Json) → List String
  | [] => []
  | (k, v) :: r => (writeString k ++ ":" ++ compact v) :: compactMembers r

end

def indent (level : Nat) : String := "\n" ++ String.ofList (List.replicate (2 * level) ' ')

/-- Lines between an opening and a closing bracket, one level further in. -/
def enclose (level : Nat) (opening closing : String) (lines : List String) : String :=
  if lines.isEmpty then opening ++ closing
  else opening ++ indent (level + 1) ++ ("," ++ indent (level + 1)).intercalate lines ++
    indent level ++ closing

mutual

/-- The text of a value over several lines, from the given level on. -/
def prettyAt (level : Nat) : Json → String
  | .array items => enclose level "[" "]" (prettyItems (level + 1) items)
  | .object members => enclose level "\x7b" "\x7d" (prettyMembers (level + 1) members)
  | v => compact v

def prettyItems (level : Nat) : List Json → List String
  | [] => []
  | v :: r => prettyAt level v :: prettyItems level r

def prettyMembers (level : Nat) : List (String × Json) → List String
  | [] => []
  | (k, v) :: r => (writeString k ++ ": " ++ prettyAt level v) :: prettyMembers level r

end

def pretty (v : Json) : String := prettyAt 0 v

end Stowage.Json
