/-
The exports of a package: which file a key stands for under some conditions. A value that is no
object of keys stands for the package itself.
-/
import Stowage.Json

namespace Stowage.Exports

/-- A text with every `*` replaced. -/
def fillStars (star : List Char) (text : String) : String :=
  String.ofList (text.toList.flatMap fun c => if c = '*' then star else [c])

mutual

/-- The first string that the conditions admit, in the order of the text. -/
def target (conditions : List String) (star : Option (List Char)) : Json → Option String
  | .string s => some (match star with
    | some m => fillStars m s
    | none => s)
  | .array items => targetOfItems conditions star items
  | .object members => targetOfMembers conditions star members
  | _ => none

def targetOfItems (conditions : List String) (star : Option (List Char)) :
    List Json → Option String
  | [] => none
  | v :: r => target conditions star v <|> targetOfItems conditions star r

def targetOfMembers (conditions : List String) (star : Option (List Char)) :
    List (String × Json) → Option String
  | [] => none
  | (k, v) :: r =>
    if k = "default" ∨ k ∈ conditions then
      target conditions star v <|> targetOfMembers conditions star r
    else targetOfMembers conditions star r

end

/-- The text before and after the first `*`. -/
def cutStar : List Char → Option (List Char × List Char)
  | [] => none
  | '*' :: r => some ([], r)
  | c :: r => (cutStar r).map fun (a, b) => (c :: a, b)

/-- The part of `key` between `start` and `stop`, which do not overlap in it. -/
def between? (start stop key : List Char) : Option (List Char) :=
  if start.length + stop.length ≤ key.length ∧ start.isPrefixOf key ∧ stop.isSuffixOf key then
    some ((key.drop start.length).take (key.length - start.length - stop.length))
  else none

/-- A pattern that matches: the length of its text before the star, what the star stands for, and
its target. -/
structure Match where
  start : Nat
  star : List Char
  value : Json
  deriving Inhabited

/-- How the search for a key ends: at a directory key, or with the best pattern. -/
inductive Outcome where
  | directory (value : Json) (rest : List Char)
  | best (found : Option Match)

/-- Looks at the members in order. The first directory key that the key lies below ends the search,
of the patterns the first one with the longest text before its star is kept. -/
def search (key : List Char) : List (String × Json) → Option Match → Outcome
  | [], best => .best best
  | (pattern, value) :: r, best =>
    match cutStar pattern.toList with
    | some (start, stop) =>
      match between? start stop key with
      | some star =>
        if best.all fun m => decide (m.start < start.length) then
          search key r (some ⟨start.length, star, value⟩)
        else search key r best
      | none => search key r best
    | none =>
      if pattern.toList.getLast? = some '/' ∧ pattern.toList.isPrefixOf key then
        .directory value (key.drop pattern.toList.length)
      else search key r best

/-- The exports are an object of keys, each of which starts with a dot. -/
def keyed? : Json → Option (List (String × Json))
  | .object members =>
    if members.all fun m => m.1.toList.head? ≠ some '.' then none else some members
  | _ => none

/-- The file that a key (`.` or `./path`) stands for. -/
def resolve (exported : Json) (key : String) (conditions : List String) : Option String :=
  match keyed? exported with
  | none => if key = "." then target conditions none exported else none
  | some members =>
    match members.lookup key with
    | some value => target conditions none value
    | none =>
      match search key.toList members none with
      | .directory value rest => (target conditions none value).map (· ++ String.ofList rest)
      | .best none => none
      | .best (some m) => target conditions (some m.star) m.value

end Stowage.Exports
