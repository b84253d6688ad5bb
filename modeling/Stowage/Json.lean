/-
JSON values. An object keeps its members in the order of the text; a name that is given again
replaces the earlier value where that one stands.
-/
import Stowage.Json.Double

namespace Stowage

/-- A number: a natural or a negative integer of 64 bits, or a double. -/
inductive Json.Number where
  | natural (n : Nat)
  | negative (n : Nat)
  | real (isNegative : Bool) (x : Double)
  deriving DecidableEq, Inhabited

inductive Json where
  | null
  | bool (b : Bool)
  | number (n : Json.Number)
  | string (s : String)
  | array (items : List Json)
  | object (members : List (String × Json))
  deriving Inhabited

namespace Json

variable {α : Type}

/-- The members with `key` bound to `value`, in its old place if it has one. -/
def put (key : String) (value : α) : List (String × α) → List (String × α)
  | [] => [(key, value)]
  | (k, v) :: r => if k = key then (k, value) :: r else (k, v) :: put key value r

/-- The members in order, each name once. -/
def merge (members : List (String × α)) : List (String × α) :=
  members.foldl (fun acc m => put m.1 m.2 acc) []

/-- The value of a name. -/
def lookup (key : String) (members : List (String × α)) : Option α := members.lookup key

def ofStrings (items : List String) : Json := .array (items.map .string)

def ofOption (f : α → Json) : Option α → Json
  | none => .null
  | some x => f x

end Json
end Stowage
