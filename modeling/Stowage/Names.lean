/-
Sets of names and of paths as ordered lists, each member once.
-/
import Stowage.Path

namespace Stowage

namespace Names

/-- The set with one more name. -/
def insert (name : String) : List String → List String
  | [] => [name]
  | n :: rest =>
    if name = n then n :: rest
    else if name < n then name :: n :: rest
    else n :: insert name rest

/-- The set of some names. -/
def ofList (names : List String) : List String := names.foldl (fun set n => insert n set) []

theorem mem_insert {a name : String} {set : List String} :
    a ∈ insert name set ↔ a = name ∨ a ∈ set := by
  induction set with
  | nil => simp [insert]
  | cons n rest ih =>
    unfold insert
    split
    · rename_i h; subst h; simp
    · split
      · simp
      · simp only [List.mem_cons, ih]; grind

end Names

namespace Path

/-- The place of a kind of component among the others. -/
def Component.rank : Component → Nat
  | .root => 0
  | .here => 1
  | .up => 2
  | .name _ => 3

/-- Component by component, an earlier end first. -/
def componentsBefore : List Component → List Component → Bool
  | [], [] => false
  | [], _ :: _ => true
  | _ :: _, [] => false
  | .name a :: as, .name b :: bs => a < b || (a = b && componentsBefore as bs)
  | a :: as, b :: bs => a.rank < b.rank || (a.rank = b.rank && componentsBefore as bs)

def before (p q : Path) : Bool := componentsBefore p.components q.components

/-- A set of paths with one more path. -/
def insertOrdered (p : Path) : List Path → List Path
  | [] => [p]
  | q :: rest =>
    if p.same q then q :: rest
    else if p.before q then p :: q :: rest
    else q :: insertOrdered p rest

end Path
end Stowage
