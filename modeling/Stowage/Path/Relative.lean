/-
Relative names: the `/`-separated text of a path, the name of a path below a root, and the way from
one directory to another path.
-/
import Stowage.Path

namespace Stowage.Path

/-- The names and `..` steps of a component, the rest of a path has no relative spelling. -/
def Component.step? : Component → Option String
  | .name s => some s
  | .up => some ".."
  | _ => none

/-- The names and `..` steps of a path between single separators. -/
def slashText (p : Path) : String := "/".intercalate (p.components.filterMap Component.step?)

/-! ## Below a root -/

/-- A spelling without its leading separators and `.` pieces. -/
def dropLead : List Char → List Char
  | '/' :: r => dropLead r
  | ['.'] => []
  | '.' :: '/' :: r => dropLead r
  | r => r

/-- A spelling without its first `n` names and `..` steps. -/
def dropSteps : Nat → List Char → List Char
  | 0, cs => cs
  | n + 1, cs => dropSteps n ((dropLead cs).dropWhile (· ≠ '/'))

/-- The spelling of what follows the components of `q` in `p`. -/
def stripPrefix? (p q : Path) : Option Path :=
  if p.startsWith q then
    let rest := match q.components with
      | [] => p.text.toList
      | .root :: r => dropLead (dropSteps r.length p.text.toList)
      | .here :: r => dropLead (dropSteps r.length (p.text.toList.drop 1))
      | r => dropLead (dropSteps r.length p.text.toList)
    some ⟨String.ofList (dropTail rest.reverse).reverse⟩
  else none

/-- The name of `p` below `root`; nothing when `p` is not below it. -/
def nameBelow? (p root : Path) : Option String :=
  if p.startsWith root then
    some ("/".intercalate ((p.components.drop root.components.length).filterMap Component.step?))
  else none

/-! ## From one directory to another path -/

/-- Two component lists without their common start. -/
def dropCommon : List Component → List Component → List Component × List Component
  | a :: as, b :: bs => if a = b then dropCommon as bs else (a :: as, b :: bs)
  | as, bs => (as, bs)

/-- The path that leads from the directory `base` to `p`, both absolute or both relative. -/
def diff (p base : Path) : Path :=
  let (down, up) := dropCommon p.components base.components
  (up.map (fun _ => Component.up) ++ down).foldl (fun q c => q / c.text) ⟨""⟩

/-! ## Spelled locations -/

/-- A text without its leading `./` steps. -/
def dropHere : List Char → List Char
  | '.' :: '/' :: r => dropHere r
  | r => r

/-- A location without its leading `./` and its trailing separators. -/
def bareText (s : String) : String :=
  String.ofList ((dropHere s.toList).reverse.dropWhile (· = '/')).reverse

/-- A text holds a wildcard character. -/
def isPattern (s : String) : Bool := s.toList.any fun c => c = '*' || c = '?' || c = '['

/-- `name` below `root`, where either may be empty. -/
def slashJoin (root name : String) : String :=
  let root := bareText root
  if root.isEmpty then name
  else if name.isEmpty then root
  else root ++ "/" ++ name

end Stowage.Path
