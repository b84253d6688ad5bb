/-
The tree of a trace: below each entry the paths that it leads to. A path is unfolded where it is met
first, later it carries a mark: one for a path that leads back to itself, another for a path that
was already shown.
-/
import Stowage.Trace.Result

namespace Stowage.Trace.Tree

/-- What stands after a path that is not unfolded. -/
inductive Mark where
  | cycle
  | repeated
  deriving DecidableEq, Inhabited

/-- A line below an entry. -/
structure Line where
  /-- For each line above it, whether that one has later siblings. -/
  bars : List Bool
  /-- It is the last line of its parent. -/
  isLast : Bool
  path : String
  mark : Option Mark
  deriving DecidableEq, Inhabited

/-- A line of the tree. -/
inductive Row where
  | entry (path : String)
  | child (line : Line)
  deriving DecidableEq, Inhabited

/-- The lines of some siblings under `chain`, and the paths shown so far. The recursion goes on
through `unfold`, which gives the lines below a path. -/
def siblings (unfold : List Bool → List String → String → List String → List Line × List String)
    (bars : List Bool) (chain : List String) : List String → List String → List Line × List String
  | [], shown => ([], shown)
  | path :: rest, shown =>
    let line (m : Option Mark) : Line := ⟨bars, rest.isEmpty, path, m⟩
    if chain.contains path then
      let (lines, shown) := siblings unfold bars chain rest
        (if shown.contains path then shown else path :: shown)
      (line (some .cycle) :: lines, shown)
    else if shown.contains path then
      let (lines, shown) := siblings unfold bars chain rest shown
      (line (some .repeated) :: lines, shown)
    else
      let (below, shown) := unfold (bars ++ [!rest.isEmpty]) (chain ++ [path]) path (path :: shown)
      let (lines, shown) := siblings unfold bars chain rest shown
      (line none :: below ++ lines, shown)

/-- The lines below a path. -/
def below (rs : Reasons) : Nat → List Bool → List String → String → List String →
    List Line × List String
  | 0, _, _, _, shown => ([], shown)
  | fuel + 1, bars, chain, path, shown =>
    siblings (below rs fuel) bars chain (rs.children path) shown

/-- The rows of the entries among `rest`. -/
def entries (rs : Reasons) : Reasons → List String → List Row
  | [], _ => []
  | (path, r) :: rest, shown =>
    if r.kind = .entry then
      let shown := if shown.contains path then shown else path :: shown
      let (lines, shown) := below rs (rs.length + 1) [] [path] path shown
      .entry path :: lines.map .child ++ entries rs rest shown
    else entries rs rest shown

/-- The tree of a trace. Each level unfolds a path that was not shown before, so there are at most
as many levels as paths. -/
def rows (rs : Reasons) : List Row := entries rs rs []

/-! ## Drawing -/

def Mark.text : Mark → String
  | .cycle => " (∞)"
  | .repeated => " (*)"

/-- What stands before the path of a line. -/
def Line.lead (l : Line) : String :=
  "".intercalate (l.bars.map fun bar => if bar then "│   " else "    ") ++
    (if l.isLast then "└── " else "├── ")

def Row.text (rs : Reasons) (withKind : Bool) : Row → String
  | .entry path => path
  | .child l =>
    let kind := match rs.lookup l.path with
      | some r => if withKind then s!" ({r.kind.title})" else ""
      | none => ""
    l.lead ++ l.path ++ kind ++ (l.mark.map Mark.text).getD ""

/-- The drawn tree, a line each. -/
def draw (rs : Reasons) (withKind : Bool) : List String := (rows rs).map (Row.text rs withKind)

end Stowage.Trace.Tree
