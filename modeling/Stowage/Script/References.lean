/-
The modules that a script refers to: by the calls of `require`, `require.resolve` and `import`, and by
its import and export declarations. A call whose argument is computed is kept with its line.
-/
import Stowage.Script.Parser
import Stowage.Trace.Result

namespace Stowage.Script

open Stowage.Trace (ReferenceKind)

structure References where
  /-- Each specifier once, with the kind it has first. -/
  static : List (String × ReferenceKind)
  /-- The kind and the line of each call whose specifier is computed. -/
  computed : List (ReferenceKind × Nat)
  deriving DecidableEq, Inhabited

namespace References

/-- The kind of reference that a call with this callee is. -/
def referenceKind? : Node → Option ReferenceKind
  | .mk (.name "require") _ _ => some .require
  | .mk (.name "import") _ _ => some .dynamicImport
  | .mk (.member "resolve" false) _ [.mk (.name "require") _ _] => some .resolve
  | _ => none

/-- The text that an expression stands for, if it is written out. -/
def literal? : Node → Option String
  | .mk (.string s) _ _ => some s
  | .mk .parenthesized _ [e] => literal? e
  | .mk (.template ((cooked, _) :: _)) _ [] => some cooked
  | _ => none

/-- The expression of an argument, which may be spread. -/
def unspread : Node → Node
  | .mk .spread _ [e] => e
  | e => e

/-- A call that loads a module: its kind and either its specifier or its line. -/
inductive Load where
  | static (specifier : String) (kind : ReferenceKind)
  | computed (kind : ReferenceKind) (line : Nat)
  deriving DecidableEq, Inhabited

/-- What a node by itself loads. -/
def load? : Node → Option Load
  | .mk (.call _) line (callee :: argument :: _) =>
    (referenceKind? callee).map fun kind =>
      match literal? (unspread argument) with
      | some specifier => .static specifier kind
      | none => .computed kind line
  | _ => none

mutual

/-- What a node and its parts load, the node first. -/
def loads : Node → List Load
  | .mk kind line parts => (load? (.mk kind line parts)).toList ++ loadsOf parts

def loadsOf : List Node → List Load
  | [] => []
  | n :: ns => loads n ++ loadsOf ns

end

/-- The module that a declaration imports or exports from. -/
def declared? (n : Node) : Option String :=
  match n.kind with
  | .importFrom _ source => some source
  | .exportNames _ source => source
  | .exportAll _ source => some source
  | _ => none

def specifier? : Load → Option (String × ReferenceKind)
  | .static s k => some (s, k)
  | .computed _ _ => none

def computed? : Load → Option (ReferenceKind × Nat)
  | .static _ _ => none
  | .computed k l => some (k, l)

/-- Keeps the first of the entries with the same specifier. -/
def dedupe (entries : List (String × ReferenceKind)) : List (String × ReferenceKind) :=
  entries.foldl (fun kept e => if kept.any (·.1 = e.1) then kept else kept ++ [e]) []

/-- The references of some calls and of the modules that are named besides. Calls come first. -/
def merged (calls : List Load) (named : List String) : References :=
  ⟨dedupe (calls.filterMap specifier? ++ named.map fun s => (s, ReferenceKind.staticImport)),
    calls.filterMap computed?⟩

/-- The references of the items of a script. -/
def ofItems (items : List Node) : References := merged (loadsOf items) (items.filterMap declared?)

/-- The references of a script, unless its text is none. -/
def ofText (text : String) : Option References := (Parser.parse text).map ofItems

end References
end Stowage.Script
