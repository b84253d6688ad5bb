/-
Workspaces: the names of paths below their root, and which directories the patterns of a workspace
manifest take in.
-/
import Stowage.Error
import Stowage.Path.Relative

namespace Stowage

/-- The name of a path below the workspace root, an error for any other path. -/
def nameBelow (path root : Path) : Except Error String :=
  match path.nameBelow? root with
  | some name => .ok name
  | none => .error (.outsideWorkspace path root)

namespace Workspace

/-- A compiled pattern, which takes directories in or leaves them out. -/
structure Rule where
  isNegated : Bool
  pattern : Glob.Pattern
  deriving DecidableEq

def compilePattern (text : String) : Except Error Glob.Pattern :=
  match Glob.compile text with
  | .ok p => .ok p
  | .error fault => .error (.pattern fault)

/-- The rule that a text stands for; a leading `!` negates it. -/
def Rule.parse (text : String) : Except Error Rule :=
  match text.toList with
  | '!' :: r => do return ⟨true, ← compilePattern (Path.bareText (String.ofList r))⟩
  | _ => do return ⟨false, ← compilePattern (Path.bareText text)⟩

/-- The verdict of rules in order: the last one that matches decides. -/
def verdict (name : String) (rules : List Rule) : Bool :=
  rules.foldl (fun v r => if r.pattern.accepts Glob.levels name then !r.isNegated else v) false

/-- The directory called `name` below the workspace is a member of it. Every pattern has to compile,
also one that does not decide. -/
def isMember (patterns : List String) (name : String) : Except Error Bool := do
  return verdict name (← patterns.mapM Rule.parse)

end Workspace
end Stowage
