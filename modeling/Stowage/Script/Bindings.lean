/-
The names that declarations and imports bring into a module.
-/
import Stowage.Script.Tree

namespace Stowage.Script

mutual

/-- The names that a pattern binds. -/
def boundNames : Node → List String
  | .mk kind _ parts =>
    match kind, parts with
    | .name n, _ => [n]
    | .assign _, target :: _ => boundNames target
    | .property, [_, value] => boundNames value
    | .shorthandDefault, n :: _ => boundNames n
    | .array, ps => boundOf ps
    | .object, ps => boundOf ps
    | .spread, ps => boundOf ps
    | .shorthand, ps => boundOf ps
    | _, _ => []

def boundOf : List Node → List String
  | [] => []
  | n :: ns => boundNames n ++ boundOf ns

end

/-- The names that a declaration declares. -/
def declaredNames (n : Node) : List String :=
  match n.kind with
  | .declaration _ => n.parts.flatMap fun d => (d.parts.head?.map boundNames).getD []
  | .function name _ _ => name.toList
  | .classBody name _ => name.toList
  | _ => []

/-- The names that an item of a module brings in. -/
def broughtIn (item : Node) : List String :=
  match item.kind with
  | .importFrom names _ => names.map ImportName.localName
  | .importEquals name _ => [name]
  | .exportDeclaration => item.parts.flatMap declaredNames
  | .exportDefault => item.parts.flatMap declaredNames
  | _ => declaredNames item

end Stowage.Script
