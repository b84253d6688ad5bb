/-
The manifest that goes into an archive: the identity of the package and a start script for each
compiled entry point.
-/
import Stowage.Manifest
import Stowage.Workspace
import Stowage.Compile.SourceType

namespace Stowage

namespace Manifest

/-- The scripts that start the outputs: a single one is called `start`, of several each carries the
name of its output. -/
def launchers (isSingle : Bool) (workDir : Path) :
    List (String × Path) → Except Error (List (String × Json))
  | [] => .ok []
  | (name, path) :: rest => do
    let file ← nameBelow path workDir
    let key := if isSingle then "start" else "start:" ++ name
    return (key, .string ("node " ++ file)) :: (← launchers isSingle workDir rest)

/-- The manifest of the archive for the compiled outputs in `workDir`. -/
def packed (m : Manifest) (outputs : List (String × Path)) (workDir : Path) (type : SourceType) :
    Except Error Json := do
  let scripts ← launchers (outputs.length = 1) workDir outputs
  let given (key : String) (v : Option Json) : List (String × Json) :=
    v.toList.map fun x => (key, x)
  return .object <|
    given "name" (m.name.map .string) ++ given "version" (m.version.map .string) ++
    given "license" m.license ++ given "private" (m.isPrivate.map .bool) ++
    (if type = .esModule then [("type", .string "module")] else []) ++
    [("scripts", .object (Json.merge scripts))]

end Manifest

/-- The file name of an archive for a package name: a scope loses its sign and its separator. -/
def flatName (name : String) : String :=
  String.ofList ((name.toList.dropWhile (· = '@')).map fun c => if c = '/' then '-' else c)

end Stowage
