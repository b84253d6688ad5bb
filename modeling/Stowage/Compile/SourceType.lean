/-
The module formats of compiled code.
-/

namespace Stowage

inductive SourceType where
  | commonJs
  | esModule
  deriving DecidableEq, Inhabited

namespace SourceType

def name : SourceType → String
  | .commonJs => "commonjs"
  | .esModule => "module"

/-- The extension of compiled files. -/
def extension : SourceType → String
  | .commonJs => "js"
  | .esModule => "mjs"

/-- The conditions under which the runtime reads the exports of packages. -/
def conditions : SourceType → List String
  | .commonJs => ["node", "require"]
  | .esModule => ["node", "import"]

def ofString? : String → Option SourceType
  | "commonjs" => some .commonJs
  | "cjs" => some .commonJs
  | "module" => some .esModule
  | "esm" => some .esModule
  | _ => none

end SourceType
end Stowage
