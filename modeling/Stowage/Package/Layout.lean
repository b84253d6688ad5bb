/-
The layout of installed packages, read off paths alone.
-/
import Stowage.Path

namespace Stowage.Package

/-- The directory that holds installed packages. -/
def modulesDir : String := "node_modules"

def isModulesDir (dir : Path) : Bool := dir.fileName = some modulesDir

/-- The directory is the place of an installed package: right below a modules directory, or below a
scope in one. -/
def isInstalled (dir : Path) : Bool :=
  match dir.parent? with
  | none => false
  | some parent =>
    isModulesDir parent ||
      ((parent.fileName.any fun n => n.toList.head? = some '@') &&
        parent.parent?.any isModulesDir)

/-- The file only declares types. -/
def isDeclaration (file : Path) : Bool :=
  file.fileName.any fun n => n.endsWith ".d.ts" || n.endsWith ".d.mts" || n.endsWith ".d.cts"

end Stowage.Package
