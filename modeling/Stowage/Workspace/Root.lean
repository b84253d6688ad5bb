/-
The root of the workspace that a directory belongs to.
-/
import Stowage.Workspace
import Stowage.Package.Manifests

namespace Stowage.Workspace

/-- Looks for the root of the workspace of `start` among its remaining ancestors. The nearest manifest
with workspace patterns decides: a directory that it does not take in is a workspace by itself. -/
def rootAmong (d : Disk) (start : Path) : List Path → Query Path
  | [] => return start
  | dir :: rest => do
    match (← Manifests.load d dir).bind (·.workspaces) with
    | none => rootAmong d start rest
    | some patterns =>
      let name := ((start.stripPrefix? dir).getD start).slashText
      if name.isEmpty then return dir
      if ← Query.ofExcept (isMember patterns name) then return dir else return start

/-- The root of the workspace that a directory belongs to. -/
def root (d : Disk) (start : Path) : Query Path := rootAmong d start start.ancestors

end Stowage.Workspace
