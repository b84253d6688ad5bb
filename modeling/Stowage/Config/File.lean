/-
Configuration files.
-/
import Stowage.Config
import Stowage.Disk.Basic

namespace Stowage

/-- Why a configuration file gives no configuration. -/
inductive ConfigFault where
  | unreadable (file : Path)
  | malformed (file : Path)
  deriving DecidableEq, Inhabited

def ConfigFault.message : ConfigFault → String
  | .unreadable file => s!"Unable to open config file {file.text}"
  | .malformed file => s!"Failed to parse JSON in {file.text}"

namespace Config

/-- Reads a configuration file. A directory can be opened but holds no text. -/
def load (d : Disk) (file : Path) : Except ConfigFault Config :=
  match d.readText file with
  | .ok text =>
    match parse text with
    | .ok c => .ok c
    | .error _ => .error (.malformed file)
  | .error .isADirectory => .error (.malformed file)
  | .error .invalidData => .error (.malformed file)
  | .error _ => .error (.unreadable file)

/-- The configuration in a service directory, if there is one. -/
def discover (d : Disk) (dir : Path) : Except ConfigFault (Option Config) :=
  let file := dir / configName
  if d.isFile file then some <$> load d file else .ok none

end Config
end Stowage
