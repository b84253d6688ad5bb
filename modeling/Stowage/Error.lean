/-
Everything that can go wrong while a service is packaged, by cause, and the wording of each cause.
-/
import Stowage.Path
import Stowage.Json.Reader
import Stowage.Glob

namespace Stowage

/-- Why an operation on the file system fails. -/
inductive FileFault where
  | notFound
  | notADirectory
  | isADirectory
  | directoryNotEmpty
  | alreadyExists
  | loop
  | invalidData
  | invalidInput
  | busy
  | nameTooLong
  | other
  deriving DecidableEq, Inhabited

inductive Error where
  | noEntries
  | noOutputDir
  | invalidLevel (level : Nat)
  | unknownFormat (name : String)
  | unknownSourceType (name : String)
  | moduleNotFound (name : String) (base : Path)
  | missingDependency (name : String) (chain : String)
  | manifestNotFound (file : Path)
  | manifestInvalid (file : Path) (fault : Json.Fault)
  | outsideWorkspace (path root : Path)
  | emptyOutput
  | compile (file : Path) (reason : String)
  | traceIncomplete (misses : List String)
  | pattern (fault : Glob.Fault)
  | file (fault : FileFault)
  /-- Linked directories contain each other, so what they hold has no end. -/
  | endlessLinks
  deriving Inhabited

namespace FileFault

def message : FileFault → String
  | .notFound => "No such file or directory (os error 2)"
  | .notADirectory => "Not a directory (os error 20)"
  | .isADirectory => "Is a directory (os error 21)"
  | .directoryNotEmpty => "Directory not empty (os error 39)"
  | .alreadyExists => "File exists (os error 17)"
  | .loop => "Too many levels of symbolic links (os error 40)"
  | .invalidData => "stream did not contain valid UTF-8"
  | .invalidInput => "Invalid argument (os error 22)"
  | .busy => "Device or resource busy (os error 16)"
  | .nameTooLong => "File name too long (os error 36)"
  | .other => "other error"

end FileFault

namespace Error

def message : Error → String
  | .noEntries => "no entry points were given"
  | .noOutputDir => "no output directory was given"
  | .invalidLevel n => s!"invalid compression level {n}, expected a value from 0 to 9"
  | .unknownFormat s => s!"unknown archive format '{s}', expected zip or tgz"
  | .unknownSourceType s => s!"unknown source type '{s}', expected commonjs or module"
  | .moduleNotFound name base => s!"cannot find module '{name}' from {base.text}"
  | .missingDependency name chain => s!"cannot find module '{name}' required by {chain}"
  | .manifestNotFound p => s!"no package.json found at {p.text}"
  | .manifestInvalid p _ => s!"failed to parse {p.text}"
  | .outsideWorkspace path root =>
    s!"{path.text} is outside of the workspace root {root.text}"
  | .emptyOutput => "compilation produced no output files"
  | .compile p reason => s!"failed to compile {p.text}: {reason}"
  | .traceIncomplete misses =>
    s!"trace is incomplete, {misses.length} reference(s) could not be resolved:\n" ++
      "\n".intercalate misses
  | .pattern fault => fault.message
  | .file fault => fault.message
  | .endlessLinks => "linked directories contain each other"

/-- The error says that a module was not found. -/
def isMissing : Error → Bool
  | .moduleNotFound _ _ => true
  | _ => false

end Error
end Stowage
