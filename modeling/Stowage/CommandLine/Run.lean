/-
Running a command.
-/
import Stowage.CommandLine.Command
import Stowage.Config.File
import Stowage.Bundle.Bundle
import Stowage.Compile.Transpile
import Stowage.Trace.Tree
import Stowage.Trace.Report
import Stowage.Path.Quoted

namespace Stowage

namespace CommandLine

/-- Why a command fails. -/
inductive Failure where
  | usage (fault : UsageFault)
  | config (fault : ConfigFault)
  | noEntryPoints
  | missingEntryPoint (p : Path)
  /-- What went wrong, with what it went wrong in. -/
  | packaging (error : Error) (context : Option String)
  deriving Inhabited

def Failure.message : Failure → String
  | .usage fault => fault.message
  | .config fault => fault.message
  | .noEntryPoints => "No entry points given"
  | .missingEntryPoint p => s!"Entry point {p.quoted} does not exist"
  | .packaging error none => error.message
  | .packaging _ (some context) => context

/-- The lines that tell a failure: what failed, then why. -/
def Failure.lines (f : Failure) : List String :=
  match f with
  | .packaging error (some context) => [s!"Error: {context}", s!"Caused by: {error.message}"]
  | _ => [s!"Error: {f.message}"]

/-- What a command answers. -/
inductive Answer where
  | bundled (report : Report)
  | lines (texts : List String)
  deriving Inhabited

/-- The line on an archive with its size. -/
def archiveLine (a : Archive.Summary) (size : String) : String :=
  s!"{a.path.text} ({a.entries} entries, {size} bytes)"

/-- The lines that a command prints. -/
def Answer.output : Answer → List String
  | .bundled r => [archiveLine r.archive (toString r.archive.size)]
  | .lines texts => texts

abbrev Run := ExceptT Failure (StateM World)

namespace Run

variable {α : Type}

/-- An action as part of a command. -/
def action (context : Option String) (a : Action α) : Run α := fun w =>
  let (result, w) := a.run.run w
  (result.mapError fun e => .packaging e context, w)

/-- A question that starts with nothing known. -/
def question (q : Disk → Query α) : Run α := do
  let (a, _) ← action none (Bundle.ask .empty (q (← get).disk))
  return a

def config (r : Except ConfigFault α) : Run α :=
  match r with
  | .ok a => pure a
  | .error fault => throw (.config fault)

end Run

def bundleService (dir : Path) (file : Option Path) (overrides : Config) : Run Answer := do
  let d := (← get).disk
  let found ← match file with
    | some file => Run.config (some <$> Config.load d file)
    | none => Run.config (Config.discover d dir)
  let settings := ((found.getD .empty).merge overrides).toSettings dir
  let report ← Run.action (some s!"Failed to bundle {dir.text}") (bundle compileScripts settings)
  return .bundled report

/-- The directory that a trace starts in. -/
def traceStart (dir : Option Path) (entries : List Path) : Except Failure Path :=
  match dir, entries with
  | some dir, _ => .ok dir
  | none, entry :: _ =>
    match entry.parent? with
    | some parent => .ok (if parent.text.isEmpty then ⟨"."⟩ else parent)
    | none => .error .noEntryPoints
  | none, [] => .error .noEntryPoints

/-- The lines of a trace. -/
def traceLines (view : TraceView) (r : Trace.Result) : List String :=
  match view with
  | .files => r.files
  | .tree => Trace.Tree.draw r.reasons true
  | .json => (Json.pretty r.toJson).splitOn "\n"

def traceFiles (dir : Option Path) (entries : List Path) (strict : Bool) (view : TraceView) :
    Run Answer := do
  let d := (← get).disk
  if let some missing := entries.find? fun p => !d.isFile p then throw (.missingEntryPoint missing)
  let start ← match traceStart dir entries with
    | .ok start => pure start
    | .error failure => throw failure
  let limits : Trace.Limits := ⟨[], [], [], strict⟩
  let result ← Run.question fun d => do
    let p ← Project.create d Resolver.standard.resolve start
    Trace.trace ⟨p, limits, Trace.readReferences⟩ d entries
  return .lines (traceLines view result)

/-- Opens the project of a directory. -/
def openProject (dir : Path) : Run (Project × Manifests) := do
  Run.action none
    (Bundle.ask .empty (Project.create (← get).disk Resolver.standard.resolve dir))

def listExpansion (dir : Path) (name : String) : Run Answer := do
  let (p, ms) ← openProject dir
  let settings : ExpansionSettings := ⟨defaultOptionalModules, []⟩
  let (result, after) :=
    (Expand.expand p settings (← get).disk name p.start []).run.run ⟨ms, .empty⟩
  Run.action (some s!"Failed to expand {name}") (Action.ofExcept result)
  return .lines (after.expansion.files ++ after.expansion.extras)

def showRoot (dir : Path) : Run Answer := do
  let (p, _) ← openProject dir
  return .lines [p.root.text]

end CommandLine

open CommandLine in
/-- Runs a command. -/
def Command.run : Command → Run Answer
  | .bundle dir config overrides => bundleService dir config overrides
  | .trace dir entries strict view => traceFiles dir entries strict view
  | .expand dir name => listExpansion dir name
  | .root dir => showRoot dir

open CommandLine in
/-- Runs the command that arguments give. -/
def Command.runArguments (arguments : List String) : Run Answer := do
  match Command.ofArguments arguments with
  | .ok command => command.run
  | .error fault => throw (.usage fault)

end Stowage
