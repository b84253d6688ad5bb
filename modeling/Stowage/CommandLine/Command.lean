/-
The commands of the program, and reading one from the arguments.
-/
import Stowage.CommandLine.Switch
import Stowage.Config

namespace Stowage

/-- How a trace is shown. -/
inductive TraceView where
  | files
  | tree
  | json
  deriving DecidableEq, Inhabited

inductive Command where
  /-- Bundles the service in a directory. The configuration is read from the given file, else from the
  directory; what is given with the command comes on top. -/
  | bundle (dir : Path) (config : Option Path) (overrides : Config)
  /-- Traces files from a directory, which is the one of the first file unless it is given. -/
  | trace (dir : Option Path) (entries : List Path) (strict : Bool) (view : TraceView)
  /-- Shows the files that a module is included with. -/
  | expand (dir : Path) (name : String)
  /-- Shows the workspace of a directory. -/
  | root (dir : Path)
  deriving DecidableEq, Inhabited

namespace Command

open CommandLine

def dirSwitch : Switch := ⟨"dir", some 'C', .one⟩

def bundleSwitches : List Switch := [
  dirSwitch, ⟨"config", some 'c', .one⟩, ⟨"output", some 'o', .one⟩, ⟨"format", some 'f', .one⟩,
  ⟨"level", some 'l', .one⟩, ⟨"source-type", some 't', .one⟩, ⟨"external", none, .many⟩,
  ⟨"force-include", none, .many⟩, ⟨"exclude", none, .many⟩, ⟨"extra", none, .many⟩,
  ⟨"strict", none, .flag⟩, ⟨"keep-build", none, .flag⟩]

def traceSwitches : List Switch := [
  ⟨"tree", none, .flag⟩, ⟨"json", some 'j', .flag⟩, ⟨"strict", none, .flag⟩, dirSwitch]

/-- A directory that is given, else the current one. -/
def directory (given : Option String) : Path := ⟨given.getD "."⟩

/-- A setting that is given as a text. -/
def setting {α : Type} (g : Given) (name : String) (read : String → Option α) :
    Except UsageFault (Option α) :=
  match g.value? name with
  | none => .ok none
  | some text => match read text with
    | some a => .ok (some a)
    | none => .error (.invalidValue name text)

/-- A number of 32 bits, which may have a plus sign. -/
def natural? (text : String) : Option Nat :=
  let digits := match text.toList with
    | '+' :: cs => cs
    | cs => cs
  if digits.isEmpty || !digits.all Char.isDigit then none
  else
    let n := digits.foldl (fun n c => 10 * n + (c.toNat - '0'.toNat)) 0
    if n < Nat.pow 2 32 then some n else none

/-- A list that is given, unless it is empty. -/
def given? {α : Type} (items : List α) : Option (List α) :=
  if items.isEmpty then none else some items

/-- The entry points of a list of operands. A name that is given again takes its new path. -/
def entries (operands : List String) : Option (List (String × Path)) :=
  (given? operands).map fun texts => Config.putAll [] (texts.map entryOfText)

def flag (g : Given) (name : String) : Option Bool := if g.has name then some true else none

/-- The configuration that is given with the command. -/
def overrides (g : Given) : Except UsageFault Config := do
  let format ← setting g "format" Archive.Format.ofString?
  let level ← setting g "level" natural?
  let sourceType ← setting g "source-type" SourceType.ofString?
  return { Config.empty with
    entries := entries g.operands
    output := (g.value? "output").map Path.mk
    format, level, sourceType
    externals := given? (g.values "external")
    forceInclude := given? (g.values "force-include")
    exclude := given? (g.values "exclude")
    extras := given? (g.values "extra")
    strict := flag g "strict"
    keepBuild := flag g "keep-build" }

def ofBundleArguments (arguments : List String) : Except UsageFault Command := do
  let g ← Given.ofArguments bundleSwitches arguments
  return .bundle (directory (g.value? "dir")) ((g.value? "config").map Path.mk) (← overrides g)

def ofTraceArguments (arguments : List String) : Except UsageFault Command := do
  let g ← Given.ofArguments traceSwitches arguments
  let view := if g.has "json" then .json else if g.has "tree" then .tree else .files
  return .trace ((g.value? "dir").map Path.mk) (g.operands.map Path.mk) (g.has "strict") view

def ofExpandArguments (arguments : List String) : Except UsageFault Command := do
  let g ← Given.ofArguments [dirSwitch] arguments
  match g.operands with
  | [name] => return .expand (directory (g.value? "dir")) name
  | [] => throw (.missingValue "module")
  | _ :: extra :: _ => throw (.unexpectedValue extra)

def ofRootArguments (arguments : List String) : Except UsageFault Command := do
  let g ← Given.ofArguments [] arguments
  match g.operands with
  | [] => return .root (directory none)
  | [dir] => return .root ⟨dir⟩
  | _ :: extra :: _ => throw (.unexpectedValue extra)

/-- The command that arguments give. -/
def ofArguments : List String → Except UsageFault Command
  | "bundle" :: rest => ofBundleArguments rest
  | "trace" :: rest => ofTraceArguments rest
  | "expand" :: rest => ofExpandArguments rest
  | "root" :: rest => ofRootArguments rest
  | name :: _ => .error (.unknownCommand name)
  | [] => .error .noCommand

end Command
end Stowage
