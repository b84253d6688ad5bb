/-
Compiling the entry points of a service, with all local scripts that they need, into a directory.
-/
import Stowage.World
import Stowage.Compile.SourceType
import Stowage.Path.Relative
import Stowage.Package.Specifier
import Stowage.Script.References

namespace Stowage

structure CompileJob where
  /-- The source of each entry point by output name, relative to the root. -/
  entries : List (String × Path)
  /-- Modules that are left to the runtime. -/
  externals : List String
  format : SourceType
  /-- The service directory. -/
  root : Path
  outDir : Path
  deriving Inhabited

structure Compiled where
  /-- The compiled file of each entry point by output name. -/
  outputs : List (String × Path)
  /-- The directory of all compiled files. -/
  workDir : Path
  deriving DecidableEq, Inhabited

/-- A way to compile the entry points of a service. -/
abbrev Compiler := CompileJob → Action Compiled

/-- The code that the text of a script compiles to, or why it does not. -/
abbrev Transpile := SourceType → Path → String → Except String String

namespace Compile

/-! ## Scripts -/

def scriptExtensions : List String := ["ts", "tsx", "mts", "cts", "js", "jsx", "mjs", "cjs"]

def isScript (p : Path) : Bool := p.extension.any scriptExtensions.contains

/-- Where a source is compiled to: at its place below the root, a script with the extension of the
output. -/
def compiledPath (root workDir source : Path) (format : SourceType) : Except Error Path :=
  match source.stripPrefix? root with
  | none => .error (.compile source s!"not inside {root.text}")
  | some rest =>
    let output := workDir / rest.slashText
    .ok (if isScript source then output.withExtension format.extension else output)

/-- The files that a local import may mean when it names none: with any extension of scripts in place
of the one given, or an index. -/
def candidates (target : Path) : List Path :=
  let stem := match target.extension with
    | some e => if scriptExtensions.contains e then target.withExtension "" else target
    | none => target
  let index := target / "index"
  scriptExtensions.map stem.appendExtension ++ scriptExtensions.map index.appendExtension ++
    [stem.appendExtension "json"]

/-- The source that a local import means. -/
def localSource (d : Disk) (target : Path) : Option Path :=
  let file := if d.isFile target then some target else (candidates target).find? d.isFile
  file.bind fun f => (d.canonicalize f).toOption

/-- The local sources that compiled code imports. -/
def localSources (d : Disk) (source : Path) (code : String) : List Path :=
  match Script.References.ofText code with
  | none => []
  | some refs =>
    let dir := source.parent?.getD source
    (refs.static.filter fun r => Specifier.isLocal r.1).filterMap fun r =>
      localSource d (dir / r.1)

/-! ## The closure of the entry points -/

/-- The sources that were reached, and those that are still to be compiled, the next one first. -/
structure Progress where
  seen : List Path
  stack : List Path
  deriving DecidableEq, Inhabited

/-- Reaches a source. -/
def Progress.reach (p : Progress) (source : Path) : Progress :=
  if p.seen.any (·.same source) then p
  else ⟨p.seen ++ [source], source :: p.stack⟩

variable (transpile : Transpile) (root workDir : Path) (format : SourceType)

/-- Compiles one source into a file and gives the local sources that it needs. -/
def compileTo (source output : Path) : Action (List Path) := do
  if !isScript source then
    Action.change (Disk.copy source output)
    return []
  let text ← Action.ask (·.readText source)
  match transpile format source text with
  | .error reason => throw (.compile source reason)
  | .ok code =>
    let imports := localSources (← Action.disk) source code
    Action.change (Disk.write output (.text code))
    return imports.filter fun i => i.startsWith root && !i.startsWith workDir

/-- Compiles one source to its place and gives the local sources that it needs. -/
def compileFile (source : Path) : Action (List Path) := do
  let output ← Action.ofExcept (compiledPath root workDir source format)
  if let some parent := output.parent? then Action.change (Disk.createDirectories parent)
  compileTo transpile root workDir format source output

/-- Compiles sources as long as there are any, at most `fuel` of them. -/
def compileAll : Nat → Progress → Action Unit
  | 0, p => if p.stack.isEmpty then return else throw (.file .other)
  | fuel + 1, p =>
    match p.stack with
    | [] => return
    | source :: rest => do
      let imports ← compileFile transpile root workDir format source
      compileAll fuel (imports.foldl Progress.reach { p with stack := rest })

/-- The sources of the entry points and where they are compiled to. -/
def enter : List (String × Path) → Action (List (String × Path × Path))
  | [] => return []
  | (name, entry) :: rest => do
    let source ← Action.ask (·.canonicalize (root.join entry))
    let output ← Action.ofExcept (compiledPath root workDir source format)
    return (name, source, output) :: (← enter rest)

end Compile

open Compile in
/-- Compiles each script on its own, imports stay as they are. The sources that are reached lie outside
of the output, so there are no more of them than entries on the disk to start with. -/
def compile (transpile : Transpile) : Compiler := fun request => do
  let root ← Action.ask (·.canonicalize request.root)
  let fuel := (← Action.disk).entries.length + request.entries.length + 1
  Action.change (Disk.createDirectories request.outDir)
  let workDir ← Action.ask (·.canonicalize request.outDir)
  let entries ← enter root workDir request.format request.entries
  let start := entries.foldl (fun p e => p.reach e.2.1) ⟨[], []⟩
  compileAll transpile root workDir request.format fuel start
  if entries.isEmpty then throw .emptyOutput
  return ⟨entries.map fun (name, _, output) => (name, output), workDir⟩

/-- Copies the entry points as they are, with the extension of the output. -/
def copySources : Compiler := fun request => do
  let outputs ← request.entries.mapM fun (name, entry) => do
    let output := (request.outDir.join entry).withExtension request.format.extension
    if let some parent := output.parent? then Action.change (Disk.createDirectories parent)
    Action.change (Disk.copy (request.root.join entry) output)
    return (name, output)
  return ⟨outputs, request.outDir⟩

end Stowage
