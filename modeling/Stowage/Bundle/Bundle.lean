/-
Bundling: the entry points of a service are compiled, the files that they need at run time are traced,
modules that tracing cannot follow are expanded, and everything goes into one archive.
-/
import Stowage.Compile.Compiler
import Stowage.Trace.Closure
import Stowage.Expansion
import Stowage.Archive.Write
import Stowage.Config
import Stowage.Bundle.PackedManifest

namespace Stowage

/-- What came out of a bundle. -/
structure Report where
  archive : Archive.Summary
  /-- The number of compiled entry points. -/
  compiled : Nat
  /-- The number of traced files. -/
  traced : Nat
  /-- The number of files of expanded modules. -/
  expanded : Nat
  warnings : List String
  deriving Inhabited

namespace Bundle

/-- A question as part of a bundle, with the manifests that are known so far. -/
def ask {α : Type} (ms : Manifests) (q : Query α) : Action (α × Manifests) := do
  let (result, ms) := q.run.run ms
  return (← Action.ofExcept result, ms)

/-- Opens the project of a service, in which modules are resolved as the runtime will do it. -/
def openProject (d : Disk) (serviceDir : Path) (type : SourceType) : Query Project := do
  let root ← Workspace.root d serviceDir
  let searchPaths := [serviceDir / Package.modulesDir, root / Package.modulesDir]
  let resolver : Resolver := ⟨searchPaths, type.conditions, Specifier.isBuiltin⟩
  Project.create d resolver.resolve serviceDir

/-- The limits of the trace of a bundle. -/
def traceLimits (o : BundleSettings) (workDir : Path) : Except Error Trace.Limits := do
  let patterns ← o.ignorePaths.mapM fun p => Workspace.compilePattern (Path.bareText p)
  return ⟨patterns, o.forceInclude ++ o.exclude, [workDir], o.strict⟩

/-- Expands the modules that are to be included with all their files. -/
def expandForced (s : Project) (o : BundleSettings) (d : Disk) (ms : Manifests) :
    Except Error Expansion × Manifests :=
  let settings : ExpansionSettings := ⟨o.optionalModules, o.exclude⟩
  let all := Expand.expandAll s settings d s.start (o.forceInclude.map fun name => (name, []))
  let (result, after) := all.run.run ⟨ms, .empty⟩
  (result.map fun _ => after.expansion, after.manifests)

/-- The file name of an archive: the name of the package, else the one of its directory. -/
def fileName (m : Manifest) (serviceDir : Path) (format : Archive.Format) : String :=
  let name := match m.name with
    | some n => if n.isEmpty then none else some (flatName n)
    | none => none
  (name <|> serviceDir.fileName).getD "bundle" ++ "." ++ format.extension

/-- The path of an extra in the workspace. -/
def extraName (serviceName extra : String) : String :=
  let extra := Path.bareText extra
  if serviceName.isEmpty then extra else serviceName ++ "/" ++ extra

open Archive Contents in
/-- Collects the entries of the archive. Generated files take the place of traced ones, and extras the
place of both. -/
def collect (d : Disk) (serviceName : String) (workDir : Path) (traced : Trace.Result)
    (expansion : Expansion) (extras : List String) : Collect Unit := do
  modify (·.putFiles traced.files)
  addAllNamed d traced.links
  modify (·.putFiles expansion.files)
  addAllNamed d expansion.extras
  replaceTree d serviceName workDir
  addAllNamed d (extras.map (extraName serviceName))

/-- Collecting as part of a bundle. -/
def collectAll (root : Path) (c : Archive.Contents.Collect Unit) : Action Archive.Contents := do
  let (result, a) := c.run.run (Archive.Contents.create (← Action.disk) root)
  a.notes.forM Action.note
  let _ ← Action.ofExcept result
  return a

/-- Packs what was compiled. -/
def package (s : Project) (ms : Manifests) (o : BundleSettings) (compiled : Compiled)
    (output : Path) : Action Report := do
  let limits ← Action.ofExcept (traceLimits o compiled.workDir)
  let entries := compiled.outputs.map Prod.snd
  let d ← Action.disk
  let (traced, ms) ← ask ms (Trace.trace ⟨s, limits, Trace.readReferences⟩ d entries)
  let forced := expandForced s o d ms
  let expansion ← Action.ofExcept forced.1
  let (manifest, _) ← ask forced.2 (Manifests.require d s.start)
  let packed ← Action.ofExcept (manifest.packed compiled.outputs compiled.workDir o.sourceType)
  Action.change (Disk.write (compiled.workDir / manifestName) (.text (Json.pretty packed)))
  let serviceName ← Action.ofExcept (s.relative s.start)
  let a ← collectAll s.root
    (collect (← Action.disk) serviceName compiled.workDir traced expansion o.extras)
  let archive ← a.write (output / fileName manifest s.start o.format) o.format o.level
  return ⟨archive, compiled.outputs.length, traced.files.length, expansion.size,
    traced.warnings.map Trace.Warning.text ++ expansion.warnings⟩

/-- Removes the compiled files, unless they are to be kept. -/
def cleanUp (o : BundleSettings) (workDir : Path) : Action Unit := do
  if !o.keepBuild && (← Action.disk).pathExists workDir then
    Action.attempt (Action.change (Disk.removeTree workDir))

/-- Compiles and packs a service. -/
def build (compiler : Compiler) (s : Project) (ms : Manifests) (o : BundleSettings)
    (workDir output : Path) : Action Report := do
  let compiled ← compiler ⟨o.entries, o.externals, o.sourceType, s.start, workDir⟩
  if compiled.outputs.isEmpty then throw .emptyOutput
  package s ms o compiled output

/-- Compiles and packs a service, and cleans up whatever comes of it. -/
def buildOnce (compiler : Compiler) (s : Project) (ms : Manifests) (o : BundleSettings)
    (workDir output : Path) : Action Report :=
  tryCatch
    (do
      let report ← build compiler s ms o workDir output
      cleanUp o workDir
      return report)
    fun e => do
      cleanUp o workDir
      throw e

/-- Where the archive goes, for settings that a bundle can be made with. -/
def outputDir (o : BundleSettings) : Except Error Path :=
  if o.entries.isEmpty then .error .noEntries
  else match o.output with
    | none => .error .noOutputDir
    | some p => if Archive.maxLevel < o.level then .error (.invalidLevel o.level) else .ok p

/-- Removes what an earlier bundle has left. -/
def clear (workDir : Path) : Action Unit := do
  if (← Action.disk).pathExists workDir then Action.change (Disk.removeTree workDir)

end Bundle

open Stowage.Bundle in
/-- Bundles a service. -/
def bundle (compiler : Compiler) (o : BundleSettings) : Action Report := do
  let output ← Action.ofExcept (outputDir o)
  let serviceDir ← Action.ask (·.canonicalize o.serviceDir)
  let (s, ms) ← ask .empty (openProject (← Action.disk) serviceDir o.sourceType)
  clear (serviceDir.join o.buildDir)
  buildOnce compiler s ms o (serviceDir.join o.buildDir) output

end Stowage
