/-
Resolution of specifiers: modules of the runtime, the exports of packages, the modules directories of
the importing file and extra search paths.
-/
import Stowage.Resolution.Lookup
import Stowage.Package.Exports
import Stowage.Package.Place

namespace Stowage

/-- A way to resolve a specifier from a file or a directory. -/
abbrev Resolve := Disk → Path → String → Query Resolution

structure Resolver where
  /-- Modules directories that are searched last. -/
  searchPaths : List Path
  /-- The conditions under which exports of packages are read. -/
  conditions : List String
  isBuiltin : String → Bool

namespace Resolver

/-- The resolver for modules that are loaded by `require`. -/
def standard : Resolver := ⟨[], ["node", "require"], Specifier.isBuiltin⟩

/-- The directory of the package `name` for `base`. -/
def packageDir (r : Resolver) (d : Disk) (name : String) (base : Path) : Option Path :=
  ((Package.modulesDirs base ++ r.searchPaths).map (· / name)).find? d.isDirectory

/-- The key of the exports of a package for a path below it. -/
def exportKey : Option String → String
  | some sub => "./" ++ sub
  | none => "."

/-- What the exports of a package give for a path below it. -/
def exported (r : Resolver) (d : Disk) (dir : Path) (sub : Option String) :
    Query (Option Resolution) := do
  match (← Manifests.load d dir).bind (·.exported) with
  | none => return none
  | some exports =>
    match Exports.resolve exports (exportKey sub) r.conditions with
    | none => return none
    | some target =>
      let target := if Specifier.isLocal target then target else "./" ++ target
      return Lookup.find d dir target

/-- Resolves the specifier of a package. -/
def package (r : Resolver) (d : Disk) (base : Path) (specifier : String) :
    Query (Option Resolution) := do
  let (name, sub) := Specifier.split specifier
  let fromExports ← match r.packageDir d name base with
    | some dir => r.exported d dir sub
    | none => pure none
  let nearby := Lookup.find d base specifier
  let elsewhere := (r.searchPaths.filter fun dir => d.isDirectory (dir / name)).findSome? fun dir =>
    Lookup.find d dir ("./" ++ specifier)
  return fromExports <|> nearby <|> elsewhere

/-- Resolves a specifier from a directory. -/
def fromDirectory (r : Resolver) : Resolve := fun d base specifier => do
  if r.isBuiltin specifier then return .builtin specifier
  let found ← if Specifier.isLocal specifier then pure (Lookup.find d base specifier)
    else r.package d base specifier
  match found with
  | some resolution => return resolution
  | none => throw (.moduleNotFound specifier base)

/-- Resolves a specifier from a file or a directory. -/
def resolve (r : Resolver) : Resolve := fun d base specifier =>
  r.fromDirectory d (if d.isDirectory base then base else base.parent?.getD base) specifier

end Resolver
end Stowage
