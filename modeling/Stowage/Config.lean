/-
Configuration of a bundle. Every setting is optional in a configuration, configurations are merged
with the later one on top, and what is still unset takes its default.
-/
import Stowage.Error
import Stowage.Json.Printer
import Stowage.Archive.Format
import Stowage.Compile.SourceType
import Stowage.Path.Relative

namespace Stowage

/-- The file name of the configuration in a service directory. -/
def configName : String := "pumice.json"

structure Config where
  /-- Entry points by output name. -/
  entries : Option (List (String × Path))
  output : Option Path
  format : Option Archive.Format
  level : Option Nat
  sourceType : Option SourceType
  externals : Option (List String)
  forceInclude : Option (List String)
  exclude : Option (List String)
  extras : Option (List String)
  optionalModules : Option (List String)
  ignorePaths : Option (List String)
  buildDir : Option Path
  strict : Option Bool
  keepBuild : Option Bool
  deriving DecidableEq

namespace Config

def empty : Config :=
  ⟨none, none, none, none, none, none, none, none, none, none, none, none, none, none⟩

instance : Inhabited Config := ⟨empty⟩

/-! ## Merging -/

variable {α : Type}

/-- The later setting, if there is one. -/
def latest (earlier later : Option α) : Option α := later <|> earlier

/-- The items of both lists, each once, where it is first given. -/
def union (earlier later : List String) : List String :=
  later.foldl (fun acc x => if acc.contains x then acc else acc ++ [x]) earlier

/-- Two optional settings put together by `f` when both are given; a later one is put on top of
nothing by `f` too. -/
def mergeWith (f : List α → List α → List α) :
    Option (List α) → Option (List α) → Option (List α)
  | earlier, none => earlier
  | earlier, some later => some (f (earlier.getD []) later)

/-- The entries of both lists, a name that is given again takes its new path where it stands. -/
def putAll (earlier later : List (String × Path)) : List (String × Path) :=
  later.foldl (fun acc e => Json.put e.1 e.2 acc) earlier

/-- The settings of `c` with those of `later` on top. -/
def merge (c later : Config) : Config where
  entries := mergeWith putAll c.entries later.entries
  output := latest c.output later.output
  format := latest c.format later.format
  level := latest c.level later.level
  sourceType := latest c.sourceType later.sourceType
  externals := mergeWith union c.externals later.externals
  forceInclude := mergeWith union c.forceInclude later.forceInclude
  exclude := mergeWith union c.exclude later.exclude
  extras := mergeWith union c.extras later.extras
  optionalModules := mergeWith union c.optionalModules later.optionalModules
  ignorePaths := mergeWith union c.ignorePaths later.ignorePaths
  buildDir := latest c.buildDir later.buildDir
  strict := latest c.strict later.strict
  keepBuild := latest c.keepBuild later.keepBuild

/-! ## Reading and writing -/

open Json in
/-- The fields in the order of a configuration written as a list. -/
def fields : List (FieldReader Config) :=
  let set {α : Type} (key : String) (reader : Reader α) (update : Config → Option α → Config) :
      FieldReader Config :=
    ⟨key, false, fun c cs => do
      let (x, r) ← asOption reader cs
      return (update c x, r)⟩
  let path : Reader Path := fun cs => do
    let (s, r) ← asString cs
    return (⟨s⟩, r)
  let format := asChoice [("zip", Archive.Format.zip), ("tgz", .tgz)]
  let sourceType := asChoice [("commonjs", SourceType.commonJs), ("module", .esModule)]
  [set "entries" (asMap path) fun c x => { c with entries := x },
   set "output" path fun c x => { c with output := x },
   set "format" format fun c x => { c with format := x },
   set "level" asNatural32 fun c x => { c with level := x },
   set "sourceType" sourceType fun c x => { c with sourceType := x },
   set "externals" (asList asString) fun c x => { c with externals := x },
   set "forceInclude" (asList asString) fun c x => { c with forceInclude := x },
   set "exclude" (asList asString) fun c x => { c with exclude := x },
   set "extras" (asList asString) fun c x => { c with extras := x },
   set "optionalModules" (asList asString) fun c x => { c with optionalModules := x },
   set "ignorePaths" (asList asString) fun c x => { c with ignorePaths := x },
   set "buildDir" path fun c x => { c with buildDir := x },
   set "strict" asBool fun c x => { c with strict := x },
   set "keepBuild" asBool fun c x => { c with keepBuild := x }]

def parse (text : String) : Except Json.Fault Config :=
  Json.parse (Json.record fields empty) text

open Json in
/-- Every setting in order, `null` for one that is not given. -/
def toJson (c : Config) : Json :=
  let strings := ofOption ofStrings
  let path (p : Path) : Json := .string p.text
  .object [
    ("entries", ofOption (fun es => .object (es.map fun e => (e.1, path e.2))) c.entries),
    ("output", ofOption path c.output),
    ("format", ofOption (fun f => .string f.extension) c.format),
    ("level", ofOption (fun n => .number (.natural n)) c.level),
    ("sourceType", ofOption (fun t => .string t.name) c.sourceType),
    ("externals", strings c.externals),
    ("forceInclude", strings c.forceInclude),
    ("exclude", strings c.exclude),
    ("extras", strings c.extras),
    ("optionalModules", strings c.optionalModules),
    ("ignorePaths", strings c.ignorePaths),
    ("buildDir", ofOption path c.buildDir),
    ("strict", ofOption .bool c.strict),
    ("keepBuild", ofOption .bool c.keepBuild)]

end Config

/-! ## Settings -/

/-- The settings of a bundle with nothing left open but the output directory. -/
structure BundleSettings where
  serviceDir : Path
  /-- Entry points by output name, relative to the service directory. -/
  entries : List (String × Path)
  output : Option Path
  format : Archive.Format
  level : Nat
  sourceType : SourceType
  externals : List String
  forceInclude : List String
  exclude : List String
  extras : List String
  optionalModules : List String
  ignorePaths : List String
  buildDir : Path
  strict : Bool
  keepBuild : Bool
  deriving Inhabited

/-- The modules that may be missing unless a configuration says otherwise. -/
def defaultOptionalModules : List String := ["fsevents"]

/-- The directory of compiled output unless a configuration names another. -/
def defaultBuildDir : Path := ⟨".pumice"⟩

/-- The settings for a service, defaults filled in. -/
def Config.toSettings (c : Config) (serviceDir : Path) : BundleSettings where
  serviceDir := serviceDir
  entries := c.entries.getD []
  output := c.output
  format := c.format.getD .zip
  level := c.level.getD Archive.maxLevel
  sourceType := c.sourceType.getD .commonJs
  externals := c.externals.getD []
  forceInclude := c.forceInclude.getD []
  exclude := c.exclude.getD []
  extras := c.extras.getD []
  optionalModules := c.optionalModules.getD defaultOptionalModules
  ignorePaths := c.ignorePaths.getD []
  buildDir := c.buildDir.getD defaultBuildDir
  strict := c.strict.getD false
  keepBuild := c.keepBuild.getD false

/-! ## Entry points -/

/-- The text before and after the first `=`. -/
def cutEquals : List Char → Option (List Char × List Char)
  | [] => none
  | '=' :: r => some ([], r)
  | c :: r => (cutEquals r).map fun (a, b) => (c :: a, b)

/-- An entry point given as `name=path` or as a path, whose file stem is then its name. -/
def entryOfText (text : String) : String × Path :=
  let plain : String × Path :=
    let path : Path := ⟨String.ofList (text.toList.dropWhile (· = '='))⟩
    (path.fileStem.getD text, path)
  match cutEquals text.toList with
  | some (name, path) =>
    if name.isEmpty then plain else (String.ofList name, ⟨String.ofList path⟩)
  | none => plain

end Stowage
