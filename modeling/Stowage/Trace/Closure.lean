/-
Tracing: the files that are needed at run time by some entry files. Every file that is reached is
visited once, in the order in which it is reached; a visit records the manifests that the runtime
reads for the file and follows its references.
-/
import Stowage.Project
import Stowage.Names
import Stowage.Script.References

namespace Stowage.Trace

structure Limits where
  /-- Patterns of names in the workspace that are not followed. -/
  ignorePaths : List Glob.Pattern
  /-- Packages that are not followed. -/
  ignorePackages : List String
  /-- Directories of generated files, which are followed but no part of the result. -/
  generatedDirs : List Path
  /-- Whatever cannot be followed is an error. -/
  strict : Bool
  deriving Inhabited

/-- The references of a file, or why they cannot be told. -/
abbrev Analyze := Disk → Path → Except String Script.References

/-- The message for a text that is no script. -/
def parseFailure : String := "<parse error>"

/-- Reads the references of a script. -/
def readReferences : Analyze := fun d file =>
  match d.readText file with
  | .error fault => .error fault.message
  | .ok text => match Script.References.ofText text with
    | none => .error parseFailure
    | some refs => .ok refs

/-- What a trace depends on besides the disk. -/
structure Setting where
  project : Project
  limits : Limits
  analyze : Analyze

/-- How far a trace has come. -/
structure Progress where
  reasons : Reasons
  warnings : List Warning
  /-- The files that were reached. -/
  seen : List Path
  /-- Those of them that are still to be visited. -/
  queue : List Path
  deriving Inhabited

namespace Progress

def start : Progress := ⟨[], [], [], []⟩

/-- Records why a name in the workspace is needed. -/
def add (p : Progress) (name : String) (kind : ReasonKind) (parent : Option String) : Progress :=
  { p with reasons := p.reasons.add name kind parent }

def warn (p : Progress) (w : Warning) : Progress := { p with warnings := p.warnings ++ [w] }

/-- Reaches a file, which is visited unless it was reached before. -/
def reach (p : Progress) (file : Path) : Progress :=
  if p.seen.any (·.same file) then p
  else { p with seen := p.seen ++ [file], queue := p.queue ++ [file] }

end Progress

/-- A file is read for references: it has an extension of scripts or none at all. -/
def isScript (file : Path) : Bool :=
  match file.extension with
  | some e => e = "js" || e = "mjs" || e = "cjs" || e = "jsx"
  | none => true

variable (s : Setting) (d : Disk)

/-! ## Manifests and links -/

/-- Adds the manifest of a directory for `parent`. -/
def addManifest (dir : Path) (parent : String) (p : Progress) : Query Progress := do
  let name ← Query.ofExcept (s.project.relative (dir / manifestName))
  return p.add name .manifest (some parent)

/-- Adds the manifest of a directory if there is one. -/
def addFound (dir : Path) (parent : String) (m : Option Manifest) (p : Progress) : Query Progress :=
  if m.isSome then addManifest s dir parent p else return p

/-- The manifests above a file are read up to a directory whose manifest has a name, which is a package
root, up to the workspace root, or up to the place of an installed package. -/
def isTop (dir : Path) (m : Option Manifest) : Bool :=
  (m.bind (·.name)).isSome || dir.same s.project.root || Package.isInstalled dir

/-- Adds the manifests in some directories, the nearest first, up to the root of the package that they
belong to. -/
def addManifests (parent : String) : List Path → Progress → Query Progress
  | [], p => return p
  | dir :: rest, p =>
    if dir.startsWith s.project.root then do
      let m ← Manifests.load d dir
      let p ← addFound s dir parent m p
      if isTop s dir m then return p else addManifests parent rest p
    else return p

/-- The directory that a specifier in a file names, if it is more than the name of a package. -/
def namedDirectory (file : Path) (specifier : String) : Option Path :=
  let base := file.parent?.getD file
  if Specifier.isLocal specifier then some (base / specifier)
  else match Specifier.split specifier with
    | (name, some sub) => (Package.locate d name base).map (· / sub)
    | _ => none

/-- Adds the manifest of a directory that a specifier names. -/
def addNamedManifest (file : Path) (specifier parent : String) (p : Progress) : Query Progress :=
  match namedDirectory d file specifier with
  | none => return p
  | some dir =>
    if d.isDirectory dir then do
      let dir ← Query.ofDisk (d.canonicalize dir)
      let m ← Manifests.load d dir
      addFound s dir parent m p
    else return p

/-- Adds the manifest of the package that a specifier names. -/
def addRoot (specifier : String) (target : Path) (parent : String) (p : Progress) :
    Query Progress := do
  match ← Package.rootDirectory d (Specifier.split specifier).1 target with
  | some dir => addManifest s dir parent p
  | none => return p

/-- Adds the place where the package that a specifier names is installed if that is a link. -/
def addInstalled (file : Path) (specifier parent : String) (p : Progress) : Query Progress :=
  match Package.locate d (Specifier.split specifier).1 (file.parent?.getD file) with
  | some place =>
    if d.isLink place then do
      let link ← Query.ofExcept (s.project.relative place)
      return p.add link .link (some parent)
    else return p
  | none => return p

/-- Adds what the runtime needs besides the file that a specifier leads to. -/
def addAround (file : Path) (specifier : String) (target : Path) (parent : String) (p : Progress) :
    Query Progress := do
  let p ← addNamedManifest s d file specifier parent p
  if Specifier.isDependency specifier then do
    let p ← addRoot s d specifier target parent p
    addInstalled s d file specifier parent p
  else return p

/-! ## References -/

/-- One text stands somewhere in another one. -/
def occurs (part : List Char) : List Char → Bool
  | [] => part.isEmpty
  | c :: text => part.isPrefixOf (c :: text) || occurs part text

/-- A reference to the file called `name` is not followed. -/
def isLeftOut (specifier name : String) : Bool :=
  s.limits.ignorePaths.any (·.accepts Glob.anywhere name) ||
    s.limits.ignorePackages.any fun package =>
      (Specifier.isDependency specifier && package = (Specifier.split specifier).1) ||
        name.startsWith ("node_modules/" ++ package ++ "/") ||
        occurs ("/node_modules/" ++ package ++ "/").toList name.toList

/-- Goes on with what a specifier in a file stands for. -/
def followTo (file : Path) (parent : String) (p : Progress) (specifier : String)
    (kind : ReferenceKind) : Except Error Resolution → Query Progress
  | .ok (.builtin _) => return p
  | .error e =>
    if e.isMissing then
      return p.warn ⟨.unresolved, parent, some specifier, "could not be resolved"⟩
    else throw e
  | .ok (.file target) => do
    let name ← Query.ofExcept (s.project.relative target)
    if isLeftOut s specifier name then return p
    else do
      let p ← addAround s d file specifier target parent p
      return (p.add name (.reference kind) (some parent)).reach target

/-- Follows one reference of a file. -/
def follow (file : Path) (parent : String) (p : Progress) (reference : String × ReferenceKind) :
    Query Progress := do
  followTo s d file parent p reference.1 reference.2
    (← Query.outcome (s.project.resolve d file reference.1))

/-- The warning for a reference whose specifier is computed. -/
def computedWarning (file : String) (computed : ReferenceKind × Nat) : Warning :=
  ⟨.dynamic, file, none, s!"computed {computed.1.title} on line {computed.2} cannot be traced"⟩

/-- Follows the references of a file that is a script. -/
def followAll (file : Path) (name : String) (p : Progress) : Query Progress :=
  if isScript file then
    match s.analyze d file with
    | .error message => return p.warn ⟨.parse, name, none, message⟩
    | .ok refs =>
      let p := refs.computed.foldl (fun p c => p.warn (computedWarning name c)) p
      refs.static.foldlM (follow s d file name) p
  else return p

/-- Visits a file. -/
def visit (file : Path) (p : Progress) : Query Progress := do
  let name ← Query.ofExcept (s.project.relative file)
  followAll s d file name (← addManifests s d name file.ancestors.tail p)

/-- Visits files as long as there are any, at most `visits` of them. -/
def visitAll : Nat → Progress → Query Progress
  | 0, p => return p
  | visits + 1, p =>
    match p.queue with
    | [] => return p
    | file :: rest => do visitAll visits (← visit s d file { p with queue := rest })

/-- Reaches an entry file. -/
def enter (p : Progress) (entry : Path) : Query Progress := do
  let file ← Query.ofDisk (d.canonicalize entry)
  let name ← Query.ofExcept (s.project.relative file)
  return (p.add name .entry none).reach file

/-! ## The result -/

/-- The name is one of a generated file. -/
def isGenerated (generated : List Path) (name : String) : Bool :=
  generated.any fun dir => (s.project.root / name).startsWith dir

/-- The names that are files of the result: neither entries nor links nor generated. -/
def fileNames (generated : List Path) (reasons : Reasons) : List String :=
  (reasons.filter fun (name, r) =>
    r.kind ≠ .entry && r.kind ≠ .link && !isGenerated s generated name).map Prod.fst

def linkNames (reasons : Reasons) : List String :=
  (reasons.filter fun r => r.2.kind = .link).map Prod.fst

/-- The directories of generated files without links, as far as they are there. -/
def generatedDirs : List Path :=
  s.limits.generatedDirs.map fun dir => (d.canonicalize dir).toOption.getD dir

/-- The result of a trace that has come to its end; files that are left over are an error. -/
def conclude (p : Progress) : Except Error Result :=
  if !p.queue.isEmpty then .error (.file .other)
  else if s.limits.strict && !p.warnings.isEmpty then
    .error (.traceIncomplete (p.warnings.map Warning.text))
  else .ok ⟨Names.ofList (fileNames s (generatedDirs s d) p.reasons),
    Names.ofList (linkNames p.reasons), p.reasons, p.warnings⟩

/-- Reaches what some entry files need, with at most `visits` visits. -/
def explore (visits : Nat) (entries : List Path) : Query Progress := do
  visitAll s d visits (← entries.foldlM (enter s d) Progress.start)

/-- Traces the files that some entry files need, with at most `visits` visits. -/
def traceWithin (visits : Nat) (entries : List Path) : Query Result := do
  Query.ofExcept (conclude s d (← explore s d visits entries))

/-- Traces the files that some entry files need. What is visited is an entry file or stored on the disk,
which bounds the number of visits. -/
def trace (entries : List Path) : Query Result :=
  traceWithin s d (entries.length + d.entries.length) entries

end Stowage.Trace
