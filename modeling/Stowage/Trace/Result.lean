/-
The result of a trace: every path that was reached with the reason for it, and what could not be
followed.
-/

namespace Stowage.Trace

/-- How one module loads another. -/
inductive ReferenceKind where
  | staticImport
  | require
  | resolve
  | dynamicImport
  deriving DecidableEq, Inhabited

/-- How a path was first reached. -/
inductive ReasonKind where
  | entry
  | reference (kind : ReferenceKind)
  /-- The manifest of a package or directory on the way. -/
  | manifest
  /-- The installed location of a linked package. -/
  | link
  deriving DecidableEq, Inhabited

namespace ReferenceKind

def name : ReferenceKind → String
  | .staticImport => "import"
  | .require => "require"
  | .resolve => "resolve"
  | .dynamicImport => "dynamicImport"

def title : ReferenceKind → String
  | .staticImport => "Import"
  | .require => "Require"
  | .resolve => "Resolve"
  | .dynamicImport => "DynamicImport"

end ReferenceKind

namespace ReasonKind

/-- The name of a kind in data. -/
def name : ReasonKind → String
  | .entry => "entry"
  | .reference k => k.name
  | .manifest => "manifest"
  | .link => "link"

/-- The name of a kind in text. -/
def title : ReasonKind → String
  | .entry => "Entry"
  | .reference k => k.title
  | .manifest => "Manifest"
  | .link => "Link"

def all : List ReasonKind :=
  [.entry, .reference .staticImport, .reference .require, .reference .resolve,
    .reference .dynamicImport, .manifest, .link]

def ofString? (s : String) : Option ReasonKind := all.find? (·.name = s)

end ReasonKind

/-- How a path was first reached, and the files that refer to it. -/
structure Reason where
  kind : ReasonKind
  parents : List String
  deriving DecidableEq, Inhabited

/-- The reasons by path, in the order in which the paths were reached. -/
abbrev Reasons := List (String × Reason)

namespace Reasons

/-- Records that `path` is reached from `parent`. The kind is the one of the first time. -/
def add (path : String) (kind : ReasonKind) (parent : Option String) : Reasons → Reasons
  | [] => [(path, ⟨kind, parent.toList⟩)]
  | (p, r) :: rest =>
    if p = path then
      (p, ⟨r.kind, r.parents ++ parent.toList.filter fun q => !r.parents.contains q⟩) :: rest
    else (p, r) :: add path kind parent rest

/-- The paths that name `path` as a parent, in order. -/
def children (rs : Reasons) (path : String) : List String :=
  (rs.filter fun r => r.2.parents.contains path).map Prod.fst

end Reasons

/-- What could not be followed. -/
inductive WarningKind where
  | unresolved
  | dynamic
  | parse
  deriving DecidableEq, Inhabited

def WarningKind.name : WarningKind → String
  | .unresolved => "unresolved"
  | .dynamic => "dynamic"
  | .parse => "parse"

structure Warning where
  kind : WarningKind
  file : String
  specifier : Option String
  message : String
  deriving DecidableEq, Inhabited

/-- The wording of a warning. -/
def Warning.text (w : Warning) : String :=
  match w.specifier with
  | some s => s!"{w.file}: '{s}' {w.message}"
  | none => s!"{w.file}: {w.message}"

structure Result where
  /-- The files needed at run time other than entries and generated files, sorted. -/
  files : List String
  /-- The locations of linked packages, sorted. -/
  links : List String
  reasons : Reasons
  warnings : List Warning
  deriving DecidableEq, Inhabited

end Stowage.Trace
