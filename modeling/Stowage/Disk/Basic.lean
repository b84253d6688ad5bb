/-
A file system as a value: what is stored at which location, and where a path leads. Symbolic links
are followed as the path is walked, up to a fixed number of them.
-/
import Stowage.Error

namespace Stowage

/-! ## Locations -/

/-- The names that lead from the top directory down to a place. -/
abbrev Location := List String

namespace Path

/-- The pieces of a spelled path that lead somewhere, `.` and `..` among them. A separator at the end
asks for a directory, as `.` does. -/
def steps (p : Path) : List String :=
  let pieces := ((segments p.text.toList).filter (· ≠ [])).map String.ofList
  if p.text.toList.getLast? = some '/' then pieces ++ ["."] else pieces

/-- The absolute path of a location. -/
def ofLocation (loc : Location) : Path := ⟨"/" ++ "/".intercalate loc⟩

end Path

/-! ## What is stored -/

/-- What a file holds: text where its bytes are text, and bytes otherwise. -/
inductive Content where
  | text (s : String)
  | binary (bytes : ByteArray)
  deriving Inhabited

instance : DecidableEq Content
  | .text s, .text t =>
    if h : s = t then isTrue (congrArg Content.text h) else isFalse fun e => h (Content.text.inj e)
  | .binary a, .binary b => match ByteArray.instDecidableEq a b with
    | isTrue h => isTrue (congrArg Content.binary h)
    | isFalse h => isFalse fun e => h (Content.binary.inj e)
  | .text _, .binary _ => isFalse fun e => nomatch e
  | .binary _, .text _ => isFalse fun e => nomatch e

namespace Content

def ofBytes (bytes : ByteArray) : Content :=
  match String.fromUTF8? bytes with
  | some s => .text s
  | none => .binary bytes

def bytes : Content → ByteArray
  | .text s => s.toUTF8
  | .binary b => b

end Content

inductive Entry where
  | file (content : Content)
  | link (target : String)
  | directory
  deriving DecidableEq, Inhabited

/-- What kind of thing a path names, links not followed. -/
inductive EntryType where
  | file
  | link
  | directory
  deriving DecidableEq, Inhabited

def Entry.type : Entry → EntryType
  | .file _ => .file
  | .link _ => .link
  | .directory => .directory

structure Disk where
  /-- What is stored below the top directory, in the order of the locations. -/
  entries : List (Location × Entry)
  /-- The directory that relative paths start from. -/
  here : Location
  deriving DecidableEq, Inhabited

namespace Disk

/-- What is stored at a location. -/
def entry? (d : Disk) (loc : Location) : Option Entry :=
  if loc = [] then some .directory else d.entries.lookup loc

/-- Stores an entry among entries in order. -/
def insert (loc : Location) (e : Entry) : List (Location × Entry) → List (Location × Entry)
  | [] => [(loc, e)]
  | (l, x) :: rest =>
    if l = loc then (loc, e) :: rest
    else if loc < l then (loc, e) :: (l, x) :: rest
    else (l, x) :: insert loc e rest

def put (d : Disk) (loc : Location) (e : Entry) : Disk :=
  { d with entries := insert loc e d.entries }

/-- Removes what is stored at a location and below it. -/
def erase (d : Disk) (loc : Location) : Disk :=
  { d with entries := d.entries.filter fun e => !loc.isPrefixOf e.1 }

/-- What is stored below a location, parents before what they hold and names in order. -/
def below (d : Disk) (loc : Location) : List (Location × Entry) :=
  d.entries.filter fun e => loc.isPrefixOf e.1 && e.1 ≠ loc

/-- The names in a directory, in order. -/
def names (d : Disk) (loc : Location) : List String :=
  (d.below loc).filterMap fun e =>
    match e.1.drop loc.length with
    | [name] => some name
    | _ => none

/-- The directories that what is stored lies in, each as often as something lies in it, and what is
stored itself. -/
def directories (d : Disk) : List Path := d.entries.flatMap fun e => (Path.ofLocation e.1).ancestors

/-! ## Walking a path -/

/-- Where a path leads. -/
inductive Place where
  | found (loc : Location) (entry : Entry)
  /-- Nothing is stored here, but the directory above is there. -/
  | free (loc : Location)
  deriving DecidableEq, Inhabited

/-- The number of links that are followed for one path. -/
def maxLinks : Nat := 40

/-- The number of bytes that a name may have. -/
def maxName : Nat := 255

/-- How far some steps lead before a link has to be followed. -/
inductive Stop where
  | at (place : Place)
  /-- At a link in the directory `loc`, with more steps after it. -/
  | link (loc : Location) (target : String) (rest : List String)
  deriving DecidableEq, Inhabited

/-- Walks from a directory up to the first link. A link at the end is a stop only if `followLast` is
set. -/
def stride (d : Disk) (followLast : Bool) (loc : Location) : List String → Except FileFault Stop
  | [] => .ok (.at (.found loc .directory))
  | "." :: rest => stride d followLast loc rest
  | ".." :: rest => stride d followLast loc.dropLast rest
  | name :: rest =>
    let inner := loc ++ [name]
    if maxName < name.utf8ByteSize then .error .nameTooLong
    else match d.entry? inner with
      | none => if rest = [] then .ok (.at (.free inner)) else .error .notFound
      | some .directory => stride d followLast inner rest
      | some (.file c) =>
        if rest = [] then .ok (.at (.found inner (.file c))) else .error .notADirectory
      | some (.link target) =>
        if rest = [] ∧ followLast = false then .ok (.at (.found inner (.link target)))
        else .ok (.link loc target rest)

/-- The directory that a link in `loc` is read from. -/
def linkBase (loc : Location) (target : String) : Location :=
  if (⟨target⟩ : Path).isAbsolute then [] else loc

/-- Walks from a directory through at most `links` links. -/
def walk (d : Disk) (followLast : Bool) (links : Nat) (loc : Location) (steps : List String) :
    Except FileFault Place :=
  match d.stride followLast loc steps with
  | .error e => .error e
  | .ok (.at place) => .ok place
  | .ok (.link loc target rest) =>
    match links with
    | 0 => .error .loop
    | n + 1 => walk d followLast n (linkBase loc target) ((⟨target⟩ : Path).steps ++ rest)

/-- Where a path leads, with a link at its end followed or not. -/
def locate (d : Disk) (followLast : Bool) (p : Path) : Except FileFault Place :=
  if p.text.toList.contains '\x00' then .error .invalidInput
  else if p.text.isEmpty then .error .notFound
  else d.walk followLast maxLinks (if p.isAbsolute then [] else d.here) p.steps

/-- What a path leads to, links followed. -/
def find (d : Disk) (p : Path) : Except FileFault (Location × Entry) := do
  match ← d.locate true p with
  | .found loc e => return (loc, e)
  | .free _ => throw .notFound

/-! ## Questions -/

/-- What kind of thing a path names itself, a link at its end not followed. -/
def typeOf (d : Disk) (p : Path) : Except FileFault EntryType := do
  match ← d.locate false p with
  | .found _ e => return e.type
  | .free _ => throw .notFound

/-- The path names something, be it a link that leads nowhere. -/
def hasName (d : Disk) (p : Path) : Bool := (d.typeOf p).toOption.isSome

def isLink (d : Disk) (p : Path) : Bool := (d.typeOf p).toOption = some .link

/-- The path leads to something. -/
def pathExists (d : Disk) (p : Path) : Bool := (d.find p).toOption.isSome

def isFile (d : Disk) (p : Path) : Bool := (d.find p).toOption.any (·.2.type = .file)

def isDirectory (d : Disk) (p : Path) : Bool := (d.find p).toOption.any (·.2.type = .directory)

/-- The absolute path without links that leads to the same place. -/
def canonicalize (d : Disk) (p : Path) : Except FileFault Path := do
  return .ofLocation (← d.find p).1

/-- What a file holds. -/
def read (d : Disk) (p : Path) : Except FileFault Content := do
  match (← d.find p).2 with
  | .file c => return c
  | _ => throw .isADirectory

/-- The text that a file holds. -/
def readText (d : Disk) (p : Path) : Except FileFault String := do
  match ← d.read p with
  | .text s => return s
  | .binary _ => throw .invalidData

/-- The path itself and everything below it, parents first. Only a link that is the path itself is
followed. -/
def tree (d : Disk) (p : Path) : Except FileFault (List (Path × EntryType)) := do
  let type ← d.typeOf p
  let (loc, e) ← d.find p
  if e.type ≠ .directory then return [(p, type)]
  let inside := (d.below loc).map fun (l, e) =>
    ((l.drop loc.length).foldl (fun (q : Path) name => q / name) p, e.type)
  return (p, type) :: inside

end Disk
end Stowage
