/-
The paths on a disk that a pattern matches. The pattern is taken apart into components: one without
wildcards is looked up, any other one is compared with the names in a directory.
-/
import Stowage.Disk.Basic

namespace Stowage.Glob

/-- The text that a component stands for, if it has no wildcards. -/
def literal? : List Token → Option (List Char)
  | [] => some []
  | .char c :: ts => (literal? ts).map (c :: ·)
  | _ => none

/-- The component matches any number of directories. -/
def Pattern.isDeep (p : Pattern) : Bool := p.tokens = [.anyDirectories]

namespace Expansion

variable (d : Disk) (o : Options) (onlyDirectories : Bool)

/-- The path as a result, unless it is no directory where only those are wanted. -/
def result (p : Path) : List Path := if onlyDirectories && !d.isDirectory p then [] else [p]

/-- The entries `.` and `..` that a component matches, the parent first. They need a dot in the
pattern. -/
def dots (p : Pattern) : List String :=
  match p.tokens with
  | .char '.' :: _ => ["..", "."].filter fun s => p.accepts o s
  | _ => []

/-- The names in a directory. -/
def namesIn (dir : Path) : List String :=
  match d.find dir with
  | .ok (loc, .directory) => d.names loc
  | _ => []

/-- A component and those after it, several deep ones in a row taken as one. -/
def skipDeep : List Pattern → List Pattern
  | p :: q :: rest => if p.isDeep && q.isDeep then skipDeep (q :: rest) else p :: q :: rest
  | ps => ps

/-- What a step below `dir` adds. `visit` compares a name in the directory with the components, `onward`
goes on with the components after the first one. -/
def inDirectory (visit onward : List Pattern → Path → List Path) (ps : List Pattern) (dir : Path) :
    List Path :=
  match ps with
  | [] => []
  | p :: rest =>
    let add (next : Path) : List Path :=
      if rest.isEmpty then result d onlyDirectories next else onward rest next
    match literal? p.tokens with
    | some cs =>
      let s := String.ofList cs
      let next := dir / s
      let isThere := if s = "." || s = ".." then d.isDirectory dir else d.hasName next
      if isThere then add next else []
    | none =>
      if d.isDirectory dir then
        (dots o p).flatMap (fun s => add (dir / s)) ++
          (namesIn d dir).flatMap fun name => visit ps (dir / name)
      else []

/-- The matches of a path whose name is compared with the first component, once deep components are
dealt with. -/
def byName (onward : List Pattern → Path → List Path) (ps : List Pattern) (path : Path) :
    List Path :=
  match ps, path.fileName with
  | p :: rest, some name =>
    if p.accepts o name then
      if rest.isEmpty then result d onlyDirectories path else onward rest path
    else []
  | _, _ => []

mutual

/-- The matches at and below a path that was found in a directory. -/
def visit : Nat → List Pattern → Path → List Path
  | 0, _, _ => []
  | fuel + 1, ps, path =>
    match skipDeep ps with
    | [] => []
    | p :: rest =>
      if p.isDeep then
        let here := if rest.isEmpty then (if d.isDirectory path then [path] else [])
          else byName d o onlyDirectories (search fuel) rest path
        let deeper := if d.isDirectory path then search fuel (p :: rest) path else []
        here ++ deeper
      else byName d o onlyDirectories (search fuel) (p :: rest) path

/-- The matches below a directory. -/
def search : Nat → List Pattern → Path → List Path
  | 0, _, _ => []
  | fuel + 1, ps, dir => inDirectory d o onlyDirectories (visit fuel) (search fuel) ps dir

end

/-- More steps than any path has that can be walked: between two links no name repeats. -/
def depth (ps : List Pattern) : Nat :=
  2 * ((Disk.maxLinks + 1) * (d.entries.length + 1) + ps.length) + 2

end Expansion

/-- The components of a text after its leading separator; a separator at the end starts none. -/
def componentTexts (text : String) : List String :=
  let pieces := Path.segments (text.toList.drop 1)
  let pieces := if pieces.getLast? = some [] then pieces.dropLast else pieces
  pieces.map String.ofList

/-- The paths that an absolute pattern matches, depth first with the names in order. -/
def expand (d : Disk) (o : Options) (text : String) : Except Fault (List Path) := do
  let _ ← compile text
  let ps ← (componentTexts text).mapM compile
  let onlyDirectories := text.toList.getLast? = some '/'
  return Expansion.search d o onlyDirectories (Expansion.depth d ps) ps ⟨"/"⟩

end Stowage.Glob
