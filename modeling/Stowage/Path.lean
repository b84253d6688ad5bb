/-
Paths. A path keeps the spelling it was given and is compared by its components: repeated
separators and inner `.` components count for nothing, `..` is kept as it stands.
-/

namespace Stowage

/-- A path as it was spelled. -/
structure Path where
  text : String
  deriving DecidableEq, Inhabited, BEq

namespace Path

/-- One step of a path. -/
inductive Component where
  /-- The leading separator of an absolute path. -/
  | root
  /-- A leading `.` of a relative path. -/
  | here
  /-- A `..` component. -/
  | up
  /-- An ordinary name. -/
  | name (s : String)
  deriving DecidableEq, Inhabited

/-- The spelling of a component on its own. -/
def Component.text : Component → String
  | .root => "/"
  | .here => "."
  | .up => ".."
  | .name s => s

/-! ## Components -/

/-- The pieces of a text between its separators, empty pieces included. -/
def segments : List Char → List (List Char)
  | [] => [[]]
  | c :: r =>
    if c = '/' then [] :: segments r
    else match segments r with
      | [] => [[c]]
      | s :: ss => (c :: s) :: ss

/-- The component a piece stands for past the start of a path. -/
def Component.ofSegment : List Char → Option Component
  | [] => none
  | ['.'] => none
  | ['.', '.'] => some .up
  | s => some (.name (String.ofList s))

/-- The components of a spelled path. -/
def componentsOf (cs : List Char) : List Component :=
  match cs with
  | '/' :: r => .root :: (segments r).filterMap Component.ofSegment
  | _ => match segments cs with
    | ['.'] :: r => .here :: r.filterMap Component.ofSegment
    | ss => ss.filterMap Component.ofSegment

def components (p : Path) : List Component := componentsOf p.text.toList

/-- Two spellings of the same path. -/
def same (p q : Path) : Bool := p.components == q.components

def isAbsolute (p : Path) : Bool := p.text.toList.head? == some '/'

/-- Every component of `q` stands at the start of `p`. -/
def startsWith (p q : Path) : Bool := q.components.isPrefixOf p.components

/-! ## Joining -/

/-- `q` seen from the directory `p`; an absolute `q` stands on its own. -/
def join (p q : Path) : Path :=
  if q.isAbsolute then q
  else if p.text.isEmpty then q
  else if p.text.toList.getLast? == some '/' then ⟨p.text ++ q.text⟩
  else ⟨p.text ++ "/" ++ q.text⟩

instance : HDiv Path String Path := ⟨fun p s => p.join ⟨s⟩⟩

/-! ## Parents and file names -/

/-- A reversed spelling without its trailing separators and `.` components. -/
def dropTail : List Char → List Char
  | [] => []
  | '/' :: r => if r = [] then ['/'] else dropTail r
  | '.' :: '/' :: r => if r = [] then ['/'] else dropTail r
  | r => r

/-- The reversed spelling up to the last component. -/
def stem (p : Path) : List Char := dropTail p.text.toList.reverse

/-- The path without its last component; the top directory and the empty path have none. -/
def parent? (p : Path) : Option Path :=
  match p.stem with
  | [] => none
  | ['/'] => none
  | r => some ⟨String.ofList (dropTail (r.dropWhile (· ≠ '/'))).reverse⟩

/-- The last component, when it is an ordinary name. -/
def fileName (p : Path) : Option String :=
  match p.components.getLast? with
  | some (.name s) => some s
  | _ => none

/-- A file name cut at its last dot; a name that only starts with its dot is not cut. -/
def splitExtension (name : String) : String × Option String :=
  let r := name.toList.reverse
  match r.dropWhile (· ≠ '.') with
  | [] => (name, none)
  | [_] => (name, none)
  | _ :: before =>
    (String.ofList before.reverse, some (String.ofList (r.takeWhile (· ≠ '.')).reverse))

def fileStem (p : Path) : Option String := p.fileName.map fun n => (splitExtension n).1

def extension (p : Path) : Option String := p.fileName.bind fun n => (splitExtension n).2

/-- The path with another extension, or with none when `ext` is empty. -/
def withExtension (p : Path) (ext : String) : Path :=
  match p.fileStem with
  | none => p
  | some s =>
    let base := String.ofList (p.stem.dropWhile (· ≠ '/')).reverse
    if ext.isEmpty then ⟨base ++ s⟩ else ⟨base ++ s ++ "." ++ ext⟩

/-- The path with `suffix` appended to its spelling after a dot. -/
def appendExtension (p : Path) (suffix : String) : Path := ⟨p.text ++ "." ++ suffix⟩

/-- The path with its last component replaced. -/
def withFileName (p : Path) (name : String) : Path :=
  let base := if p.fileName.isSome then p.parent?.getD p else p
  base / name

theorem length_dropTail_le (r : List Char) : (dropTail r).length ≤ r.length := by
  fun_induction dropTail r with
  | case1 => simp
  | case2 => simp
  | case3 r h ih => simp; omega
  | case4 => simp
  | case5 r h ih => simp; omega
  | case6 => simp

theorem dropTail_head {r s : List Char} {c : Char} (h : dropTail r = c :: s) (hs : s ≠ []) :
    c ≠ '/' := by
  fun_induction dropTail r <;> simp_all

theorem length_parent?_lt {p q : Path} (h : p.parent? = some q) :
    q.text.toList.length < p.text.toList.length := by
  have hs : p.stem.length ≤ p.text.toList.length := by
    simpa [stem] using length_dropTail_le p.text.toList.reverse
  unfold parent? at h
  split at h
  · cases h
  · cases h
  · rename_i h1 h2
    cases h
    simp only [String.toList_ofList, List.length_reverse]
    refine Nat.lt_of_le_of_lt (length_dropTail_le _) (Nat.lt_of_lt_of_le ?_ hs)
    cases hr : p.stem with
    | nil => exact absurd hr h1
    | cons c r =>
      have hc : c ≠ '/' := by
        by_cases hn : r = []
        · rintro rfl; exact h2 (by rw [hr, hn])
        · exact dropTail_head hr hn
      simp only [List.dropWhile_cons, hc, ne_eq, not_false_eq_true, decide_true, if_true,
        List.length_cons]
      exact Nat.lt_succ_of_le (List.dropWhile_sublist _).length_le

/-- The path itself, then its parents up to the last one. -/
def ancestors (p : Path) : List Path :=
  match _h : p.parent? with
  | none => [p]
  | some q => p :: ancestors q
termination_by p.text.toList.length
decreasing_by exact length_parent?_lt _h

end Path
end Stowage
