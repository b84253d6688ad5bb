/-
Typed scripts without their types. Declarations of types go, and with them the imports of names that no
value uses, and exports of types; an import of a module as such stays. An enumeration becomes an
object that maps the names of its members to their values, and numbers back to names, and a namespace
one that holds its exports.
-/
import Stowage.Script.Bindings

namespace Stowage.Compile.Erase

open Script

/-! ## Names in use -/

/-- The names that a node by itself uses or declares. -/
def ownNames : Kind → List String
  | .name n => [n]
  | .exportNames names none => names.map Prod.fst
  | _ => []

mutual

def names : Node → List String
  | .mk kind _ parts => ownNames kind ++ namesOf parts

def namesOf : List Node → List String
  | [] => []
  | n :: ns => names n ++ namesOf ns

end

/-- The import without the names that are not in use; nothing if none of its names is. -/
def keepImport (used : List String) (item : Node) : Option Node :=
  match item with
  | .mk (.importFrom [] source) l _ => some (.mk (.importFrom [] source) l [])
  | .mk (.importFrom ns source) l _ =>
    let kept := ns.filter fun n => used.contains n.localName
    if kept.isEmpty then none else some (.mk (.importFrom kept source) l [])
  | _ => some item

/-! ## Enumerations -/

mutual

/-- The node with the members of an enumeration in place of their bare names. -/
def qualify (enumName : String) (members : List String) : Node → Node
  | .mk kind l parts =>
    match kind with
    | .name n =>
      if members.contains n then .mk (.member n false) l [.mk (.name enumName) l []]
      else .mk kind l []
    | _ => .mk kind l (qualifyAll enumName members parts)

def qualifyAll (enumName : String) (members : List String) : List Node → List Node
  | [] => []
  | n :: ns => qualify enumName members n :: qualifyAll enumName members ns

end

/-- The name of a member from its key. -/
def memberName : Kind → String
  | .key k => k
  | .string s => s
  | _ => ""

/-- The value of the member after one with a name and a value. -/
def nextValue (l : Nat) (own : Node) (value : Node) : Node :=
  let plusOne := .mk (.binary "+") l [own, .mk (.number "1") l []]
  match value.kind with
  | .number s => match s.toNat? with
    | some n => .mk (.number (toString (n + 1))) l []
    | none => plusOne
  | _ => plusOne

/-- The statement that gives a member its value. -/
def memberStatement (l : Nat) (own label value : Node) : Node :=
  let set := .mk (.assign "=") l [own, value]
  match value.kind with
  | .string _ => .mk .expression l [set]
  | _ => match own with
    | .mk _ _ (object :: _) =>
      .mk .expression l [.mk (.assign "=") l [.mk (.index false) l [object, set], label]]
    | _ => .mk .expression l [set]

/-- The statements for the members of an enumeration. `next` is the value of a member that is given
none, `seen` are the members so far. -/
def memberStatements (enumName : String) : List String → Node → List Node → List Node
  | _, _, [] => []
  | seen, next, .mk _ l parts :: rest =>
    let name := (parts.head?.map fun k => memberName k.kind).getD ""
    let label := .mk (.string name) l []
    let own := .mk (.index false) l [.mk (.name enumName) l [], label]
    let value := match parts with
      | [_, v] => qualify enumName seen v
      | _ => next
    memberStatement l own label value ::
      memberStatements enumName (seen ++ [name]) (nextValue l own value) rest

/-- The call that fills an object. -/
def fillCall (name : String) (l : Nat) (statements : List Node) : Node :=
  let object : Node := .mk (.name name) l []
  let fill : Node := .mk .parenthesized l
    [.mk (.function none false false) l [object, .mk .block l statements]]
  .mk .expression l [.mk (.call false) l [fill, object]]

/-- The variable that holds an object to be filled. -/
def objectVariable (name : String) (l : Nat) : Node :=
  .mk (.declaration "var") l [.mk .declarator l [.mk (.name name) l [], .mk .object l []]]

/-! ## Namespaces -/

/-- The statements for the items of a namespace: what it exports is put into its object. -/
def namespaceStatements (name : String) (items : List Node) : List Node :=
  items.flatMap fun item =>
    match item with
    | .mk .exportDeclaration l [d] =>
      d :: (declaredNames d).map fun n =>
        let own : Node := .mk (.member n false) l [.mk (.name name) l []]
        .mk .expression l [.mk (.assign "=") l [own, .mk (.name n) l []]]
    | _ => [item]

/-! ## Items -/

mutual

/-- The statements that are left of a statement. -/
def strip : Node → List Node
  | .mk kind l parts =>
    match kind with
    | .erased => []
    | .enumeration name =>
      [objectVariable name l,
        fillCall name l (memberStatements name [] (.mk (.number "0") l []) (stripAll parts))]
    | .namespaceBody name =>
      match stripAll parts with
      | [] => []
      | items => [objectVariable name l, fillCall name l (namespaceStatements name items)]
    | .exportDeclaration =>
      match stripAll parts with
      | [] => []
      | d :: rest => .mk .exportDeclaration l [d] :: rest
    | _ => [.mk kind l (stripAll parts)]

def stripAll : List Node → List Node
  | [] => []
  | n :: ns => strip n ++ stripAll ns

end

/-- The export without the names of types; nothing if none of its names is that of a value. -/
def keepExport (values : List String) (item : Node) : Option Node :=
  match item with
  | .mk (.exportNames names none) l _ =>
    let kept := names.filter fun n => values.contains n.1
    if kept.isEmpty then none else some (.mk (.exportNames kept none) l [])
  | _ => some item

/-- The items of a module without its types. -/
def items (typed : List Node) : List Node :=
  let plain := stripAll typed
  let plain := plain.filterMap (keepExport (plain.flatMap broughtIn))
  let used := namesOf plain
  plain.filterMap (keepImport used)

end Stowage.Compile.Erase
