/-
Modules in the form that is loaded by `require`: imports become calls of `require` at the top, in the
order in which modules are first named, and exports become properties of `exports`. Functions are
exported before anything runs, other names after their declaration.
-/
import Stowage.Script.Printer
import Stowage.Script.Bindings

namespace Stowage.Compile.CommonJs

open Script

/-! ## Loading at run time -/

def nameNode (l : Nat) (s : String) : Node := .mk (.name s) l []

/-- What the call `import(…)` becomes: a promise that calls `require` in its turn. -/
def promised (l : Nat) (arguments : List Node) : Node :=
  let required := Node.mk (.call false) l (nameNode l "require" :: arguments)
  let whole := Node.mk (.call false) l [nameNode l "_interopRequireWildcard", required]
  let later := Node.mk (.function none false false) l
    [.mk .block l [.mk .returnWith l [whole]]]
  let resolved := Node.mk (.call false) l
    [.mk (.member "resolve" false) l [nameNode l "Promise"]]
  .mk (.call false) l [.mk (.member "then" false) l [resolved], later]

mutual

/-- The node with each call of `import` replaced. -/
def replaceImports : Node → Node
  | .mk kind l parts =>
    match kind, replaceAll parts with
    | .call false, .mk (.name "import") _ _ :: arguments => promised l arguments
    | kind, parts => .mk kind l parts

def replaceAll : List Node → List Node
  | [] => []
  | n :: ns => replaceImports n :: replaceAll ns

end

mutual

/-- The node holds a call of `import`. -/
def callsImport : Node → Bool
  | .mk kind _ parts => kind = .name "import" || anyCallsImport parts

def anyCallsImport : List Node → Bool
  | [] => false
  | n :: ns => callsImport n || anyCallsImport ns

end

/-! ## Modules that are required -/

/-- A module that is required at the top, with what is taken from it. -/
structure Required where
  source : String
  /-- The names that are imported. -/
  imports : List ImportName
  /-- The names that are exported again, with the names that they get. -/
  exports : List (String × String)
  /-- All of its names are exported again. -/
  exportsAll : Bool
  deriving DecidableEq, Inhabited

/-- Adds what an item takes from a module. -/
def Required.add (rs : List Required) (r : Required) : List Required :=
  match rs with
  | [] => [r]
  | x :: rest =>
    if x.source = r.source then
      { x with
        imports := x.imports ++ r.imports
        exports := x.exports ++ r.exports
        exportsAll := x.exportsAll || r.exportsAll } :: rest
    else x :: Required.add rest r

/-- What an item takes from a module. -/
def required? (item : Node) : Option Required :=
  match item.kind with
  | .importFrom names source => some ⟨source, names, [], false⟩
  | .exportNames names (some source) => some ⟨source, [], names, false⟩
  | .exportAll none source => some ⟨source, [], [], true⟩
  | .exportAll (some outer) source => some ⟨source, [], [("*", outer)], false⟩
  | _ => none

/-- How the result of `require` is wrapped so that its default export can be read. -/
inductive Wrapping where
  | none
  | main
  | whole
  deriving DecidableEq, Inhabited

def wrapping (r : Required) : Wrapping :=
  let isMain (n : ImportName) : Bool := match n with
    | .main _ => true
    | .named "default" _ => true
    | _ => false
  let isWhole (n : ImportName) : Bool := match n with
    | .whole _ => true
    | _ => false
  let hasMain := r.imports.any isMain || r.exports.any (·.1 = "default")
  let hasNamed := r.imports.any (fun n => !isMain n && !isWhole n) ||
    r.exports.any (fun e => e.1 ≠ "default" && e.1 ≠ "*")
  if r.imports.any isWhole || r.exports.any (·.1 = "*") || (hasMain && hasNamed) then .whole
  else if hasMain then .main
  else .none

/-- A member of a pattern that takes a name from a module. -/
def binding? : ImportName → Option String
  | .main n => some ("default: " ++ n)
  | .named a b => some (if a = b then a else a ++ ": " ++ b)
  | .whole _ => none

/-- The variable that holds the `i`-th module. -/
def moduleName (i : Nat) : String := s!"_module{i}"

/-- The line that requires the `i`-th module. -/
def requireLine (i : Nat) (r : Required) : String :=
  let load := "require(" ++ Printer.quote r.source ++ ")"
  if r.imports.isEmpty && r.exports.isEmpty && !r.exportsAll then load ++ ";"
  else
    let loaded := match wrapping r with
      | .none => load
      | .main => "_interopRequireDefault(" ++ load ++ ")"
      | .whole => "_interopRequireWildcard(" ++ load ++ ")"
    let whole := r.imports.filterMap fun n => match n with
      | .whole n => some (n ++ " = " ++ moduleName i)
      | _ => none
    let named := r.imports.filterMap binding?
    let pattern := if named.isEmpty then []
      else ["\x7b " ++ ", ".intercalate named ++ " \x7d = " ++ moduleName i]
    "var " ++ ", ".intercalate ((moduleName i ++ " = " ++ loaded) :: whole ++ pattern) ++ ";"

/-- Exports a value that is read each time it is asked for. -/
def getter (name value : String) : List String := [
  "Object.defineProperty(exports, " ++ Printer.quote name ++ ", \x7b",
  "    enumerable: true,",
  "    get: function() \x7b",
  "        return " ++ value ++ ";",
  "    \x7d",
  "\x7d);"]

/-- Exports all names of a module but its default. -/
def exportAllLines (moduleVar : String) : List String := [
  "Object.keys(" ++ moduleVar ++ ").forEach(function(key) \x7b",
  "    if (key === \"default\" || key === \"__esModule\") return;",
  "    if (key in exports && exports[key] === " ++ moduleVar ++ "[key]) return;",
  "    Object.defineProperty(exports, key, \x7b",
  "        enumerable: true,",
  "        get: function() \x7b",
  "            return " ++ moduleVar ++ "[key];",
  "        \x7d",
  "    \x7d);",
  "\x7d);"]

def interopDefault : List String := [
  "function _interopRequireDefault(obj) \x7b",
  "    return obj && obj.__esModule ? obj : \x7b",
  "        default: obj",
  "    \x7d;",
  "\x7d"]

def interopWhole : List String := [
  "function _interopRequireWildcard(obj) \x7b",
  "    if (obj && obj.__esModule) \x7b",
  "        return obj;",
  "    \x7d else \x7b",
  "        var newObj = \x7b",
  "        \x7d;",
  "        if (obj != null) \x7b",
  "            for(var key in obj)\x7b",
  "                if (Object.prototype.hasOwnProperty.call(obj, key)) \x7b",
  "                    var desc = Object.defineProperty && Object.getOwnPropertyDescriptor ? " ++
    "Object.getOwnPropertyDescriptor(obj, key) : \x7b",
  "                    \x7d;",
  "                    if (desc.get || desc.set) \x7b",
  "                        Object.defineProperty(newObj, key, desc);",
  "                    \x7d else \x7b",
  "                        newObj[key] = obj[key];",
  "                    \x7d",
  "                \x7d",
  "            \x7d",
  "        \x7d",
  "        newObj.default = obj;",
  "        return newObj;",
  "    \x7d",
  "\x7d"]

/-! ## Exports -/

def isFunction (n : Node) : Bool :=
  match n.kind with
  | .function _ _ _ => true
  | _ => false

/-- The declaration in a module item, if it is one. A default export without a name gets one, and an
expression that is exported becomes a variable. -/
def declaration? (item : Node) : Option Node :=
  let main := "_default"
  match item with
  | .mk .exportDeclaration _ [d] => some d
  | .mk .exportDefault l [d] =>
    match d with
    | .mk (.function none a g) l ps => some (.mk (.function (some main) a g) l ps)
    | .mk (.classBody none e) l ps => some (.mk (.classBody (some main) e) l ps)
    | .mk (.function _ _ _) _ _ => some d
    | .mk (.classBody _ _) _ _ => some d
    | _ => some (.mk (.declaration "var") l [.mk .declarator l [nameNode l main, d]])
  | .mk (.declaration _) _ _ => some item
  | .mk (.function _ _ _) _ _ => some item
  | .mk (.classBody _ _) _ _ => some item
  | _ => none

/-- The names that an item exports, each with the name that it gets. -/
def exportedNames (item : Node) : List (String × String) :=
  match item.kind with
  | .exportNames names none => names
  | .exportDeclaration =>
    ((declaration? item).map declaredNames).getD [] |>.map fun n => (n, n)
  | .exportDefault =>
    ((declaration? item).map declaredNames).getD [] |>.map fun n => (n, "default")
  | _ => []

def isExport (item : Node) : Bool :=
  match item.kind with
  | .exportNames _ _ => true
  | .exportAll _ _ => true
  | .exportDefault => true
  | .exportDeclaration => true
  | _ => false

/-- A property of `exports`. -/
def property (name : String) : String := "exports." ++ name

def exportLine (e : String × String) : String := property e.2 ++ " = " ++ e.1 ++ ";"

/-- The lines of an item: the item itself and what it exports after that. -/
def itemLines (exports : List (String × String)) (item : Node) : List String :=
  match declaration? item with
  | some d =>
    let later := if isFunction d then [] else
      exports.filter fun e => (declaredNames d).contains e.1
    Printer.render 0 d :: later.map exportLine
  | none =>
    match item.kind with
    | .importFrom _ _ => []
    | .exportNames _ _ => []
    | .exportAll _ _ => []
    | _ => [Printer.render 0 item]

/-! ## Modules -/

/-- The code of a module. -/
def code (items : List Node) : String :=
  let needsWhole := anyCallsImport items
  let items := replaceAll items
  let required := (items.filterMap required?).foldl Required.add []
  let numbered := required.zipIdx
  let exports := items.flatMap exportedNames
  let functions := (items.filterMap declaration?).filter isFunction |>.flatMap declaredNames
  let imported := required.flatMap fun r => r.imports.map ImportName.localName
  let hoisted := exports.filter fun e => functions.contains e.1
  let again := exports.filter fun e => imported.contains e.1
  let later := exports.filter fun e => !functions.contains e.1 && !imported.contains e.1
  let mark := if items.any isExport then [
    "Object.defineProperty(exports, \"__esModule\", \x7b", "    value: true", "\x7d);"] else []
  let start := if later.isEmpty then []
    else [" = ".intercalate (later.reverse.map (property ·.2)) ++ " = void 0;"]
  let getters := again.flatMap (fun e => getter e.2 e.1) ++ numbered.flatMap fun (r, i) =>
    r.exports.flatMap fun (a, b) =>
      getter b (if a = "*" then moduleName i else moduleName i ++ "." ++ a)
  let requires := numbered.flatMap fun (r, i) =>
    requireLine i r :: if r.exportsAll then exportAllLines (moduleName i) else []
  let wrappings := required.map wrapping
  let helpers := (if wrappings.contains .main then interopDefault else []) ++
    if needsWhole || wrappings.contains .whole then interopWhole else []
  let lines := "\"use strict\";" :: mark ++ hoisted.map exportLine ++ getters ++ start ++ requires ++
    helpers ++ items.flatMap (itemLines later)
  "\n".intercalate lines ++ "\n"

end Stowage.Compile.CommonJs
