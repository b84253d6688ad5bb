/-
From the text of a script to code for the runtime: types are erased, and imports and exports are written
in the form of the output. What a module imports stays named as in its source.
-/
import Stowage.Compile.Compiler
import Stowage.Compile.Erase
import Stowage.Compile.CommonJs
import Stowage.Script.Strict

namespace Stowage

namespace Compile

open Script

def typedExtensions : List String := ["ts", "tsx", "mts", "cts"]

/-- A script with types. -/
def isTyped (source : Path) : Bool := source.extension.any typedExtensions.contains

/-- What a script may hold, by its extension. -/
def dialect (source : Path) : Parser.Dialect :=
  ⟨isTyped source, source.extension.any ["jsx", "tsx"].contains⟩

/-- The items of a script, which is always a module, without types. -/
def moduleItems (source : Path) (text : String) : Option (List Node) :=
  let items := Parser.parseModule (dialect source) text
  if isTyped source then items.map Erase.items else items

/-- Code in the form of modules: one item after the other. -/
def moduleCode (items : List Node) : String :=
  String.join (items.map fun n => Printer.render 0 n ++ "\n")

/-- The code that a script compiles to. -/
def transpile : Transpile := fun format source text =>
  match moduleItems source text with
  | none => .error "syntax error"
  | some items =>
    if Strict.isStrict items then
      .ok (match format with
        | .commonJs => CommonJs.code items
        | .esModule => moduleCode items)
    else .error "not allowed in strict code"

end Compile

/-- Compiles scripts with and without types. -/
def compileScripts : Compiler := compile Compile.transpile

end Stowage
