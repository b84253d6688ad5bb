/-
A trace as data.
-/
import Stowage.Trace.Result
import Stowage.Json.Printer

namespace Stowage.Trace

open Json

def Reason.toJson (r : Reason) : Json :=
  .object [("kind", .string r.kind.name), ("parents", ofStrings r.parents)]

def Warning.toJson (w : Warning) : Json :=
  .object [("kind", .string w.kind.name), ("file", .string w.file),
    ("specifier", ofOption .string w.specifier), ("message", .string w.message)]

def Result.toJson (r : Result) : Json :=
  .object [("files", ofStrings r.files), ("links", ofStrings r.links),
    ("reasons", .object (r.reasons.map fun (path, reason) => (path, reason.toJson))),
    ("warnings", .array (r.warnings.map Warning.toJson))]

end Stowage.Trace
