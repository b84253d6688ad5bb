/-
Module specifiers: which ones the runtime provides itself, which ones name a path, and how a bare
specifier splits into the name of a package and a path inside it.
-/
import Stowage.Path

namespace Stowage.Specifier

/-- The modules that the runtime provides. -/
def runtimeModules : List String := [
  "_http_agent", "_http_client", "_http_common", "_http_incoming", "_http_outgoing",
  "_http_server", "_stream_duplex", "_stream_passthrough", "_stream_readable",
  "_stream_transform", "_stream_wrap", "_stream_writable", "_tls_common", "_tls_wrap", "assert",
  "assert/strict", "async_hooks", "buffer", "child_process", "cluster", "console", "constants",
  "crypto", "dgram", "diagnostics_channel", "dns", "dns/promises", "domain", "events", "fs",
  "fs/promises", "http", "http2", "https", "inspector", "inspector/promises", "module", "net",
  "os", "path", "path/posix", "path/win32", "perf_hooks", "process", "punycode", "querystring",
  "readline", "readline/promises", "repl", "stream", "stream/consumers", "stream/promises",
  "stream/web", "string_decoder", "sys", "timers", "timers/promises", "tls", "trace_events",
  "tty", "url", "util", "util/types", "v8", "vm", "wasi", "worker_threads", "zlib"]

/-- The scheme that always names a module of the runtime. -/
def runtimeScheme : String := "node:"

/-- The specifier names a module that the runtime provides. -/
def isBuiltin (s : String) : Bool := s.startsWith runtimeScheme || runtimeModules.contains s

/-- The specifier is a relative or absolute path. -/
def isLocal (s : String) : Bool :=
  match s.toList with
  | ['.'] => true
  | ['.', '.'] => true
  | '.' :: '/' :: _ => true
  | '.' :: '.' :: '/' :: _ => true
  | '/' :: _ => true
  | _ => false

/-- The specifier names an installed package. -/
def isDependency (s : String) : Bool := !isBuiltin s && !isLocal s

/-! ## Packages -/

/-- A text cut at its first `/`, which belongs to neither part. -/
def cutSlash : List Char → List Char × Option (List Char)
  | [] => ([], none)
  | c :: r =>
    if c = '/' then ([], some r)
    else let (a, b) := cutSlash r; (c :: a, b)

/-- The package name and the path inside it, on characters; a scope belongs to the name. -/
def splitChars (s : List Char) : List Char × Option (List Char) :=
  match cutSlash s with
  | (_, none) => (s, none)
  | (a, some r) =>
    if a.head? = some '@' then
      match cutSlash r with
      | (_, none) => (s, none)
      | (b, some t) => (a ++ '/' :: b, some t)
    else (a, some r)

/-- The name of the package and the path inside it, when one follows. -/
def split (s : String) : String × Option String :=
  let (name, sub) := splitChars s.toList
  (String.ofList name, sub.map String.ofList)

/-- The part of a package name after its last `/`. -/
def basename (name : String) : String :=
  String.ofList (name.toList.reverse.takeWhile (· ≠ '/')).reverse

end Stowage.Specifier
