/-
The tree of a script. A node has a kind, which carries its own words, the line it starts in, and its
parts in the order in which they are visited. That is the order of the text but for two kinds: a
`do` loop has its test first, and a class has its members before the class it extends.
-/

namespace Stowage.Script

/-- How a member of an object or a class is called. -/
inductive MethodKind where
  | plain
  | getter
  | setter
  deriving DecidableEq, Inhabited

/-- A name that an import brings in. -/
inductive ImportName where
  /-- The default export. -/
  | main (localName : String)
  /-- All exports as one object. -/
  | whole (localName : String)
  | named (imported localName : String)
  deriving DecidableEq, Inhabited

def ImportName.localName : ImportName → String
  | .main n => n
  | .whole n => n
  | .named _ n => n

/-- The text of a template between two of its marks, as read and as spelled. -/
abbrev Chunk := String × String

inductive Kind where
  -- operands
  | name (s : String)
  | thisWord
  | superWord
  | null
  | bool (b : Bool)
  | number (s : String)
  | string (s : String)
  | regex (s : String)
  | metaProperty (s : String)
  | template (chunks : List Chunk)
  /-- A tag, then the interpolations. -/
  | tagged (chunks : List Chunk)
  | array
  | hole
  | spread
  | object
  -- members of objects and classes
  /-- A key and a value. -/
  | property
  | key (s : String)
  | computedKey
  | shorthand
  /-- A name and its default value. -/
  | shorthandDefault
  /-- A key and a function. -/
  | method (kind : MethodKind) (isStatic : Bool)
  /-- A key and, if it is given, a value. -/
  | field (isStatic : Bool)
  -- functions and classes
  /-- The parameters, then the body. -/
  | function (name : Option String) (isAsync isGenerator : Bool)
  /-- The parameters, then the body. -/
  | arrow (isAsync : Bool)
  /-- The members, then the class that is extended. -/
  | classBody (name : Option String) (extended : Bool)
  -- operations
  | member (name : String) (isOptional : Bool)
  | index (isOptional : Bool)
  /-- The callee, then the arguments. -/
  | call (isOptional : Bool)
  | newCall
  | unary (op : String)
  | update (op : String) (isPostfix : Bool)
  | binary (op : String)
  | assign (op : String)
  | conditional
  | sequence
  | parenthesized
  | await
  | yield (isDelegate : Bool)
  -- statements
  | expression
  | block
  | empty
  /-- A statement that only concerns types. -/
  | erased
  | declaration (word : String)
  | declarator
  | ifElse
  /-- The parts of the head that are given, then the body. -/
  | forLoop (hasInit hasTest hasUpdate : Bool)
  | forIn
  | forOf (isAwait : Bool)
  | whileLoop
  | doWhile
  | returnWith
  | throw
  | break (label : Option String)
  | continue (label : Option String)
  | labeled (label : String)
  | switch
  | case (isDefault : Bool)
  | tryCatch (hasCatch hasFinally : Bool)
  | catchClause
  | withObject
  | debugger
  -- module declarations
  | importFrom (names : List ImportName) (source : String)
  | exportNames (names : List (String × String)) (source : Option String)
  | exportAll (outer : Option String) (source : String)
  | exportDefault
  | exportDeclaration
  -- declarations of typed scripts
  | importEquals (name source : String)
  | exportEquals
  | enumeration (name : String)
  /-- Items that belong to one object. -/
  | namespaceBody (name : String)
  deriving DecidableEq, Inhabited

inductive Node where
  | mk (kind : Kind) (line : Nat) (parts : List Node)
  deriving Inhabited

namespace Node

def kind : Node → Kind
  | .mk k _ _ => k

def line : Node → Nat
  | .mk _ l _ => l

def parts : Node → List Node
  | .mk _ _ ps => ps

end Node
end Stowage.Script
