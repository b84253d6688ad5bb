/-
The tokens of a script.
-/

namespace Stowage.Script

inductive TokenKind where
  /-- A name or a reserved word. -/
  | word (text : String)
  /-- A name spelled with escapes, which is never a reserved word. -/
  | escapedWord (text : String)
  | privateName (text : String)
  | number (text : String)
  | bigint (text : String)
  | string (value : String)
  | regex (text : String)
  /-- The text of a template between two of its marks, as read and as spelled. -/
  | chunk (cooked raw : String)
  | punct (text : String)
  /-- The mark that opens the tag of an element. -/
  | tagOpen
  /-- The mark that closes a tag. -/
  | tagClose
  /-- A name inside a tag, which may hold dashes. -/
  | tagName (text : String)
  /-- The text between two tags. -/
  | content (text : String)
  deriving DecidableEq, Inhabited

structure Token where
  kind : TokenKind
  /-- The line that the token starts in, from 1. -/
  line : Nat
  /-- A line ends between the token before and this one. -/
  onNewLine : Bool
  deriving DecidableEq, Inhabited

/-- The words that are no names. -/
def reservedWords : List String := [
  "break", "case", "catch", "class", "const", "continue", "debugger", "default", "delete", "do",
  "else", "enum", "export", "extends", "false", "finally", "for", "function", "if", "import",
  "in", "instanceof", "new", "null", "return", "super", "switch", "this", "throw", "true", "try",
  "typeof", "var", "void", "while", "with"]

/-- The marks, the longer ones first. -/
def punctuators : List String := [
  ">>>=",
  "...", "===", "!==", "**=", "<<=", ">>=", ">>>", "&&=", "||=", "??=",
  "=>", "==", "!=", "<=", ">=", "&&", "||", "??", "?.", "++", "--", "+=", "-=", "*=", "/=", "%=",
  "&=", "|=", "^=", "<<", ">>", "**",
  "\x7b", "\x7d", "(", ")", "[", "]", ";", ",", "<", ">", "+", "-", "*", "/", "%", "&", "|", "^",
  "!", "~", "?", ":", "=", ".", "@"]

/-- The words after which an operand is expected. -/
def operandWords : List String := [
  "await", "case", "default", "do", "else", "return", "throw", "new", "extends", "yield", "in",
  "instanceof", "typeof", "void", "delete"]

/-- The marks after which no operand is expected. -/
def closingMarks : List String := [")", "]", "\x7d", ".", "?.", "++", "--", "\x60"]

/-- An operand is expected after the token, unless brackets decide. -/
def TokenKind.beforeOperand : TokenKind → Bool
  | .word w => operandWords.contains w
  | .punct p => !closingMarks.contains p
  | _ => false

end Stowage.Script
