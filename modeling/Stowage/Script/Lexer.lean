/-
From characters to tokens. Whether a slash starts a regular expression or divides is decided by the
brackets that are open and by the token before it, so a text has its tokens whatever it means.
-/
import Stowage.Script.Token
import Stowage.Script.Letters

namespace Stowage.Script.Lexer

/-! ## Open brackets -/

/-- What an open bracket encloses. -/
inductive Scope where
  | statements
  | braces
  /-- An expression inside a template. -/
  | interpolation
  | parentheses
  /-- The head of a statement, which a statement follows. -/
  | head (isLoop : Bool)
  | template
  /-- A function that is an operand, until its body closes. -/
  | functionOperand
  /-- The tag that opens or closes an element. -/
  | tag (isClosing : Bool)
  /-- What stands between the tags of an element. -/
  | content
  deriving DecidableEq, Inhabited

/-- The bracket encloses an operand. -/
def Scope.isOperand : Scope → Bool
  | .statements => false
  | .head _ => false
  | _ => true

structure State where
  /-- The open brackets, innermost first. -/
  scopes : List Scope
  /-- An operand may follow. -/
  operandNext : Bool
  previous : Option TokenKind
  line : Nat
  /-- Operands may be elements. -/
  markup : Bool
  deriving Inhabited

def State.start (markup : Bool) : State := ⟨[.statements], true, none, 1, markup⟩

def State.scope (s : State) : Option Scope := s.scopes.head?

def isDot (t : Option TokenKind) : Bool := t = some (.punct ".") || t = some (.punct "?.")

/-- A brace here opens a block of statements. -/
def State.opensBlock (s : State) (onNewLine : Bool) : Bool :=
  match s.previous with
  | none => true
  | some (.word "return") => onNewLine
  | some (.word "yield") => onNewLine
  | some (.word "else") => true
  | some (.punct ";") => true
  | some (.punct ")") => true
  | some (.punct "=>") => true
  | some (.punct "<") => true
  | some (.punct ">") => true
  | some (.punct "\x7b") => s.scope = some Scope.statements
  | some (.punct ":") =>
    if s.scope = some Scope.statements then true
    else if s.scope = some Scope.braces then false
    else !s.operandNext
  | _ => !s.operandNext

/-- The state with a bracket closed. -/
def State.close (s : State) : State :=
  match s.scopes with
  | scope :: outer :: rest =>
    if scope = .statements ∧ outer = .functionOperand then
      { s with scopes := rest, operandNext := false }
    else if scope = .interpolation then
      { s with scopes := outer :: rest, operandNext := outer ≠ Scope.template }
    else { s with scopes := outer :: rest, operandNext := !scope.isOperand }
  | _ => { s with operandNext := true }

/-- What a parenthesis encloses after the token before it. -/
def parenthesisScope : Option TokenKind → Scope
  | some (.word "if") => .head false
  | some (.word "with") => .head false
  | some (.word "while") => .head false
  | some (.word "for") => .head true
  | _ => .parentheses

/-- The state with a tag closed. After the tag that opens an element comes its content, unless a slash
ends it. -/
def State.closeTag (s : State) : State :=
  let resume (scopes : List Scope) : State := { s with scopes, operandNext := false }
  match s.scopes with
  | .tag true :: .content :: rest => resume rest
  | .tag false :: rest =>
    if s.previous = some (.punct "/") then resume rest else resume (.content :: rest)
  | scopes => resume scopes

def State.inElement (s : State) : Bool :=
  match s.scope with
  | some (.tag _) => true
  | some .content => true
  | _ => false

/-- The state after a token. -/
def State.after (s : State) (t : TokenKind) (onNewLine : Bool) : State :=
  let s' := match t with
    | .tagOpen => { s with scopes := .tag false :: s.scopes, operandNext := false }
    | .tagClose => s.closeTag
    | .punct "/" =>
      if s.previous = some TokenKind.tagOpen then { s with scopes := .tag true :: s.scopes.tail }
      else { s with operandNext := true }
    | .punct ")" => s.close
    | .punct "\x7d" => s.close
    | .punct "\x7b" =>
      let scope := if s.inElement then Scope.interpolation
        else if s.opensBlock onNewLine then Scope.statements else .braces
      { s with scopes := scope :: s.scopes, operandNext := true }
    | .punct "(" =>
      { s with scopes := parenthesisScope s.previous :: s.scopes, operandNext := true }
    | .punct "$\x7b" => { s with scopes := .interpolation :: s.scopes, operandNext := true }
    | .punct "\x60" =>
      if s.scope = some Scope.template then { s with scopes := s.scopes.tail, operandNext := false }
      else { s with scopes := .template :: s.scopes, operandNext := false }
    | .punct "++" => s
    | .punct "--" => s
    | .word "function" =>
      if isDot s.previous then { s with operandNext := false }
      else if s.operandNext && !s.opensBlock onNewLine then
        { s with scopes := .functionOperand :: s.scopes, operandNext := false }
      else { s with operandNext := false }
    | .word "of" =>
      let isLoop := s.scope = some (Scope.head true)
      { s with operandNext := isLoop && s.previous.any fun (p : TokenKind) => !p.beforeOperand }
    | .word w =>
      { s with operandNext := !isDot s.previous && operandWords.contains w }
    | t => { s with operandNext := t.beforeOperand }
  { s' with previous := some t }

/-! ## Blanks and comments -/

def isLineEnd (c : Char) : Bool := c = '\n' || c = '\r' || c = '\u2028' || c = '\u2029'

def isBlank (c : Char) : Bool :=
  c = '\t' || c = '\x0b' || c = '\x0c' || c = ' ' || c = '\u00a0' || c = '\ufeff' ||
    c = '\u1680' || ('\u2000' ≤ c && c ≤ '\u200a') || c = '\u202f' || c = '\u205f' || c = '\u3000'

/-- What stands between two tokens is left out: the text after it, its line, and whether a line
ends in it. -/
structure Gap where
  rest : List Char
  line : Nat
  hasLineEnd : Bool

/-- Skips a comment after its opening mark. -/
def skipBlock : List Char → Nat → Bool → Option Gap
  | [], _, _ => none
  | '*' :: '/' :: r, line, ended => some ⟨r, line, ended⟩
  | c :: r, line, ended =>
    skipBlock r (if c = '\n' then line + 1 else line) (ended || isLineEnd c)

/-- Skips blanks and comments. An arrow at the start of a line starts a comment, and so does the
opening of a comment of a page. -/
def skipGap : Nat → List Char → Nat → Bool → Option Gap
  | 0, _, _, _ => none
  | fuel + 1, cs, line, ended =>
    let skipLine (r : List Char) : Option Gap :=
      skipGap fuel (r.dropWhile fun c => !isLineEnd c) line ended
    match cs with
    | '/' :: '/' :: r => skipLine r
    | '/' :: '*' :: r => do
      let gap ← skipBlock r line ended
      skipGap fuel gap.rest gap.line gap.hasLineEnd
    | '<' :: '!' :: '-' :: '-' :: r => skipLine r
    | '-' :: '-' :: '>' :: r => if ended then skipLine r else some ⟨cs, line, ended⟩
    | c :: r =>
      if c = '\n' then skipGap fuel r (line + 1) true
      else if isLineEnd c then skipGap fuel r line true
      else if isBlank c then skipGap fuel r line ended
      else some ⟨cs, line, ended⟩
    | [] => some ⟨[], line, ended⟩

/-! ## Escapes -/

def hexValue (c : Char) : Option Nat :=
  if '0' ≤ c ∧ c ≤ '9' then some (c.toNat - '0'.toNat)
  else if 'a' ≤ c ∧ c ≤ 'f' then some (c.toNat - 'a'.toNat + 10)
  else if 'A' ≤ c ∧ c ≤ 'F' then some (c.toNat - 'A'.toNat + 10)
  else none

/-- Takes exactly `n` hexadecimal digits onto a value. -/
def hexDigits : Nat → Nat → List Char → Option (Nat × List Char)
  | 0, v, cs => some (v, cs)
  | _ + 1, _, [] => none
  | n + 1, v, c :: r => (hexValue c).bind fun d => hexDigits n (v * 16 + d) r

/-- Takes hexadecimal digits up to a closing brace onto a code point. -/
def bracedDigits : Nat → List Char → Option (Nat × List Char)
  | _, [] => none
  | v, '\x7d' :: r => if v ≤ 0x10FFFF then some (v, r) else none
  | v, c :: r => (hexValue c).bind fun d =>
    if v ≤ 0x10FFFF then bracedDigits (v * 16 + d) r else none

/-- Takes a code point after the `u` of an escape. -/
def codePoint : List Char → Option (Nat × List Char)
  | '\x7b' :: '\x7d' :: _ => none
  | '\x7b' :: r => bracedDigits 0 r
  | r => hexDigits 4 0 r

def isOctal (c : Char) : Bool := '0' ≤ c && c ≤ '7'

/-- Takes the rest of an octal escape that started with the value `v`, up to three digits and 255. -/
def octalTail : Nat → Nat → List Char → Nat × List Char
  | 0, v, cs => (v, cs)
  | n + 1, v, c :: r =>
    if isOctal c && v * 8 + (c.toNat - '0'.toNat) ≤ 255 then
      octalTail n (v * 8 + (c.toNat - '0'.toNat)) r
    else (v, c :: r)
  | _, v, [] => (v, [])

/-- The text of a unit that is no character by itself. -/
def loneUnit (n : Nat) : List Char := '\\' :: 'u' :: Nat.toDigits 16 n

/-- The characters of a code point; two halves of a pair in a row are one character. -/
def codeText (n : Nat) (cs : List Char) : List Char × List Char :=
  if n < 0xD800 ∨ 0xDFFF < n then ([Char.ofNat n], cs)
  else match cs with
    | '\\' :: 'u' :: r =>
      match codePoint r with
      | some (m, r') =>
        if n < 0xDC00 ∧ 0xDC00 ≤ m ∧ m ≤ 0xDFFF then
          ([Char.ofNat (0x10000 + (n - 0xD800) * 0x400 + (m - 0xDC00))], r')
        else (loneUnit n, cs)
      | none => (loneUnit n, cs)
    | _ => (loneUnit n, cs)

/-- Takes an escape after its backslash. A line that is broken by it stands for nothing, and octal
escapes have no place in templates. -/
def escapeSequence (inTemplate : Bool) : List Char → Option (List Char × List Char)
  | [] => none
  | 'n' :: r => some (['\n'], r)
  | 't' :: r => some (['\t'], r)
  | 'r' :: r => some (['\r'], r)
  | 'b' :: r => some (['\x08'], r)
  | 'v' :: r => some (['\x0b'], r)
  | 'f' :: r => some (['\x0c'], r)
  | '\r' :: '\n' :: r => some ([], r)
  | 'x' :: r => (hexDigits 2 0 r).map fun (n, r) => ([Char.ofNat n], r)
  | 'u' :: r => (codePoint r).map fun (n, r) => codeText n r
  | c :: r =>
    if isLineEnd c then some ([], r)
    else if isOctal c then
      if c = '0' ∧ r.head?.all (fun d => !isOctal d) then some (['\x00'], r)
      else if inTemplate then none
      else
        let (v, r) := octalTail 2 (c.toNat - '0'.toNat) r
        some ([Char.ofNat v], r)
    else some ([c], r)

/-- The text that was taken off the front of `cs` to leave `rest`. -/
def taken (cs rest : List Char) : List Char := cs.take (cs.length - rest.length)

def lineEnds (cs : List Char) : Nat := cs.count '\n'

/-! ## Strings, templates, regular expressions -/

/-- Takes the rest of a string; the line ends inside it are counted. -/
def stringTail (quote : Char) :
    Nat → List Char → Nat → List Char → Option (TokenKind × Nat × List Char)
  | 0, _, _, _ => none
  | fuel + 1, acc, line, cs =>
    match cs with
    | [] => none
    | '\\' :: r => do
      let (text, rest) ← escapeSequence false r
      stringTail quote fuel (text.reverse ++ acc) (line + lineEnds (taken r rest)) rest
    | c :: r =>
      if c = quote then some (.string (String.ofList acc.reverse), line, r)
      else if c = '\n' ∨ c = '\r' then none
      else stringTail quote fuel (c :: acc) line r

/-- Takes the text of a template up to its end or to an interpolation. In the text as read a line
ends with a single character. -/
def chunkTail :
    Nat → List Char → List Char → Nat → List Char → Option (TokenKind × Nat × List Char)
  | 0, _, _, _, _ => none
  | fuel + 1, cooked, raw, line, cs =>
    let stop : Option (TokenKind × Nat × List Char) :=
      some (.chunk (String.ofList cooked.reverse) (String.ofList raw.reverse), line, cs)
    match cs with
    | [] => none
    | '\x60' :: _ => stop
    | '$' :: '\x7b' :: _ => stop
    | '\\' :: r => do
      let (text, rest) ← escapeSequence true r
      let spelled := taken r rest
      chunkTail fuel (text.reverse ++ cooked) (spelled.reverse ++ '\\' :: raw)
        (line + lineEnds spelled) rest
    | '\r' :: '\n' :: r => chunkTail fuel ('\n' :: cooked) ('\n' :: '\r' :: raw) (line + 1) r
    | c :: r =>
      chunkTail fuel (c :: cooked) (c :: raw) (if c = '\n' then line + 1 else line) r

/-- Takes a regular expression after its slash. -/
def regexTail : List Char → Bool → List Char → Option (List Char × List Char)
  | _, _, [] => none
  | acc, inSet, '\\' :: c :: r =>
    if isLineEnd c then none else regexTail (c :: '\\' :: acc) inSet r
  | acc, inSet, c :: r =>
    if isLineEnd c then none
    else if c = '/' && !inSet then some (acc, r)
    else regexTail (c :: acc) (if c = '[' then true else if c = ']' then false else inSet) r

def regex (cs : List Char) : Option (TokenKind × List Char) := do
  let (body, r) ← regexTail [] false cs
  let flags := r.takeWhile isNamePart
  return (.regex (String.ofList ('/' :: body.reverse ++ '/' :: flags)), r.dropWhile isNamePart)

/-! ## Names and numbers -/

/-- Takes the characters of a name, escapes included, and whether it has any. -/
def nameTail : Nat → List Char → Bool → List Char → Option (List Char × Bool × List Char)
  | 0, _, _, _ => none
  | fuel + 1, acc, escaped, cs =>
    match cs with
    | '\\' :: 'u' :: r => do
      let (n, rest) ← codePoint r
      let c := Char.ofNat n
      if if acc.isEmpty then isNameStart c else isNamePart c then
        nameTail fuel (c :: acc) true rest
      else none
    | c :: r =>
      if if acc.isEmpty then isNameStart c else isNamePart c then nameTail fuel (c :: acc) escaped r
      else some (acc.reverse, escaped, cs)
    | [] => some (acc.reverse, escaped, cs)

/-- Takes a name, which is not empty. -/
def name (cs : List Char) : Option (TokenKind × List Char) := do
  let (text, escaped, r) ← nameTail (cs.length + 1) [] false cs
  if text.isEmpty then none
  else
    let text := String.ofList text
    return (if escaped then .escapedWord text else .word text, r)

def isDigit (c : Char) : Bool := '0' ≤ c && c ≤ '9'

def isDigitOrLow (c : Char) : Bool := isDigit c || c = '_'

/-- The digits of a number with a radix mark. -/
def isRadixDigit (mark c : Char) : Bool :=
  c = '_' || match mark with
    | 'x' => (hexValue c).isSome
    | 'o' => isOctal c
    | _ => c = '0' || c = '1'

/-- A number may not run into a name. -/
def endNumber (kind : TokenKind) (r : List Char) : Option (TokenKind × List Char) :=
  if r.head?.any fun c => isNameStart c || c = '\\' then none else some (kind, r)

/-- Takes the exponent of a number, if there is one. -/
def exponent (cs : List Char) : Option (List Char) :=
  let digits (r : List Char) : Option (List Char) :=
    if r.head?.any isDigit then some (r.dropWhile isDigitOrLow) else none
  match cs with
  | c :: r =>
    if c = 'e' || c = 'E' then
      match r with
      | '+' :: r => digits r
      | '-' :: r => digits r
      | r => digits r
    else some cs
  | [] => some []

def number (cs : List Char) : Option (TokenKind × List Char) :=
  let plain (r : List Char) : Option (TokenKind × List Char) := do
    let rest ← exponent r
    endNumber (.number (String.ofList (taken cs rest))) rest
  let fraction (r : List Char) : Option (TokenKind × List Char) :=
    match r with
    | '.' :: r => plain (r.dropWhile isDigitOrLow)
    | 'n' :: r => endNumber (.bigint (String.ofList (taken cs r))) r
    | r => plain r
  let radix (mark : Char) (r : List Char) : Option (TokenKind × List Char) :=
    if r.head?.any fun c => isRadixDigit mark c && c != '_' then
      match r.dropWhile (isRadixDigit mark) with
      | 'n' :: r => endNumber (.bigint (String.ofList (taken cs r))) r
      | r => endNumber (.number (String.ofList (taken cs r))) r
    else none
  match cs with
  | '0' :: c :: r =>
    if c = 'x' || c = 'X' then radix 'x' r
    else if c = 'o' || c = 'O' then radix 'o' r
    else if c = 'b' || c = 'B' then radix 'b' r
    else if isDigit c then
      let digits := (c :: r).takeWhile isDigitOrLow
      let rest := (c :: r).dropWhile isDigitOrLow
      if digits.all isOctal then endNumber (.number (String.ofList (taken cs rest))) rest
      else fraction rest
    else fraction ((c :: r).dropWhile isDigitOrLow)
  | cs => fraction (cs.dropWhile isDigitOrLow)

/-! ## Elements -/

/-- An element may start here: a name or the end of an empty tag follows the mark. A name that a comma
or `extends` follows is a type parameter. -/
def startsElement (cs : List Char) : Bool :=
  match cs with
  | '>' :: _ => true
  | c :: _ =>
    let after := (cs.dropWhile isNamePart).dropWhile fun c => isBlank c || isLineEnd c
    isNameStart c && after.head? ≠ some ',' && !"extends ".toList.isPrefixOf after
  | [] => false

def isTagNamePart (c : Char) : Bool := isNamePart c || c = '-'

/-- Takes a token inside a tag. -/
def tagToken (s : State) (cs : List Char) : Option (TokenKind × Nat × List Char) :=
  match cs with
  | [] => none
  | '>' :: r => some (.tagClose, s.line, r)
  | '<' :: r => some (.tagOpen, s.line, r)
  | c :: r =>
    if c = '"' || c = '\'' then
      let text := r.takeWhile (· ≠ c)
      let rest := r.dropWhile (· ≠ c)
      if rest.isEmpty then none
      else some (.string (String.ofList text), s.line + lineEnds text, rest.drop 1)
    else if isNameStart c then
      some (.tagName (String.ofList (cs.takeWhile isTagNamePart)), s.line,
        cs.dropWhile isTagNamePart)
    else if "\x7b/=.:".toList.contains c then some (.punct (String.ofList [c]), s.line, r)
    else none

/-- Takes a token of the content of an element. -/
def contentToken (s : State) (cs : List Char) : Option (TokenKind × Nat × List Char) :=
  match cs with
  | [] => none
  | '<' :: r => some (.tagOpen, s.line, r)
  | '\x7b' :: r => some (.punct "\x7b", s.line, r)
  | _ =>
    let isText (c : Char) : Bool := c ≠ '<' && c ≠ '\x7b'
    let text := cs.takeWhile isText
    some (.content (String.ofList text), s.line + lineEnds text, cs.dropWhile isText)

/-! ## Tokens -/

/-- Takes a mark. -/
def punct (cs : List Char) : Option (TokenKind × List Char) :=
  (punctuators.find? fun p => p.toList.isPrefixOf cs).map fun p =>
    (.punct p, cs.drop p.length)

/-- Takes the token that a text starts with, outside of templates: the token, the line after it and
the rest. -/
def token (s : State) (cs : List Char) : Option (TokenKind × Nat × List Char) :=
  let oneLine (t : Option (TokenKind × List Char)) : Option (TokenKind × Nat × List Char) :=
    t.map fun (k, r) => (k, s.line, r)
  match cs with
  | [] => none
  | '"' :: r => stringTail '"' (r.length + 1) [] s.line r
  | '\'' :: r => stringTail '\'' (r.length + 1) [] s.line r
  | '\x60' :: r => some (.punct "\x60", s.line, r)
  | '#' :: r => oneLine do
    match ← name r with
    | (.word t, r) => return (.privateName t, r)
    | (.escapedWord t, r) => return (.privateName t, r)
    | _ => none
  | '/' :: r => if s.operandNext then oneLine (regex r) else oneLine (punct cs)
  | '<' :: r =>
    if s.markup && s.operandNext && startsElement r then some (.tagOpen, s.line, r)
    else oneLine (punct cs)
  | '?' :: '.' :: c :: r =>
    if isDigit c then some (.punct "?", s.line, '.' :: c :: r) else oneLine (punct cs)
  | '.' :: c :: _ => if isDigit c then oneLine (number cs) else oneLine (punct cs)
  | c :: _ =>
    if isDigit c then oneLine (number cs)
    else if isNameStart c || c = '\\' then oneLine (name cs)
    else oneLine (punct cs)

/-- Reads all tokens of a text. -/
def tokensFrom : Nat → State → List Char → Option (List Token)
  | 0, _, _ => none
  | fuel + 1, s, cs =>
    if s.scope = some Scope.template then do
      let (chunk, line, r) ← chunkTail (cs.length + 1) [] [] s.line cs
      let (mark, rest) := match r with
        | '$' :: _ :: r => (TokenKind.punct "$\x7b", r)
        | _ => (TokenKind.punct "\x60", r.drop 1)
      let after := State.after { s with line := line } mark false
      return ⟨chunk, s.line, false⟩ :: ⟨mark, line, false⟩ :: (← tokensFrom fuel after rest)
    else if s.scope = some Scope.content then do
      let (kind, line, r) ← contentToken s cs
      let after := { s.after kind false with line := line }
      return ⟨kind, s.line, false⟩ :: (← tokensFrom fuel after r)
    else do
      let gap ← skipGap (cs.length + 1) cs s.line s.previous.isNone
      if gap.rest.isEmpty then return []
      let s := { s with line := gap.line }
      let (kind, line, r) ← if s.inElement then tagToken s gap.rest else token s gap.rest
      let after := { s.after kind gap.hasLineEnd with line := line }
      return ⟨kind, s.line, gap.hasLineEnd⟩ :: (← tokensFrom fuel after r)

/-- The text without a first line that names the program to run it, and without a byte order mark. -/
def dropLead (cs : List Char) : List Char :=
  match cs with
  | '\ufeff' :: r => r
  | '#' :: '!' :: r => r.dropWhile fun c => !isLineEnd c
  | cs => cs

/-- The tokens of a text, unless some part of it is no token. With `markup` operands may be
elements. -/
def tokens (markup : Bool) (text : String) : Option (List Token) :=
  let cs := dropLead text.toList
  tokensFrom (cs.length + 1) (.start markup) cs

end Stowage.Script.Lexer
