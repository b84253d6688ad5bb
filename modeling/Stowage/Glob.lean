/-
Path patterns: `?` is one character, `*` any run of characters, `**` any run of whole directories
and `[…]` one character of a set. A pattern is compiled before it is matched, and the fault of one
that does not compile says where it stands.
-/

namespace Stowage.Glob

/-! ## Patterns -/

/-- A member of a character set. -/
inductive Range where
  | one (c : Char)
  | span (lo hi : Char)
  deriving DecidableEq

inductive Token where
  | char (c : Char)
  | anyChar
  | anyRun
  | anyDirectories
  | within (set : List Range)
  | without (set : List Range)
  deriving DecidableEq

/-- Why a text is no pattern. -/
inductive Cause where
  | stars
  | partialComponent
  | set
  deriving DecidableEq, Inhabited

/-- The first thing that is wrong with a text, counted in characters from its start. -/
structure Fault where
  position : Nat
  cause : Cause
  deriving DecidableEq, Inhabited

def Cause.message : Cause → String
  | .stars => "wildcards are either regular `*` or recursive `**`"
  | .partialComponent => "recursive wildcards must form a single path component"
  | .set => "invalid range pattern"

/-- The message of a fault together with its place. -/
def Fault.message (f : Fault) : String :=
  "Pattern syntax error near position " ++ toString f.position ++ ": " ++ f.cause.message

/-- The members of a set: `a-z` is a span, also when it is empty. -/
def ranges : List Char → List Range
  | a :: '-' :: b :: r => .span a b :: ranges r
  | a :: r => .one a :: ranges r
  | [] => []

/-- A set after its opening bracket: its text, with at least one character, and what follows. -/
def takeSet : List Char → Option (List Char × List Char)
  | [] => none
  | c :: r =>
    match r.dropWhile (· ≠ ']') with
    | [] => none
    | _ :: rest => some (c :: r.takeWhile (· ≠ ']'), rest)

/-- The token of a set after its opening bracket. -/
def setToken : List Char → Option (Token × List Char)
  | '!' :: r => (takeSet r).map fun (set, rest) => (.without (ranges set), rest)
  | r => (takeSet r).map fun (set, rest) => (.within (ranges set), rest)

theorem length_takeSet_lt {cs set rest : List Char} (h : takeSet cs = some (set, rest)) :
    rest.length < cs.length := by
  cases cs with
  | nil => simp [takeSet] at h
  | cons c r =>
    simp only [takeSet] at h
    split at h
    · cases h
    · rename_i heq
      cases h
      have := (List.dropWhile_sublist (fun x => decide (x ≠ ']')) (l := r)).length_le
      rw [heq] at this
      simp only [List.length_cons] at this ⊢
      omega

theorem length_setToken_lt {cs rest : List Char} {t : Token} (h : setToken cs = some (t, rest)) :
    rest.length < cs.length := by
  unfold setToken at h
  split at h
  · simp only [Option.map_eq_some_iff, Prod.mk.injEq, Prod.exists] at h
    obtain ⟨a, b, hab, -, rfl⟩ := h
    have := length_takeSet_lt hab
    simp only [List.length_cons]
    omega
  · simp only [Option.map_eq_some_iff, Prod.mk.injEq, Prod.exists] at h
    obtain ⟨a, b, hab, -, rfl⟩ := h
    exact length_takeSet_lt hab

/-- Compiles the rest of a pattern, which starts at `position` after the character `before`. -/
def compileFrom (position : Nat) (before : Option Char) :
    List Char → Except Fault (List Token)
  | [] => .ok []
  | '?' :: r => do return .anyChar :: (← compileFrom (position + 1) (some '?') r)
  | '*' :: '*' :: '*' :: _ => .error ⟨position + 2, .stars⟩
  | '*' :: '*' :: r =>
    if before = none ∨ before = some '/' then
      match r with
      | [] => .ok [.anyDirectories]
      | '/' :: r => do return .anyDirectories :: (← compileFrom (position + 3) (some '/') r)
      | _ => .error ⟨position + 2, .partialComponent⟩
    else .error ⟨position - 1, .partialComponent⟩
  | '*' :: r => do return .anyRun :: (← compileFrom (position + 1) (some '*') r)
  | '[' :: r =>
    match _h : setToken r with
    | none => .error ⟨position, .set⟩
    | some (t, rest) => do
      return t :: (← compileFrom (position + 1 + (r.length - rest.length)) (some ']') rest)
  | c :: r => do return .char c :: (← compileFrom (position + 1) (some c) r)
termination_by cs => cs.length
decreasing_by
  all_goals simp only [List.length_cons]
  all_goals first
    | omega
    | exact Nat.lt_succ_of_lt (length_setToken_lt _h)

/-- A compiled pattern. -/
structure Pattern where
  tokens : List Token
  deriving DecidableEq, Inhabited

def compile (text : String) : Except Fault Pattern :=
  (compileFrom 0 none text.toList).map Pattern.mk

/-- The pattern that matches a text and nothing else. -/
def literal (text : String) : String :=
  String.ofList <| text.toList.flatMap fun c =>
    if c = '?' ∨ c = '*' ∨ c = '[' ∨ c = ']' then ['[', c, ']'] else [c]

/-! ## Matching -/

structure Options where
  caseSensitive : Bool
  /-- `?`, `*` and sets do not match a separator. -/
  literalSeparator : Bool

def isAscii (c : Char) : Bool := c.toNat < 128

def charEq (o : Options) (a b : Char) : Bool :=
  if !o.caseSensitive && isAscii a && isAscii b then a.toLower = b.toLower else a = b

def Range.contains (o : Options) (c : Char) : Range → Bool
  | .one a => charEq o c a
  | .span lo hi =>
    (lo ≤ c && c ≤ hi) ||
      (!o.caseSensitive && isAscii c && lo.isAlpha && hi.isAlpha &&
        lo.toLower ≤ c.toLower && c.toLower ≤ hi.toLower)

/-- The token matches the character on its own. -/
def Token.accepts (o : Options) (c : Char) : Token → Bool
  | .char a => charEq o c a
  | .anyChar => !(o.literalSeparator && c = '/')
  | .within set => !(o.literalSeparator && c = '/') && set.any (Range.contains o c)
  | .without set => !(o.literalSeparator && c = '/') && !set.any (Range.contains o c)
  | .anyRun => false
  | .anyDirectories => false

/-- Some run of characters leaves a rest that `next` accepts. -/
def matchRun (o : Options) (next : List Char → Bool) : List Char → Bool
  | [] => next []
  | c :: r => next (c :: r) || (!(o.literalSeparator && c = '/') && matchRun o next r)

/-- Some rest after a separator, or the empty one, is accepted by `next`. -/
def matchDeep (next : List Char → Bool) : List Char → Bool
  | [] => next []
  | c :: r => (c = '/' && next r) || matchDeep next r

def matchTokens (o : Options) : List Token → List Char → Bool
  | [], cs => cs.isEmpty
  | .anyRun :: ts, cs => matchRun o (matchTokens o ts) cs
  | .anyDirectories :: ts, cs => matchTokens o ts cs || matchDeep (matchTokens o ts) cs
  | _ :: _, [] => false
  | t :: ts, c :: r => t.accepts o c && matchTokens o ts r

/-- The pattern matches the whole text. -/
def Pattern.accepts (o : Options) (p : Pattern) (text : String) : Bool :=
  matchTokens o p.tokens text.toList

/-- Matching of one level at a time with case. -/
def levels : Options := ⟨true, true⟩

/-- Matching with case where wildcards cross separators. -/
def anywhere : Options := ⟨true, false⟩

/-- Matching of one level at a time without case. -/
def caseless : Options := ⟨false, true⟩

end Stowage.Glob
