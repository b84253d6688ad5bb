/-
Paths in quotes, as they stand in messages: quotes, backslashes and characters that do not show are
escaped.
-/
import Stowage.Path

namespace Stowage.Path

/-- Ranges of characters beyond ASCII that do not show by themselves: controls, marks that combine with
the character before them, blanks other than the plain one, and private or unassigned ones. -/
def hiddenRanges : List (Nat × Nat) := [
  (0x7f, 0xa0), (0xad, 0xad), (0x300, 0x36f), (0x483, 0x489), (0x591, 0x5bd), (0x610, 0x61c),
  (0x64b, 0x65f), (0x900, 0x902), (0xe31, 0xe31), (0xe34, 0xe3a), (0x1680, 0x1680),
  (0x180b, 0x180f), (0x1ab0, 0x1aff), (0x1dc0, 0x1dff), (0x2000, 0x200f), (0x2028, 0x202f),
  (0x205f, 0x206f), (0x20d0, 0x20f0), (0x302a, 0x302f), (0x3000, 0x3000), (0x3099, 0x309a),
  (0xe000, 0xf8ff), (0xfe00, 0xfe0f), (0xfe20, 0xfe2f), (0xfeff, 0xfeff), (0xfff0, 0xfffb),
  (0xe0000, 0xe0fff), (0xf0000, 0x10ffff)]

def isHidden (c : Char) : Bool :=
  c.toNat < 0x20 || hiddenRanges.any fun (a, b) => a ≤ c.toNat && c.toNat ≤ b

def escapeQuoted (c : Char) : List Char :=
  if c = '"' ∨ c = '\'' ∨ c = '\\' then ['\\', c]
  else if c = '\n' then ['\\', 'n']
  else if c = '\r' then ['\\', 'r']
  else if c = '\t' then ['\\', 't']
  else if c = '\x00' then ['\\', '0']
  else if isHidden c then
    ['\\', 'u', '\x7b'] ++ Nat.toDigits 16 c.toNat ++ ['\x7d']
  else [c]

/-- A path in quotes. -/
def quoted (p : Path) : String := "\"" ++ String.ofList (p.text.toList.flatMap escapeQuoted) ++ "\""

end Stowage.Path
