/-
The container formats of an archive.
-/

namespace Stowage.Archive

inductive Format where
  | zip
  | tgz
  deriving DecidableEq, Inhabited

namespace Format

/-- The extension of an archive file, which is also the written form of the format. -/
def extension : Format → String
  | .zip => "zip"
  | .tgz => "tgz"

def ofString? : String → Option Format
  | "zip" => some .zip
  | "tgz" => some .tgz
  | "tar.gz" => some .tgz
  | _ => none

end Format

/-- The highest compression level. -/
def maxLevel : Nat := 9

end Stowage.Archive
