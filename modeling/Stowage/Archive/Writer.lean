/-
The writer of an archive. It is handed one member after the other and holds what they come to in bytes.
-/
import Stowage.Archive.Tape
import Stowage.Archive.Zip

namespace Stowage.Archive

inductive Writer where
  | zip (w : Zip.Writer)
  | tgz (w : Tape.Writer)

namespace Writer

def new (format : Format) (level : Nat) : Writer :=
  match format with
  | .zip => .zip (.new level)
  | .tgz => .tgz (.new level)

/-- Whether a member can be written. -/
def hasRoom : Writer → Member → Bool
  | .zip w, m => w.hasRoom m
  | .tgz _, m => Tape.Writer.hasRoom m

def put : Writer → Member → Writer
  | .zip w, m => .zip (w.put m)
  | .tgz w, m => .tgz (w.put m)

/-- Writes a member, or refuses it and stays as it is. -/
def add (w : Writer) (m : Member) : Except FileFault Writer :=
  if w.hasRoom m then .ok (w.put m) else .error .other

def finish : Writer → ByteArray
  | .zip w => w.finish
  | .tgz w => w.finish

end Writer

/-- The archive of some members. -/
def encode (format : Format) (level : Nat) (members : List Member) : ByteArray :=
  (members.foldl Writer.put (.new format level)).finish

end Stowage.Archive
