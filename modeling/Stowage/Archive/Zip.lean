/-
Zip archives: each member behind a header of its own, then a directory of all members. The directory is
kept while the members are written.
-/
import Stowage.Archive.Bytes
import Stowage.Archive.Member

namespace Stowage.Archive.Zip

/-- Only files are compressed, and none at the lowest level. -/
def isStored (level : Nat) (m : Member) : Bool :=
  match m.body with
  | .file _ => level = 0
  | _ => true

/-- The data of a member. -/
def data (m : Member) : ByteArray :=
  match m.body with
  | .file c => c.bytes
  | .link target => target.toUTF8
  | .directory => .empty

/-- The file mode of a member. -/
def mode (m : Member) : Nat :=
  match m.body with
  | .file _ => 0o100644
  | .link _ => 0o120777
  | .directory => 0o040755

/-- A member with what its header and its line in the directory have in common. -/
structure Packed where
  member : Member
  content : ByteArray
  common : ByteArray

def pack (level : Nat) (m : Member) : Packed :=
  let raw := data m
  let content := if isStored level m then raw else deflate raw
  let name := m.name.toUTF8
  ⟨m, content, concat [
    littleEndian 2 20, littleEndian 2 0x0800, littleEndian 2 (if isStored level m then 0 else 8),
    littleEndian 2 0, littleEndian 2 0x0021, littleEndian 4 (crc32 raw),
    littleEndian 4 content.size, littleEndian 4 raw.size, littleEndian 2 name.size,
    littleEndian 2 0]⟩

def header (p : Packed) : ByteArray :=
  concat [littleEndian 4 0x04034B50, p.common, p.member.name.toUTF8, p.content]

/-- The line in the directory of a member whose header is at `offset`. -/
def directoryLine (p : Packed) (offset : Nat) : ByteArray :=
  concat [littleEndian 4 0x02014B50, littleEndian 2 (3 * 256 + 20), p.common, littleEndian 2 0,
    littleEndian 2 0, littleEndian 2 0, littleEndian 4 (mode p.member * 65536),
    littleEndian 4 offset, p.member.name.toUTF8]

/-- The end of an archive with `count` members. -/
def ending (count directorySize bodySize : Nat) : ByteArray :=
  concat [littleEndian 4 0x06054B50, littleEndian 4 0, littleEndian 2 count, littleEndian 2 count,
    littleEndian 4 directorySize, littleEndian 4 bodySize, littleEndian 2 0]

/-- An archive in the middle of being written. -/
structure Writer where
  level : Nat
  /-- The headers and contents of the members so far. -/
  body : ByteArray
  /-- Their lines in the directory. -/
  directory : ByteArray
  /-- How many they are. -/
  count : Nat

namespace Writer

def new (level : Nat) : Writer := ⟨level, .empty, .empty, 0⟩

/-- Whether the fields of a header can hold the sizes of a member. -/
def hasRoom (w : Writer) (m : Member) : Bool :=
  m.name.toUTF8.size < Nat.pow 256 2 && (data m).size < Nat.pow 256 4 &&
    (pack w.level m).content.size < Nat.pow 256 4

def put (w : Writer) (m : Member) : Writer :=
  let p := pack w.level m
  { w with
    body := w.body ++ header p
    directory := w.directory ++ directoryLine p w.body.size
    count := w.count + 1 }

def finish (w : Writer) : ByteArray :=
  concat [w.body, w.directory, ending w.count w.directory.size w.body.size]

end Writer
end Stowage.Archive.Zip
