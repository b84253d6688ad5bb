/-
Compressed tape archives: each member is a header of 512 bytes and its data in blocks of that size.
Names and targets that are too long for a header go before it as members of their own.
-/
import Stowage.Archive.Bytes
import Stowage.Archive.Member

namespace Stowage.Archive.Tape

def blockSize : Nat := 512

def zeros (n : Nat) : ByteArray := ⟨Array.replicate n 0⟩

/-- The data filled up to whole blocks. -/
def fill (data : ByteArray) : ByteArray :=
  data ++ zeros ((blockSize - data.size % blockSize) % blockSize)

/-- A field of a header: as much of the data as it holds. -/
def field (width : Nat) (data : ByteArray) : ByteArray :=
  let kept := data.extract 0 width
  kept ++ zeros (width - kept.size)

/-- A number with octal digits that fill a field up to its last byte. -/
def octal (width n : Nat) : ByteArray :=
  ⟨((List.range (width - 1)).reverse.map fun i => UInt8.ofNat ('0'.toNat + n / Nat.pow 8 i % 8)).toArray⟩ ++
    zeros 1

/-- A number that fills a field, with binary digits behind a mark if the octal ones are too many. -/
def number (width n : Nat) : ByteArray :=
  if n < Nat.pow 8 (width - 1) then octal width n
  else ⟨#[0x80] ++ (littleEndian (width - 1) n).data.reverse⟩

/-- A header with the given text in place of its checksum. -/
def headerWith (check : ByteArray) (name : String) (mode size : Nat) (type : Char)
    (target : String) : ByteArray :=
  field blockSize (concat [
    field tapeWidth name.toUTF8, octal 8 mode, octal 8 0, octal 8 0, number 12 size, octal 12 0,
    check, ⟨#[type.toUInt8]⟩, field tapeWidth target.toUTF8, "ustar  ".toUTF8, zeros 1])

/-- The sum of some bytes. -/
def total (bytes : List UInt8) : Nat := bytes.foldr (fun b n => b.toNat + n) 0

/-- A header, whose checksum is the sum of its bytes with blanks for the checksum. -/
def header (name : String) (mode size : Nat) (type : Char) (target : String) : ByteArray :=
  let blank := headerWith "        ".toUTF8 name mode size type target
  headerWith (octal 7 (total blank.data.toList) ++ " ".toUTF8) name mode size type target

/-- A header and its data. -/
def record (name : String) (mode : Nat) (type : Char) (target : String) (data : ByteArray) :
    ByteArray :=
  header name mode data.size type target ++ fill data

/-- A text that is too long for a header as a member of its own. -/
def long (type : Char) (text : String) : ByteArray :=
  if text.utf8ByteSize ≤ tapeWidth then .empty
  else record "././@LongLink" 0o644 type "" (text.toUTF8 ++ zeros 1)

def encodeMember (m : Member) : ByteArray :=
  match m.body with
  | .file c => long 'L' m.name ++ record m.name 0o644 '0' "" c.bytes
  | .link target => long 'L' m.name ++ long 'K' target ++ record m.name 0o777 '2' target .empty
  | .directory => long 'L' m.name ++ record m.name 0o755 '5' "" .empty

/-- A text that a header can hold, or a member of its own. -/
def isHeld (text : String) : Bool :=
  if text.utf8ByteSize ≤ tapeWidth then text.toUTF8.data.all (· ≠ 0)
  else text.utf8ByteSize + 1 < Nat.pow 256 8

/-- A compressed tape archive in the middle of being written. -/
structure Writer where
  level : Nat
  /-- The members so far, one after the other. -/
  tape : ByteArray

namespace Writer

def new (level : Nat) : Writer := ⟨level, .empty⟩

/-- Whether the texts and the size of a member can be written. -/
def hasRoom (m : Member) : Bool :=
  isHeld m.name && match m.body with
    | .file c => c.bytes.size < Nat.pow 256 8
    | .link target => isHeld target
    | .directory => true

def put (w : Writer) (m : Member) : Writer := { w with tape := w.tape ++ encodeMember m }

/-- The mark of a compression level. -/
def levelMark (level : Nat) : Nat := if maxLevel ≤ level then 2 else if level ≤ 1 then 4 else 0

/-- Two empty blocks are put at the end, and all is compressed. -/
def finish (w : Writer) : ByteArray :=
  let data := w.tape ++ zeros (2 * blockSize)
  concat [littleEndian 4 0x00088B1F, littleEndian 4 0, littleEndian 1 (levelMark w.level),
    littleEndian 1 0xFF, deflate data, littleEndian 4 (crc32 data), littleEndian 4 data.size]

end Writer
end Stowage.Archive.Tape
