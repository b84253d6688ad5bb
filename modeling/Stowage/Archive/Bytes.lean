/-
The byte level of archives: little-endian words, the cyclic redundancy check with 32 bits, and data
packed into the blocks of a deflate stream.
-/

namespace Stowage.Archive

/-- The `size` lowest bytes of a number, the lowest first. -/
def littleEndian (size n : Nat) : ByteArray :=
  ⟨((List.range size).map fun i => UInt8.ofNat (n / Nat.pow 256 i % 256)).toArray⟩

def concat (parts : List ByteArray) : ByteArray := parts.foldl (· ++ ·) .empty

/-! ## Checksum -/

/-- One bit of the checksum. -/
def crcBit (c : UInt32) : UInt32 := if c &&& 1 = 1 then (c >>> 1) ^^^ 0xEDB88320 else c >>> 1

/-- One byte of the checksum. -/
def crcByte (c : UInt32) (b : UInt8) : UInt32 :=
  (List.range 8).foldl (fun c _ => crcBit c) (c ^^^ b.toUInt32)

def crc32 (data : ByteArray) : Nat :=
  ((data.data.toList.foldl crcByte 0xFFFFFFFF) ^^^ 0xFFFFFFFF).toNat

/-! ## Deflate -/

/-- The longest block. -/
def maxBlock : Nat := 65535

/-- A block of a deflate stream that holds its data as they are. -/
def plainBlock (isLast : Bool) (data : ByteArray) : ByteArray :=
  littleEndian 1 (if isLast then 1 else 0) ++ littleEndian 2 data.size ++
    littleEndian 2 (maxBlock - data.size) ++ data

/-- The blocks of some data, with `more` blocks before the last one. -/
def plainBlocks : Nat → ByteArray → ByteArray
  | 0, data => plainBlock true data
  | more + 1, data =>
    plainBlock false (data.extract 0 maxBlock) ++ plainBlocks more (data.extract maxBlock data.size)

/-- A deflate stream of plain blocks. -/
def deflate (data : ByteArray) : ByteArray := plainBlocks ((data.size - 1) / maxBlock) data

end Stowage.Archive
