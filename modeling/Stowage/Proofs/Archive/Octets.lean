/-
Bytes that are read back. What was written as numbers, as parts of known lengths or as a deflate stream is
taken off the front of the bytes again, whatever comes after it.
-/
import Mathlib.Data.Nat.Digits.Defs
import Stowage.Archive.Bytes
import Stowage.Archive.Member

namespace Stowage.Archive

def octets (b : ByteArray) : List UInt8 := b.data.toList

theorem octets_append (a b : ByteArray) : octets (a ++ b) = octets a ++ octets b := ByteArray.toList_data_append

theorem length_octets (b : ByteArray) : (octets b).length = b.size := rfl

theorem octets_concat (l : List ByteArray) : octets (concat l) = (l.map octets).flatten := by
  have hfold : ∀ start : ByteArray, octets (l.foldl (· ++ ·) start) = octets start ++ (l.map octets).flatten := by
    induction l with
    | nil => exact fun start => (List.append_nil _).symm
    | cons b l ih =>
      intro start
      rw [List.foldl_cons, ih, octets_append, List.append_assoc, List.map_cons, List.flatten_cons]
  exact hfold .empty

theorem octets_extract (b : ByteArray) (n : Nat) :
    octets (b.extract 0 n) = (octets b).take n ∧ octets (b.extract n b.size) = (octets b).drop n := by
  have hextract : ∀ i j, octets (b.extract i j) = ((octets b).drop i).take (j - i) := fun i j => by
    unfold octets
    rw [ByteArray.data_extract, Array.toList_extract, List.extract_eq_take_drop]
  refine ⟨hextract 0 n, (hextract n b.size).trans (List.take_of_length_le ?_)⟩
  rw [List.length_drop, length_octets]

theorem crc32_lt (b : ByteArray) : crc32 b < 256 ^ 4 := UInt32.toNat_lt _

example : crc32 "123456789".toUTF8 = 0xCBF43926 := by decide +kernel

/-! ## Items -/

inductive Kind where
  | file
  | link
  | directory
  deriving DecidableEq

/-- A member as a reader finds it, its name and its data in bytes. -/
structure Item where
  name : List UInt8
  kind : Kind
  /-- What a file holds, or what a link leads to. -/
  data : List UInt8

def Member.item (m : Member) : Item :=
  match m.body with
  | .file c => ⟨octets m.name.toUTF8, .file, octets c.bytes⟩
  | .link target => ⟨octets m.name.toUTF8, .link, octets target.toUTF8⟩
  | .directory => ⟨octets m.name.toUTF8, .directory, []⟩

/-! ## Numbers -/

/-- The digits of a number to a base, the lowest first, are those of the number cut down to their places. -/
theorem ofDigits_places (base places n : Nat) :
    Nat.ofDigits base ((List.range places).map fun i => n / Nat.pow base i % base) = n % base ^ places := by
  induction places generalizing n with
  | zero => exact (Nat.mod_one n).symm
  | succ places ih =>
    -- the digits from the second on are those of the quotient
    have hnext : (List.range places).map ((fun i => n / Nat.pow base i % base) ∘ Nat.succ) =
        (List.range places).map fun i => n / base / Nat.pow base i % base := by
      refine List.map_congr_left fun i _ => ?_
      show n / base ^ (i + 1) % base = n / base / base ^ i % base
      rw [Nat.div_div_eq_div_mul, Nat.pow_succ, Nat.mul_comm]
    rw [List.range_succ_eq_map, List.map_cons, List.map_map, hnext, Nat.ofDigits_cons, ih, Nat.pow_succ,
      Nat.mul_comm (base ^ places), Nat.mod_mul]
    show n / 1 % base + _ = _
    rw [Nat.div_one]

/-- The number that some bytes stand for, the lowest first. -/
def valueOf (bs : List UInt8) : Nat := Nat.ofDigits 256 (bs.map UInt8.toNat)

theorem length_littleEndian (size n : Nat) : (octets (littleEndian size n)).length = size := by
  unfold octets littleEndian
  rw [List.length_map, List.length_range]

theorem valueOf_littleEndian (size n : Nat) : valueOf (octets (littleEndian size n)) = n % 256 ^ size := by
  rw [← ofDigits_places 256 size n]
  unfold valueOf octets littleEndian
  rw [List.map_map]
  refine congrArg _ (List.map_congr_left fun i _ => ?_)
  show (UInt8.ofNat (n / Nat.pow 256 i % 256)).toNat = _
  rw [UInt8.toNat_ofNat', Nat.mod_mod]

theorem valueOf_littleEndian_of_lt {size n : Nat} (h : n < 256 ^ size) :
    valueOf (octets (littleEndian size n)) = n :=
  (valueOf_littleEndian size n).trans (Nat.mod_eq_of_lt h)

/-! ## Parts -/

/-- Takes parts of the given lengths. -/
def parts : List Nat → List UInt8 → Option (List (List UInt8) × List UInt8)
  | [], cs => some ([], cs)
  | n :: ns, cs =>
    if cs.length < n then none
    else (parts ns (cs.drop n)).map fun (xs, r) => (cs.take n :: xs, r)

theorem parts_flatten {ns : List Nat} {xs : List (List UInt8)} {cs rest : List UInt8}
    (hns : xs.map List.length = ns) (hcs : xs.flatten ++ rest = cs) : parts ns cs = some (xs, rest) := by
  subst hns hcs
  induction xs with
  | nil => rfl
  | cons x xs ih =>
    rw [List.map_cons, List.flatten_cons, List.append_assoc, parts, if_neg (by rw [List.length_append]; omega),
      List.drop_left, List.take_left, ih]
    rfl

theorem parts_one (x rest : List UInt8) : parts [x.length] (x ++ rest) = some ([x], rest) :=
  parts_flatten rfl (by rw [List.flatten_singleton])

/-! ## Blocks -/

/-- Takes a deflate stream of plain blocks. -/
def inflate : Nat → List UInt8 → Option (List UInt8 × List UInt8)
  | 0, _ => none
  | fuel + 1, cs =>
    match parts [1, 2, 2] cs with
    | some ([kind, size, complement], r) =>
      if valueOf complement ≠ maxBlock - valueOf size then none
      else match parts [valueOf size] r with
        | some ([data], r) =>
          if valueOf kind = 1 then some (data, r)
          else if valueOf kind = 0 then (inflate fuel r).map fun (more, r) => (data ++ more, r)
          else none
        | _ => none
    | _ => none

/-- A block is taken off the front, and the stream ends with the last one. -/
theorem inflate_plainBlock (isLast : Bool) {data : ByteArray} (h : data.size ≤ maxBlock) (fuel : Nat)
    (rest : List UInt8) : inflate (fuel + 1) (octets (plainBlock isLast data) ++ rest) =
      if isLast then some (octets data, rest)
      else (inflate fuel rest).map fun (more, r) => (octets data ++ more, r) := by
  have hparts : parts [1, 2, 2] (octets (plainBlock isLast data) ++ rest) =
      some ([octets (littleEndian 1 (if isLast then 1 else 0)), octets (littleEndian 2 data.size),
        octets (littleEndian 2 (maxBlock - data.size))], octets data ++ rest) := by
    refine parts_flatten (by simp only [List.map_cons, List.map_nil, length_littleEndian]) ?_
    unfold plainBlock
    simp only [octets_append, List.flatten_cons, List.flatten_nil, List.append_nil, List.append_assoc]
  have hsize : valueOf (octets (littleEndian 2 data.size)) = data.size :=
    valueOf_littleEndian_of_lt (Nat.lt_of_le_of_lt h (by decide))
  have hcomplement : valueOf (octets (littleEndian 2 (maxBlock - data.size))) = maxBlock - data.size :=
    valueOf_littleEndian_of_lt (Nat.lt_of_le_of_lt (Nat.sub_le _ _) (by decide))
  have hdata : parts [data.size] (octets data ++ rest) = some ([octets data], rest) := parts_one (octets data) rest
  rw [inflate, hparts]
  dsimp only
  rw [hsize, hcomplement, if_neg (fun hne => hne rfl), hdata]
  dsimp only
  cases isLast
  · rw [if_neg (by decide), if_pos (by decide), if_neg Bool.false_ne_true]
  · rw [if_pos (by decide), if_pos rfl]

theorem inflate_plainBlocks {more : Nat} {data : ByteArray} (h : data.size ≤ (more + 1) * maxBlock) {fuel : Nat}
    (hfuel : more < fuel) (rest : List UInt8) :
    inflate fuel (octets (plainBlocks more data) ++ rest) = some (octets data, rest) := by
  obtain ⟨fuel, rfl⟩ := Nat.exists_eq_succ_of_ne_zero (Nat.ne_zero_of_lt hfuel)
  induction more generalizing data fuel with
  | zero =>
    rw [plainBlocks, inflate_plainBlock true (by omega), if_pos rfl]
  | succ more ih =>
    obtain ⟨fuel, rfl⟩ := Nat.exists_eq_succ_of_ne_zero (n := fuel) (by omega)
    -- the first block is not the last one, and what follows it is a stream of its own
    obtain ⟨hfirst, hothers⟩ := octets_extract data maxBlock
    have hsize : (data.extract maxBlock data.size).size ≤ (more + 1) * maxBlock := by
      rw [ByteArray.size_extract]
      have : (more + 1 + 1) * maxBlock = (more + 1) * maxBlock + maxBlock := Nat.succ_mul _ _
      omega
    rw [plainBlocks, octets_append, List.append_assoc,
      inflate_plainBlock false (by rw [ByteArray.size_extract]; omega), if_neg Bool.false_ne_true,
      ih hsize fuel (by omega), hfirst, hothers]
    show some ((octets data).take maxBlock ++ (octets data).drop maxBlock, rest) = _
    rw [List.take_append_drop]

theorem lt_length_plainBlocks (more : Nat) (data : ByteArray) : more < (octets (plainBlocks more data)).length := by
  have hblock : ∀ isLast data, 0 < (octets (plainBlock isLast data)).length := fun isLast data => by
    unfold plainBlock
    rw [octets_append, octets_append, octets_append, List.length_append, List.length_append, List.length_append,
      length_littleEndian]
    omega
  induction more generalizing data with
  | zero => exact hblock true data
  | succ more ih =>
    rw [plainBlocks, octets_append, List.length_append]
    have := hblock false (data.extract 0 maxBlock)
    have := ih (data.extract maxBlock data.size)
    omega

/-- A deflate stream holds the data that it was made of. -/
theorem inflate_deflate (data : ByteArray) {fuel : Nat} (hfuel : (octets (deflate data)).length ≤ fuel)
    (rest : List UInt8) : inflate fuel (octets (deflate data) ++ rest) = some (octets data, rest) := by
  refine inflate_plainBlocks ?_ (Nat.lt_of_lt_of_le (lt_length_plainBlocks _ _) hfuel) rest
  have : (0 : Nat) < maxBlock := by decide
  have := Nat.lt_div_mul_add (a := data.size - 1) this
  rw [Nat.succ_mul]
  omega

end Stowage.Archive
