/-
Tape archives that are read back. The reader goes over the archive header by header. A text that was too long
for a header is kept until the member comes that it belongs to.
-/
import Stowage.Archive.Tape
import Stowage.Proofs.Archive.Octets

namespace Stowage.Archive.Tape

/-! ## Reading -/

/-- A text up to its first zero byte. -/
def textOf (cs : List UInt8) : List UInt8 := cs.takeWhile (· ≠ 0)

/-- The number in a field: octal digits, or binary ones behind a mark. -/
def numberOf (cs : List UInt8) : Nat :=
  if cs.head? = some 0x80 then valueOf cs.tail.reverse
  else Nat.ofDigits 8 ((textOf cs).reverse.map fun b => b.toNat - '0'.toNat)

structure Header where
  name : List UInt8
  size : Nat
  type : UInt8
  target : List UInt8

/-- The lengths of the fields of a header up to its checksum. -/
def lengthsBefore : List Nat := [tapeWidth, 8, 8, 8, 12, 12]

/-- The lengths of the fields of a header from its type on. -/
def lengthsAfter : List Nat := [1, tapeWidth, 255]

/-- The sum of the bytes of a header with blanks for its checksum. -/
def sumOf (before after : List (List UInt8)) : Nat :=
  total (before.flatten ++ (List.replicate 8 32 ++ after.flatten))

/-- Takes a header, whose checksum has to be right. -/
def readHeader (cs : List UInt8) : Option (Header × List UInt8) :=
  match parts lengthsBefore cs with
  | some ([name, mode, owner, group, size, time], r) =>
    match parts [8] r with
    | some ([check], r) =>
      match parts lengthsAfter r with
      | some ([[type], target, ending], r) =>
        if numberOf check = sumOf [name, mode, owner, group, size, time] [[type], target, ending] then
          some (⟨textOf name, numberOf size, type, textOf target⟩, r)
        else none
      | _ => none
    | _ => none
  | _ => none

/-- The item of a header and its data. A text that was kept stands for the one in the header. -/
def itemOf (h : Header) (name target : Option (List UInt8)) (data : List UInt8) : Option Item :=
  if h.type = '0'.toUInt8 then some ⟨name.getD h.name, .file, data⟩
  else if h.type = '2'.toUInt8 then some ⟨name.getD h.name, .link, target.getD h.target⟩
  else if h.type = '5'.toUInt8 then some ⟨name.getD h.name, .directory, []⟩
  else none

/-- The items of a tape archive. `name` and `target` are the texts that are kept for the next member. -/
def readItems : Nat → Option (List UInt8) → Option (List UInt8) → List UInt8 → Option (List Item)
  | 0, _, _, _ => none
  | fuel + 1, name, target, cs =>
    if cs = octets (zeros (2 * blockSize)) then if name = none ∧ target = none then some [] else none
    else match readHeader cs with
      | some (h, r) =>
        match parts [h.size, (blockSize - h.size % blockSize) % blockSize] r with
        | some ([data, _], r) =>
          if h.type = 'L'.toUInt8 then readItems fuel (some data.dropLast) target r
          else if h.type = 'K'.toUInt8 then readItems fuel name (some data.dropLast) r
          else match itemOf h name target data with
            | some item => (readItems fuel none none r).map (item :: ·)
            | none => none
        | _ => none
      | none => none

/-- The data of a compressed file, whose checksum and size have to be right. -/
def gunzip (cs : List UInt8) : Option (List UInt8) :=
  match parts [4, 4, 1, 1] cs with
  | some ([mark, _, _, _], r) =>
    if valueOf mark = 0x00088B1F then
      match inflate r.length r with
      | some (data, r) =>
        match parts [4, 4] r with
        | some ([check, size], []) =>
          if valueOf check = crc32 ⟨data.toArray⟩ ∧ valueOf size = data.length % 256 ^ 4 then some data
          else none
        | _ => none
      | none => none
    else none
  | _ => none

/-- The items of a compressed tape archive. -/
def untape (cs : List UInt8) : Option (List Item) :=
  match gunzip cs with
  | some data => readItems (data.length + 1) none none data
  | none => none

/-! ## Fields -/

theorem octets_zeros (n : Nat) : octets (zeros n) = List.replicate n 0 := Array.toList_replicate

theorem length_field (width : Nat) (data : ByteArray) : (octets (field width data)).length = width := by
  unfold field
  rw [octets_append, octets_zeros, List.length_append, List.length_replicate, length_octets, ByteArray.size_extract]
  omega

theorem octets_field {width : Nat} {data : ByteArray} (h : data.size ≤ width) :
    octets (field width data) = octets data ++ List.replicate (width - data.size) 0 := by
  unfold field
  have hkept : octets (data.extract 0 width) = octets data := by
    rw [(octets_extract data width).1, List.take_of_length_le (by rwa [length_octets])]
  have hsize : (data.extract 0 width).size = data.size := by
    rw [ByteArray.size_extract]
    omega
  rw [octets_append, hkept, octets_zeros, hsize]

theorem textOf_append_zeros {cs : List UInt8} (h : ∀ b ∈ cs, b ≠ 0) (n : Nat) :
    textOf (cs ++ List.replicate n 0) = cs := by
  unfold textOf
  rw [List.takeWhile_append_of_pos (by simpa using h), List.takeWhile_replicate]
  simp

/-- The digits of a number, the highest first. -/
def octalDigits (width n : Nat) : List UInt8 :=
  (List.range (width - 1)).reverse.map fun i => UInt8.ofNat ('0'.toNat + n / Nat.pow 8 i % 8)

theorem octets_octal (width n : Nat) : octets (octal width n) = octalDigits width n ++ [0] := by
  unfold octal
  rw [octets_append, octets_zeros]
  rfl

theorem length_octalDigits (width n : Nat) : (octalDigits width n).length = width - 1 := by
  unfold octalDigits
  rw [List.length_map, List.length_reverse, List.length_range]

theorem length_octal {width : Nat} (hwidth : 0 < width) (n : Nat) : (octets (octal width n)).length = width := by
  rw [octets_octal, List.length_append, length_octalDigits, List.length_singleton]
  omega

theorem toNat_octalDigit (k : Nat) : (UInt8.ofNat ('0'.toNat + k % 8)).toNat = '0'.toNat + k % 8 := by
  rw [UInt8.toNat_ofNat', Nat.mod_eq_of_lt]
  have : '0'.toNat = 48 := rfl
  omega

/-- A digit is neither the end of a text nor the mark of a number. -/
theorem octalDigits_bounds {width n : Nat} {b : UInt8} (h : b ∈ octalDigits width n) : b ≠ 0 ∧ b ≠ 0x80 := by
  obtain ⟨i, -, rfl⟩ := List.mem_map.1 h
  have hdigit := toNat_octalDigit (n / Nat.pow 8 i)
  have : '0'.toNat = 48 := rfl
  constructor <;> intro he <;> rw [he] at hdigit
  · have : (0 : UInt8).toNat = 0 := rfl
    omega
  · have : (0x80 : UInt8).toNat = 128 := rfl
    omega

/-- A number in octal digits is read back, whatever stands behind its zero byte. -/
theorem numberOf_octal {width n : Nat} (hwidth : 1 < width) (h : n < 8 ^ (width - 1)) (rest : List UInt8) :
    numberOf (octets (octal width n) ++ rest) = n := by
  have htext : textOf (octets (octal width n) ++ rest) = octalDigits width n := by
    unfold textOf
    rw [octets_octal, List.append_assoc, List.takeWhile_append_of_pos (by simpa using fun b hb => (octalDigits_bounds hb).1)]
    simp
  have hhead : (octets (octal width n) ++ rest).head? ≠ some 0x80 := by
    rw [octets_octal, List.append_assoc]
    rcases hdigits : octalDigits width n with _ | ⟨b, bs⟩
    · have := length_octalDigits width n
      rw [hdigits] at this
      simp at this
      omega
    · have hb : b ∈ octalDigits width n := hdigits ▸ List.mem_cons_self
      intro he
      exact (octalDigits_bounds hb).2 (Option.some.inj he)
  unfold numberOf
  rw [if_neg hhead, htext, octalDigits, ← List.map_reverse, List.reverse_reverse, List.map_map]
  have hdigits : (List.range (width - 1)).map
      ((fun b : UInt8 => b.toNat - '0'.toNat) ∘ fun i => UInt8.ofNat ('0'.toNat + n / Nat.pow 8 i % 8)) =
      (List.range (width - 1)).map fun i => n / Nat.pow 8 i % 8 := by
    refine List.map_congr_left fun i _ => ?_
    show (UInt8.ofNat ('0'.toNat + n / Nat.pow 8 i % 8)).toNat - '0'.toNat = _
    rw [toNat_octalDigit, Nat.add_sub_cancel_left]
  rw [hdigits, ofDigits_places, Nat.mod_eq_of_lt h]

theorem length_number {width : Nat} (hwidth : 0 < width) (n : Nat) : (octets (number width n)).length = width := by
  unfold number
  split
  · exact length_octal hwidth n
  · have hlength := length_littleEndian (width - 1) n
    unfold octets at hlength ⊢
    rw [Array.toList_append, Array.toList_reverse, List.length_append, List.length_reverse, hlength]
    show 1 + (width - 1) = width
    omega

theorem numberOf_number {width n : Nat} (hwidth : 1 < width) (h : n < 256 ^ (width - 1)) :
    numberOf (octets (number width n)) = n := by
  unfold number
  by_cases hoctal : n < Nat.pow 8 (width - 1)
  · rw [if_pos hoctal]
    have := numberOf_octal hwidth hoctal []
    rwa [List.append_nil] at this
  · rw [if_neg hoctal]
    have hlist : octets ⟨#[0x80] ++ (littleEndian (width - 1) n).data.reverse⟩ =
        0x80 :: (octets (littleEndian (width - 1) n)).reverse := by
      unfold octets
      rw [Array.toList_append, Array.toList_reverse]
      rfl
    unfold numberOf
    rw [hlist, List.head?_cons, if_pos rfl, List.tail_cons, List.reverse_reverse, valueOf_littleEndian_of_lt h]

/-! ## Headers -/

section
variable (name : String) (mode size : Nat) (type : Char) (target : String)

def fieldsBefore : List (List UInt8) := [
  octets (field tapeWidth name.toUTF8), octets (octal 8 mode), octets (octal 8 0), octets (octal 8 0),
  octets (number 12 size), octets (octal 12 0)]

def fieldsAfter : List (List UInt8) := [
  [type.toUInt8], octets (field tapeWidth target.toUTF8), octets "ustar  ".toUTF8 ++ List.replicate 248 0]

theorem length_fieldsBefore : (fieldsBefore name mode size).map List.length = lengthsBefore := by
  unfold fieldsBefore lengthsBefore
  simp only [List.map_cons, List.map_nil, length_field, length_octal (by decide : 0 < 8),
    length_octal (by decide : 0 < 12), length_number (by decide : 0 < 12)]

theorem length_fieldsAfter : (fieldsAfter type target).map List.length = lengthsAfter := by
  unfold fieldsAfter lengthsAfter
  simp only [List.map_cons, List.map_nil, length_field, List.length_append, List.length_replicate]
  rfl

theorem octets_headerWith {check : ByteArray} (hcheck : check.size = 8) :
    octets (headerWith check name mode size type target) =
      (fieldsBefore name mode size).flatten ++ (octets check ++ (fieldsAfter type target).flatten) := by
  have hlist : octets (concat [field tapeWidth name.toUTF8, octal 8 mode, octal 8 0, octal 8 0, number 12 size,
      octal 12 0, check, ⟨#[type.toUInt8]⟩, field tapeWidth target.toUTF8, "ustar  ".toUTF8, zeros 1]) =
      (fieldsBefore name mode size).flatten ++ (octets check ++ ([type.toUInt8] ++
        (octets (field tapeWidth target.toUTF8) ++ (octets "ustar  ".toUTF8 ++ [0])))) := by
    rw [octets_concat]
    unfold fieldsBefore
    simp only [List.map_cons, List.map_nil, List.flatten_cons, List.flatten_nil, List.append_nil, List.append_assoc]
    rfl
  have hbefore : (fieldsBefore name mode size).flatten.length = 148 := by
    rw [List.length_flatten, length_fieldsBefore]
    rfl
  have hsize := congrArg List.length hlist
  rw [length_octets, List.length_append, hbefore, List.length_append, length_octets, hcheck, List.length_append,
    List.length_append, length_field, List.length_append] at hsize
  have hsize : _ = 265 := hsize
  unfold headerWith
  rw [octets_field (hsize.trans_le (by decide)), hsize, hlist]
  unfold fieldsAfter
  simp only [List.flatten_cons, List.flatten_nil, List.append_nil, List.append_assoc]
  rfl

theorem total_le (l : List UInt8) : total l ≤ 255 * l.length := by
  induction l with
  | nil => exact Nat.le_refl _
  | cons b l ih =>
    show b.toNat + total l ≤ 255 * (l.length + 1)
    have := b.toNat_lt
    omega

theorem sumOf_le (before after : List (List UInt8)) :
    sumOf before after ≤ 255 * (before.flatten.length + 8 + after.flatten.length) := by
  refine (total_le _).trans_eq ?_
  rw [List.length_append, List.length_append, List.length_replicate]
  omega

/-- The checksum of a header is the sum of its other fields. -/
theorem octets_header : ∃ check : ByteArray, check.size = 8 ∧
    numberOf (octets check) = sumOf (fieldsBefore name mode size) (fieldsAfter type target) ∧
    octets (header name mode size type target) =
      (fieldsBefore name mode size).flatten ++ (octets check ++ (fieldsAfter type target).flatten) := by
  have hsum : total (headerWith "        ".toUTF8 name mode size type target).data.toList =
      sumOf (fieldsBefore name mode size) (fieldsAfter type target) := by
    show total (octets _) = _
    rw [octets_headerWith name mode size type target rfl]
    rfl
  -- the sum of 512 bytes has no more than six octal digits
  have hlt : sumOf (fieldsBefore name mode size) (fieldsAfter type target) < 8 ^ (7 - 1) := by
    refine Nat.lt_of_le_of_lt (sumOf_le _ _) ?_
    rw [List.length_flatten, List.length_flatten, length_fieldsBefore, length_fieldsAfter]
    decide
  refine ⟨octal 7 (sumOf (fieldsBefore name mode size) (fieldsAfter type target)) ++ " ".toUTF8, ?_, ?_, ?_⟩
  · rw [ByteArray.size_append, ← length_octets, length_octal (by decide)]
    rfl
  · rw [octets_append]
    exact numberOf_octal (by decide) hlt _
  · unfold header
    dsimp only
    rw [hsum, octets_headerWith]
    rw [ByteArray.size_append, ← length_octets, length_octal (by decide)]
    rfl

/-- A header is read back. -/
theorem readHeader_header {size : Nat} (hsize : size < 256 ^ 11) (rest : List UInt8) :
    readHeader (octets (header name mode size type target) ++ rest) =
      some (⟨textOf (octets (field tapeWidth name.toUTF8)), size, type.toUInt8,
        textOf (octets (field tapeWidth target.toUTF8))⟩, rest) := by
  obtain ⟨check, hcheck, hvalue, hheader⟩ := octets_header name mode size type target
  have hbefore : parts lengthsBefore ((fieldsBefore name mode size).flatten ++
      (octets check ++ ((fieldsAfter type target).flatten ++ rest))) =
        some (fieldsBefore name mode size, octets check ++ ((fieldsAfter type target).flatten ++ rest)) :=
    parts_flatten (length_fieldsBefore name mode size) rfl
  have hmiddle : parts [8] (octets check ++ ((fieldsAfter type target).flatten ++ rest)) =
      some ([octets check], (fieldsAfter type target).flatten ++ rest) := hcheck ▸ parts_one (octets check) _
  have hafter : parts lengthsAfter ((fieldsAfter type target).flatten ++ rest) = some (fieldsAfter type target, rest) :=
    parts_flatten (length_fieldsAfter type target) rfl
  unfold readHeader
  rw [hheader, List.append_assoc, List.append_assoc, hbefore]
  dsimp only [fieldsBefore]
  rw [hmiddle]
  dsimp only
  rw [hafter]
  dsimp only [fieldsAfter]
  rw [numberOf_number (by decide) hsize]
  exact if_pos hvalue

theorem length_header : (octets (header name mode size type target)).length = blockSize := by
  unfold header headerWith
  exact length_field _ _

theorem type_mem_header : type.toUInt8 ∈ octets (header name mode size type target) := by
  obtain ⟨check, -, -, hheader⟩ := octets_header name mode size type target
  rw [hheader]
  refine List.mem_append_right _ (List.mem_append_right _ ?_)
  exact List.mem_flatten.2 ⟨_, List.mem_cons_self, List.mem_singleton_self _⟩

end

/-! ## Members -/

section
variable {name target : Option (List UInt8)} {rest : List UInt8} {items : List Item}

/-- A record is read as its header and its data. -/
theorem readItems_record (text : String) (mode : Nat) {type : Char} (htype : type.toUInt8 ≠ 0) (link : String)
    {data : ByteArray} (hdata : data.size < 256 ^ 11) (fuel : Nat) :
    readItems (fuel + 1) name target (octets (record text mode type link data) ++ rest) =
      if type.toUInt8 = 'L'.toUInt8 then readItems fuel (some (octets data).dropLast) target rest
      else if type.toUInt8 = 'K'.toUInt8 then readItems fuel name (some (octets data).dropLast) rest
      else match itemOf ⟨textOf (octets (field tapeWidth text.toUTF8)), data.size, type.toUInt8,
          textOf (octets (field tapeWidth link.toUTF8))⟩ name target (octets data) with
        | some item => (readItems fuel none none rest).map (item :: ·)
        | none => none := by
  have hrecord : octets (record text mode type link data) ++ rest =
      octets (header text mode data.size type link) ++ (octets data ++
        (octets (zeros ((blockSize - data.size % blockSize) % blockSize)) ++ rest)) := by
    unfold record fill
    rw [octets_append, octets_append]
    simp only [List.append_assoc]
  -- a header is not the end, where all bytes are zero
  have hend : octets (record text mode type link data) ++ rest ≠ octets (zeros (2 * blockSize)) := by
    intro he
    have hmem : type.toUInt8 ∈ octets (zeros (2 * blockSize)) := by
      rw [← he, hrecord]
      exact List.mem_append_left _ (type_mem_header _ _ _ _ _)
    rw [octets_zeros] at hmem
    exact htype (List.eq_of_mem_replicate hmem)
  have hparts : parts [data.size, (blockSize - data.size % blockSize) % blockSize] (octets data ++
      (octets (zeros ((blockSize - data.size % blockSize) % blockSize)) ++ rest)) =
        some ([octets data, octets (zeros ((blockSize - data.size % blockSize) % blockSize))], rest) := by
    refine parts_flatten ?_ (by simp only [List.flatten_cons, List.flatten_nil, List.append_nil, List.append_assoc])
    rw [List.map_cons, List.map_cons, List.map_nil, length_octets, octets_zeros, List.length_replicate]
  rw [readItems, if_neg hend, hrecord, readHeader_header text mode type link hdata]
  dsimp only
  rw [hparts]

theorem length_record (text : String) (mode : Nat) (type : Char) (link : String) (data : ByteArray) :
    0 < (octets (record text mode type link data)).length := by
  unfold record
  rw [octets_append, List.length_append, length_header]
  show 0 < 512 + _
  omega

/-- What is read of some bytes with as much fuel as they need. -/
def ReadAs (name target : Option (List UInt8)) (cs : List UInt8) (items : List Item) : Prop :=
  ∀ fuel, cs.length < fuel → readItems fuel name target cs = some items

theorem readAs_end : ReadAs none none (octets (zeros (2 * blockSize))) [] := by
  intro fuel hfuel
  obtain ⟨fuel, rfl⟩ := Nat.exists_eq_succ_of_ne_zero (Nat.ne_zero_of_lt hfuel)
  rw [readItems, if_pos rfl, if_pos ⟨rfl, rfl⟩]

/-- A text that is kept outside of the header. -/
def kept (text : String) : Option (List UInt8) :=
  if text.utf8ByteSize ≤ tapeWidth then none else some (octets text.toUTF8)

/-- A text is read from the header, or from what was kept. -/
theorem getD_kept {text : String} (h : isHeld text = true) :
    (kept text).getD (textOf (octets (field tapeWidth text.toUTF8))) = octets text.toUTF8 := by
  unfold kept
  unfold isHeld at h
  split
  · rename_i hshort
    rw [if_pos hshort] at h
    have hzero : ∀ b ∈ octets text.toUTF8, b ≠ 0 := fun b hb =>
      of_decide_eq_true (Array.all_eq_true'.1 h b (Array.mem_def.2 hb))
    rw [Option.getD_none, octets_field (show text.toUTF8.size ≤ tapeWidth from hshort), textOf_append_zeros hzero]
  · rfl

theorem size_lt_of_isHeld {text : String} (h : isHeld text = true) (hlong : ¬ text.utf8ByteSize ≤ tapeWidth) :
    (text.toUTF8 ++ zeros 1).size < 256 ^ 11 := by
  unfold isHeld at h
  rw [if_neg hlong] at h
  rw [ByteArray.size_append]
  exact Nat.lt_trans (of_decide_eq_true h) (by decide)

theorem dropLast_zero (text : String) : (octets (text.toUTF8 ++ zeros 1)).dropLast = octets text.toUTF8 := by
  rw [octets_append, octets_zeros]
  exact List.dropLast_concat

/-- A long name is kept for what comes next. -/
theorem ReadAs.longName {text : String} (h : isHeld text = true) (hrest : ReadAs (kept text) target rest items) :
    ReadAs none target (octets (long 'L' text) ++ rest) items := by
  unfold kept at hrest
  unfold long
  by_cases hshort : text.utf8ByteSize ≤ tapeWidth
  · rw [if_pos hshort] at hrest ⊢
    exact hrest
  · rw [if_neg hshort] at hrest ⊢
    intro fuel hfuel
    obtain ⟨fuel, rfl⟩ := Nat.exists_eq_succ_of_ne_zero (Nat.ne_zero_of_lt hfuel)
    have := length_record "././@LongLink" 0o644 'L' "" (text.toUTF8 ++ zeros 1)
    rw [List.length_append] at hfuel
    rw [readItems_record _ _ (by decide) _ (size_lt_of_isHeld h hshort), if_pos rfl, dropLast_zero]
    exact hrest fuel (by omega)

/-- A long target is kept for what comes next, beside a name. -/
theorem ReadAs.longTarget {text : String} (h : isHeld text = true) (hrest : ReadAs name (kept text) rest items) :
    ReadAs name none (octets (long 'K' text) ++ rest) items := by
  unfold kept at hrest
  unfold long
  by_cases hshort : text.utf8ByteSize ≤ tapeWidth
  · rw [if_pos hshort] at hrest ⊢
    exact hrest
  · rw [if_neg hshort] at hrest ⊢
    intro fuel hfuel
    obtain ⟨fuel, rfl⟩ := Nat.exists_eq_succ_of_ne_zero (Nat.ne_zero_of_lt hfuel)
    have := length_record "././@LongLink" 0o644 'K' "" (text.toUTF8 ++ zeros 1)
    rw [List.length_append] at hfuel
    rw [readItems_record _ _ (by decide) _ (size_lt_of_isHeld h hshort), if_neg (by decide), if_pos rfl, dropLast_zero]
    exact hrest fuel (by omega)

/-- The last record of a member is read as its item, with the texts that were kept. -/
theorem ReadAs.record {text link : String} {mode : Nat} {type : Char} {data : ByteArray} {item : Item}
    (htype : type.toUInt8 ≠ 0 ∧ type.toUInt8 ≠ 'L'.toUInt8 ∧ type.toUInt8 ≠ 'K'.toUInt8)
    (hdata : data.size < 256 ^ 11)
    (hitem : itemOf ⟨textOf (octets (field tapeWidth text.toUTF8)), data.size, type.toUInt8,
      textOf (octets (field tapeWidth link.toUTF8))⟩ name target (octets data) = some item)
    (hrest : ReadAs none none rest items) :
    ReadAs name target (octets (record text mode type link data) ++ rest) (item :: items) := by
  intro fuel hfuel
  obtain ⟨fuel, rfl⟩ := Nat.exists_eq_succ_of_ne_zero (Nat.ne_zero_of_lt hfuel)
  have := length_record text mode type link data
  rw [List.length_append] at hfuel
  rw [readItems_record _ _ htype.1 _ hdata, if_neg htype.2.1, if_neg htype.2.2, hitem]
  dsimp only
  rw [hrest fuel (by omega)]
  rfl

/-- A member is read as its item. -/
theorem ReadAs.member {m : Member} (h : Writer.hasRoom m = true) (hrest : ReadAs none none rest items) :
    ReadAs none none (octets (encodeMember m) ++ rest) (m.item :: items) := by
  obtain ⟨text, body⟩ := m
  unfold Writer.hasRoom at h
  rw [Bool.and_eq_true] at h
  obtain ⟨hname, hbody⟩ := h
  unfold encodeMember
  cases body with
  | file c =>
    have hsize : c.bytes.size < 256 ^ 11 := Nat.lt_trans (of_decide_eq_true hbody) (by decide)
    rw [octets_append, List.append_assoc]
    refine .longName hname (hrest.record (by decide) hsize ?_)
    unfold itemOf
    dsimp only
    rw [if_pos rfl, getD_kept hname]
    rfl
  | link link =>
    rw [octets_append, octets_append, List.append_assoc, List.append_assoc]
    refine .longName hname (.longTarget hbody (hrest.record (by decide) (by decide) ?_))
    unfold itemOf
    dsimp only
    rw [if_neg (by decide), if_pos rfl, getD_kept hname, getD_kept hbody]
    rfl
  | directory =>
    rw [octets_append, List.append_assoc]
    refine .longName hname (hrest.record (by decide) (by decide) ?_)
    unfold itemOf
    dsimp only
    rw [if_neg (by decide), if_neg (by decide), if_pos rfl, getD_kept hname]
    rfl

end

/-! ## Archives -/

theorem readAs_members {ms : List Member} (h : ∀ m ∈ ms, Writer.hasRoom m = true) :
    ReadAs none none (ms.flatMap (fun m => octets (encodeMember m)) ++ octets (zeros (2 * blockSize)))
      (ms.map Member.item) := by
  induction ms with
  | nil => exact readAs_end
  | cons m ms ih =>
    rw [List.forall_mem_cons] at h
    rw [List.flatMap_cons, List.append_assoc, List.map_cons]
    exact (ih h.2).member h.1

theorem foldl_put (w : Writer) (ms : List Member) : octets (ms.foldl Writer.put w).tape =
    octets w.tape ++ ms.flatMap fun m => octets (encodeMember m) := by
  induction ms generalizing w with
  | nil => exact (List.append_nil _).symm
  | cons m ms ih =>
    rw [List.foldl_cons, ih, List.flatMap_cons, ← List.append_assoc]
    show octets (w.tape ++ encodeMember m) ++ _ = _
    rw [octets_append]

/-- A compressed file is unpacked. -/
theorem gunzip_finish (w : Writer) : gunzip (octets w.finish) = some (octets (w.tape ++ zeros (2 * blockSize))) := by
  unfold Writer.finish
  dsimp only
  generalize w.tape ++ zeros (2 * blockSize) = data
  have hlist : octets (concat [littleEndian 4 0x00088B1F, littleEndian 4 0, littleEndian 1 (Writer.levelMark w.level),
      littleEndian 1 0xFF, deflate data, littleEndian 4 (crc32 data), littleEndian 4 data.size]) =
      [octets (littleEndian 4 0x00088B1F), octets (littleEndian 4 0), octets (littleEndian 1 (Writer.levelMark w.level)),
        octets (littleEndian 1 0xFF)].flatten ++ (octets (deflate data) ++
          ([octets (littleEndian 4 (crc32 data)), octets (littleEndian 4 data.size)].flatten ++ [])) := by
    rw [octets_concat]
    simp only [List.map_cons, List.map_nil, List.flatten_cons, List.flatten_nil, List.append_nil, List.append_assoc]
  have hmark : parts [4, 4, 1, 1] _ = _ := parts_flatten
    (by simp only [List.map_cons, List.map_nil, length_littleEndian]) hlist.symm
  have hending : parts [4, 4] ([octets (littleEndian 4 (crc32 data)), octets (littleEndian 4 data.size)].flatten ++ []) =
      some ([octets (littleEndian 4 (crc32 data)), octets (littleEndian 4 data.size)], []) :=
    parts_flatten (by simp only [List.map_cons, List.map_nil, length_littleEndian]) rfl
  unfold gunzip
  rw [hmark]
  dsimp only
  rw [if_pos (by decide), inflate_deflate data (by rw [List.length_append]; omega)]
  dsimp only
  rw [hending]
  dsimp only
  rw [if_pos ⟨valueOf_littleEndian_of_lt (crc32_lt data), valueOf_littleEndian _ _⟩]

/-- What is read of a tape archive are the members that were written. -/
theorem untape_finish {level : Nat} {ms : List Member} (h : ∀ m ∈ ms, Writer.hasRoom m = true) :
    untape (octets (ms.foldl Writer.put (.new level)).finish) = some (ms.map Member.item) := by
  have htape : octets ((ms.foldl Writer.put (.new level)).tape ++ zeros (2 * blockSize)) =
      ms.flatMap (fun m => octets (encodeMember m)) ++ octets (zeros (2 * blockSize)) := by
    rw [octets_append, foldl_put]
    rfl
  unfold untape
  rw [gunzip_finish]
  dsimp only
  rw [htape]
  exact readAs_members h _ (Nat.lt_succ_self _)

end Stowage.Archive.Tape
