/-
Zip archives that are read back. The reader goes over the archive from its start to its end; the members and
the lines of the directory have to agree with each other, and the end with what came before it.
-/
import Stowage.Archive.Zip
import Stowage.Proofs.Archive.Octets

namespace Stowage.Archive.Zip

/-! ## Reading -/

variable {α : Type}

/-- Takes things that each start with a mark, with the number of bytes that are left before each. -/
def many (mark : Nat) (one : List UInt8 → Option (α × List UInt8)) :
    Nat → List UInt8 → Option (List (Nat × α) × List UInt8)
  | 0, _ => none
  | fuel + 1, cs =>
    match parts [4] cs with
    | some ([m], r) =>
      if valueOf m = mark then
        match one r with
        | some (x, r) => (many mark one fuel r).map fun (xs, r) => ((cs.length, x) :: xs, r)
        | none => none
      else some ([], cs)
    | _ => none

/-- The lengths of the fields that a header and a line of the directory have in common. -/
def commonLengths : List Nat := [2, 2, 2, 2, 2, 4, 4, 4, 2, 2]

/-- The data that are packed by a method. -/
def unpackBy (method : Nat) (content : List UInt8) : Option (List UInt8) :=
  if method = 0 then some content
  else if method = 8 then
    match inflate content.length content with
    | some (data, []) => some data
    | _ => none
  else none

/-- Takes a member after its mark: its name and its data, whose checksum and size have to be right. -/
def readMember (cs : List UInt8) : Option ((List UInt8 × List UInt8) × List UInt8) :=
  match parts commonLengths cs with
  | some ([_, _, method, _, _, check, packed, size, name, _], r) =>
    match parts [valueOf name, valueOf packed] r with
    | some ([name, content], r) =>
      match unpackBy (valueOf method) content with
      | some data =>
        if valueOf check = crc32 ⟨data.toArray⟩ ∧ valueOf size = data.length then some ((name, data), r)
        else none
      | none => none
    | _ => none
  | _ => none

/-- A line of the directory. -/
structure Line where
  name : List UInt8
  mode : Nat
  offset : Nat

/-- Takes a line of the directory after its mark. -/
def readLine (cs : List UInt8) : Option (Line × List UInt8) :=
  match parts ([2] ++ commonLengths ++ [2, 2, 2, 4, 4]) cs with
  | some ([_, _, _, _, _, _, _, _, _, name, _, _, _, _, attributes, offset], r) =>
    match parts [valueOf name] r with
    | some ([name], r) => some (⟨name, valueOf attributes / 65536, valueOf offset⟩, r)
    | _ => none
  | _ => none

/-- The kind of a member with a file mode. -/
def kindOf (mode : Nat) : Option Kind :=
  if mode / 0o10000 = 8 then some .file
  else if mode / 0o10000 = 10 then some .link
  else if mode / 0o10000 = 4 then some .directory
  else none

/-- The items of an archive of `total` bytes: every member has a line with its name and its place, in order. -/
def pairUp (total : Nat) : List (Nat × List UInt8 × List UInt8) → List (Nat × Line) → Option (List Item)
  | [], [] => some []
  | (left, name, data) :: members, (_, l) :: lines =>
    if l.name = name ∧ l.offset = (total - left) % 256 ^ 4 then
      match kindOf l.mode with
      | some kind => (pairUp total members lines).map (⟨name, kind, data⟩ :: ·)
      | none => none
    else none
  | _, _ => none

/-- The mark of a member. -/
def memberMark : Nat := 0x04034B50

/-- The mark of a line of the directory. -/
def lineMark : Nat := 0x02014B50

/-- The items of a zip archive. -/
def unzip (cs : List UInt8) : Option (List Item) :=
  match many memberMark readMember (cs.length + 1) cs with
  | some (members, r) =>
    match many lineMark readLine (r.length + 1) r with
    | some (lines, r') =>
      if r' = octets (ending members.length (r.length - r'.length) (cs.length - r.length)) then
        pairUp cs.length members lines
      else none
    | none => none
  | none => none

/-! ## Chains -/

/-- Things one after the other behind a mark: the bytes of each, and what it is. -/
def chain (mark : Nat) (chunks : List (List UInt8 × α)) : List UInt8 :=
  chunks.flatMap fun c => octets (littleEndian 4 mark) ++ c.1

theorem chain_cons (mark : Nat) (c : List UInt8 × α) (chunks : List (List UInt8 × α)) :
    chain mark (c :: chunks) = octets (littleEndian 4 mark) ++ (c.1 ++ chain mark chunks) := by
  unfold chain
  rw [List.flatMap_cons, List.append_assoc]

theorem length_le_chain (mark : Nat) (chunks : List (List UInt8 × α)) :
    chunks.length ≤ (chain mark chunks).length := by
  induction chunks with
  | nil => exact Nat.zero_le _
  | cons c chunks ih =>
    rw [chain_cons, List.length_cons, List.length_append, List.length_append, length_littleEndian]
    omega

/-- What is read of a chain before `rest` more bytes. -/
def placed (mark rest : Nat) : List (List UInt8 × α) → List (Nat × α)
  | [] => []
  | c :: chunks => ((chain mark (c :: chunks)).length + rest, c.2) :: placed mark rest chunks

theorem length_placed (mark rest : Nat) (chunks : List (List UInt8 × α)) :
    (placed mark rest chunks).length = chunks.length := by
  induction chunks with
  | nil => rfl
  | cons c chunks ih => rw [placed, List.length_cons, List.length_cons, ih]

/-- A chain is read up to the next mark. -/
theorem many_chain {mark other : Nat} (hmark : mark < 256 ^ 4) (hother : other < 256 ^ 4) (hne : other ≠ mark)
    {one : List UInt8 → Option (α × List UInt8)} {chunks : List (List UInt8 × α)}
    (hone : ∀ c ∈ chunks, ∀ rest, one (c.1 ++ rest) = some (c.2, rest)) {fuel : Nat}
    (hfuel : chunks.length < fuel) (rest : List UInt8) :
    many mark one fuel (chain mark chunks ++ (octets (littleEndian 4 other) ++ rest)) =
      some (placed mark (octets (littleEndian 4 other) ++ rest).length chunks, octets (littleEndian 4 other) ++ rest) := by
  have hparts : ∀ n r, parts [4] (octets (littleEndian 4 n) ++ r) = some ([octets (littleEndian 4 n)], r) :=
    fun n r => length_littleEndian 4 n ▸ parts_one _ r
  obtain ⟨fuel, rfl⟩ := Nat.exists_eq_succ_of_ne_zero (Nat.ne_zero_of_lt hfuel)
  induction chunks generalizing fuel with
  | nil =>
    show many mark one (fuel + 1) (octets (littleEndian 4 other) ++ rest) = _
    rw [many, hparts]
    dsimp only
    rw [if_neg (by rwa [valueOf_littleEndian_of_lt hother])]
    rfl
  | cons c chunks ih =>
    obtain ⟨fuel, rfl⟩ := Nat.exists_eq_succ_of_ne_zero (n := fuel) (Nat.ne_zero_of_lt (Nat.lt_of_succ_lt_succ hfuel))
    rw [List.forall_mem_cons] at hone
    have hrest := ih hone.2 fuel (Nat.lt_of_succ_lt_succ hfuel)
    have hlength : (chain mark (c :: chunks) ++ (octets (littleEndian 4 other) ++ rest)).length =
        (chain mark (c :: chunks)).length + (octets (littleEndian 4 other) ++ rest).length := List.length_append
    rw [many, hlength, chain_cons, List.append_assoc, hparts]
    dsimp only
    rw [if_pos (valueOf_littleEndian_of_lt hmark), List.append_assoc, hone.1]
    dsimp only
    rw [hrest, ← chain_cons]
    rfl

/-! ## What the writer has written -/

/-- The fields that the header and the line of a member have in common. -/
def commonFields (level : Nat) (m : Member) : List (List UInt8) := [
  octets (littleEndian 2 20), octets (littleEndian 2 0x0800),
  octets (littleEndian 2 (if isStored level m then 0 else 8)), octets (littleEndian 2 0),
  octets (littleEndian 2 0x0021), octets (littleEndian 4 (crc32 (data m))),
  octets (littleEndian 4 (pack level m).content.size), octets (littleEndian 4 (data m).size),
  octets (littleEndian 2 m.name.toUTF8.size), octets (littleEndian 2 0)]

theorem octets_common (level : Nat) (m : Member) : octets (pack level m).common = (commonFields level m).flatten := by
  unfold pack commonFields
  dsimp only
  rw [octets_concat]
  rfl

theorem length_commonFields (level : Nat) (m : Member) :
    (commonFields level m).map List.length = commonLengths := by
  unfold commonFields commonLengths
  simp only [List.map_cons, List.map_nil, length_littleEndian]

/-- A header and what is read of it. -/
def memberChunk (level : Nat) (m : Member) : List UInt8 × List UInt8 × List UInt8 :=
  (octets (pack level m).common ++ (octets m.name.toUTF8 ++ octets (pack level m).content),
    octets m.name.toUTF8, octets (data m))

theorem octets_header (level : Nat) (m : Member) :
    octets (header (pack level m)) = octets (littleEndian 4 memberMark) ++ (memberChunk level m).1 := by
  unfold header memberChunk
  rw [octets_concat]
  simp only [List.map_cons, List.map_nil, List.flatten_cons, List.flatten_nil, List.append_nil]
  rfl

/-- The directory of members that follow each other from `offset` on, and what is read of it. -/
def lineChunks (level : Nat) : Nat → List Member → List (List UInt8 × Line)
  | _, [] => []
  | offset, m :: ms =>
    (octets (littleEndian 2 (3 * 256 + 20)) ++ (octets (pack level m).common ++ (octets (littleEndian 2 0) ++
      (octets (littleEndian 2 0) ++ (octets (littleEndian 2 0) ++ (octets (littleEndian 4 (mode m * 65536)) ++
        (octets (littleEndian 4 offset) ++ octets m.name.toUTF8)))))),
      ⟨octets m.name.toUTF8, mode m, offset % 256 ^ 4⟩) ::
      lineChunks level (offset + (header (pack level m)).size) ms

theorem length_lineChunks (level offset : Nat) (ms : List Member) : (lineChunks level offset ms).length = ms.length := by
  induction ms generalizing offset with
  | nil => rfl
  | cons m ms ih => rw [lineChunks, List.length_cons, List.length_cons, ih]

/-- What some members add to an archive. -/
theorem foldl_put (w : Writer) (ms : List Member) :
    (ms.foldl Writer.put w).level = w.level ∧ (ms.foldl Writer.put w).count = w.count + ms.length ∧
    octets (ms.foldl Writer.put w).body = octets w.body ++ chain memberMark (ms.map (memberChunk w.level)) ∧
    octets (ms.foldl Writer.put w).directory =
      octets w.directory ++ chain lineMark (lineChunks w.level w.body.size ms) := by
  induction ms generalizing w with
  | nil => exact ⟨rfl, rfl, (List.append_nil _).symm, (List.append_nil _).symm⟩
  | cons m ms ih =>
    obtain ⟨hlevel, hcount, hbody, hdirectory⟩ := ih (w.put m)
    have hline : octets (directoryLine (pack w.level m) w.body.size) =
        chain lineMark ((lineChunks w.level w.body.size (m :: ms)).take 1) := by
      unfold directoryLine chain
      rw [octets_concat, lineChunks]
      simp only [List.map_cons, List.map_nil, List.flatten_cons, List.flatten_nil, List.append_nil, List.take_succ_cons,
        List.take_zero, List.flatMap_cons, List.flatMap_nil]
      rfl
    refine ⟨hlevel, hcount.trans ?_, hbody.trans ?_, hdirectory.trans ?_⟩
    · show w.count + 1 + ms.length = w.count + (ms.length + 1)
      omega
    · show octets (w.body ++ header (pack w.level m)) ++ _ = _
      rw [octets_append, octets_header, List.map_cons, chain_cons]
      simp only [List.append_assoc]
      rfl
    · have hsize : (w.put m).body.size = w.body.size + (header (pack w.level m)).size := ByteArray.size_append
      show octets (w.directory ++ directoryLine (pack w.level m) w.body.size) ++ _ = _
      rw [octets_append, hline, hsize, List.append_assoc]
      show octets w.directory ++ (_ ++ chain lineMark (lineChunks w.level _ ms)) = _
      rw [lineChunks, List.take_succ_cons, List.take_zero, chain_cons, chain_cons]
      simp only [List.append_assoc]
      rfl

/-! ## Reading back -/

section
variable {w : Writer} {m : Member}

theorem hasRoom_iff : w.hasRoom m = true ↔ m.name.toUTF8.size < 256 ^ 2 ∧ (data m).size < 256 ^ 4 ∧
    (pack w.level m).content.size < 256 ^ 4 := by
  unfold Writer.hasRoom
  rw [Bool.and_eq_true, Bool.and_eq_true, decide_eq_true_iff, decide_eq_true_iff, decide_eq_true_iff, and_assoc]
  rfl

/-- The content of a member is unpacked by its method. -/
theorem unpackBy_pack (level : Nat) (m : Member) :
    unpackBy (if isStored level m then 0 else 8) (octets (pack level m).content) = some (octets (data m)) := by
  unfold pack unpackBy
  dsimp only
  by_cases hstored : isStored level m = true
  · rw [if_pos hstored, if_pos hstored, if_pos rfl]
  · have hinflate := inflate_deflate (data m) (Nat.le_refl _) []
    rw [List.append_nil] at hinflate
    rw [if_neg hstored, if_neg hstored, if_neg (by decide), if_pos rfl, hinflate]

theorem readMember_chunk (h : w.hasRoom m = true) (rest : List UInt8) :
    readMember ((memberChunk w.level m).1 ++ rest) = some ((memberChunk w.level m).2, rest) := by
  obtain ⟨hname, hdata, hcontent⟩ := hasRoom_iff.1 h
  have hcommon : parts commonLengths ((memberChunk w.level m).1 ++ rest) =
      some (commonFields w.level m, octets m.name.toUTF8 ++ (octets (pack w.level m).content ++ rest)) := by
    refine parts_flatten (length_commonFields w.level m) ?_
    unfold memberChunk
    rw [octets_common]
    simp only [List.append_assoc]
  have hrest : parts [m.name.toUTF8.size, (pack w.level m).content.size]
      (octets m.name.toUTF8 ++ (octets (pack w.level m).content ++ rest)) =
        some ([octets m.name.toUTF8, octets (pack w.level m).content], rest) :=
    parts_flatten rfl (by simp only [List.flatten_cons, List.flatten_nil, List.append_nil, List.append_assoc])
  have hmethod : valueOf (octets (littleEndian 2 (if isStored w.level m then 0 else 8))) =
      if isStored w.level m then 0 else 8 := valueOf_littleEndian_of_lt (by split <;> decide)
  unfold readMember
  rw [hcommon]
  dsimp only [commonFields]
  rw [valueOf_littleEndian_of_lt hname, valueOf_littleEndian_of_lt hcontent, hrest]
  dsimp only
  rw [hmethod, unpackBy_pack]
  dsimp only
  rw [valueOf_littleEndian_of_lt (crc32_lt _), valueOf_littleEndian_of_lt hdata, if_pos ⟨rfl, rfl⟩]
  rfl

theorem mode_lt (m : Member) : mode m * 65536 < 256 ^ 4 := by
  unfold mode
  split <;> decide

theorem readLine_chunk {ms : List Member} (h : ∀ m ∈ ms, m.name.toUTF8.size < 256 ^ 2) (level offset : Nat) :
    ∀ c ∈ lineChunks level offset ms, ∀ rest, readLine (c.1 ++ rest) = some (c.2, rest) := by
  induction ms generalizing offset with
  | nil => nofun
  | cons m ms ih =>
    rw [List.forall_mem_cons] at h
    rw [lineChunks, List.forall_mem_cons]
    refine ⟨fun rest => ?_, ih h.2 _⟩
    have hfields : parts ([2] ++ commonLengths ++ [2, 2, 2, 4, 4]) (((
        octets (littleEndian 2 (3 * 256 + 20)) ++ (octets (pack level m).common ++ (octets (littleEndian 2 0) ++
          (octets (littleEndian 2 0) ++ (octets (littleEndian 2 0) ++ (octets (littleEndian 4 (mode m * 65536)) ++
            (octets (littleEndian 4 offset) ++ octets m.name.toUTF8))))))) ++ rest)) =
        some ([octets (littleEndian 2 (3 * 256 + 20))] ++ commonFields level m ++ [octets (littleEndian 2 0),
          octets (littleEndian 2 0), octets (littleEndian 2 0), octets (littleEndian 4 (mode m * 65536)),
          octets (littleEndian 4 offset)], octets m.name.toUTF8 ++ rest) := by
      refine parts_flatten ?_ ?_
      · rw [List.map_append, List.map_append, length_commonFields]
        simp only [List.map_cons, List.map_nil, length_littleEndian]
      · rw [List.flatten_append, List.flatten_append, octets_common]
        simp only [List.flatten_cons, List.flatten_nil, List.append_nil, List.append_assoc]
    unfold readLine
    rw [hfields]
    dsimp only [commonFields, List.cons_append, List.nil_append]
    rw [valueOf_littleEndian_of_lt h.1, show m.name.toUTF8.size = (octets m.name.toUTF8).length from rfl, parts_one]
    dsimp only
    rw [valueOf_littleEndian_of_lt (mode_lt m), valueOf_littleEndian,
      Nat.mul_div_cancel _ (by decide : 0 < 65536)]

end

theorem item_eq (m : Member) : ∃ kind, kindOf (mode m) = some kind ∧
    m.item = ⟨octets m.name.toUTF8, kind, octets (data m)⟩ := by
  obtain ⟨name, body⟩ := m
  cases body
  · exact ⟨.file, show kindOf 0o100644 = _ by decide, rfl⟩
  · exact ⟨.link, show kindOf 0o120777 = _ by decide, rfl⟩
  · exact ⟨.directory, show kindOf 0o040755 = _ by decide, rfl⟩

/-- The members and their lines belong together. -/
theorem pairUp_chunks {level offset total rest : Nat} {ms : List Member}
    (h : offset + (chain memberMark (ms.map (memberChunk level))).length + rest = total) (rest' : Nat) :
    pairUp total (placed memberMark rest (ms.map (memberChunk level)))
      (placed lineMark rest' (lineChunks level offset ms)) = some (ms.map Member.item) := by
  induction ms generalizing offset with
  | nil => rfl
  | cons m ms ih =>
    obtain ⟨kind, hkind, hitem⟩ := item_eq m
    have hsize : (chain memberMark ((m :: ms).map (memberChunk level))).length =
        (header (pack level m)).size + (chain memberMark (ms.map (memberChunk level))).length := by
      rw [← length_octets, octets_header, List.map_cons, chain_cons, ← List.append_assoc, List.length_append]
    rw [hsize] at h
    have hrest : pairUp total (placed memberMark rest (ms.map (memberChunk level)))
        (placed lineMark rest' (lineChunks level (offset + (header (pack level m)).size) ms)) =
          some (ms.map Member.item) := ih (by omega)
    rw [List.map_cons, placed, lineChunks, placed, pairUp, ← List.map_cons, hsize]
    rw [if_pos ⟨rfl, congrArg (· % 256 ^ 4) (by omega)⟩]
    dsimp only
    rw [hkind]
    dsimp only
    rw [hrest, List.map_cons, hitem]
    rfl

/-! ## Archives -/

/-- The end of an archive starts with a mark of its own. -/
theorem octets_ending (count size offset : Nat) :
    ∃ r, octets (ending count size offset) = octets (littleEndian 4 0x06054B50) ++ r := by
  unfold ending
  rw [octets_concat]
  exact ⟨_, rfl⟩

section
variable {level : Nat} {ms : List Member} (h : ∀ m ∈ ms, (Writer.new level).hasRoom m = true) {fuel : Nat}
  (hfuel : ms.length < fuel) (count size offset : Nat)
include h hfuel

/-- The directory is read up to the end of the archive. -/
theorem many_lines :
    many lineMark readLine fuel (chain lineMark (lineChunks level 0 ms) ++ octets (ending count size offset)) =
      some (placed lineMark (octets (ending count size offset)).length (lineChunks level 0 ms),
        octets (ending count size offset)) := by
  obtain ⟨r, hr⟩ := octets_ending count size offset
  rw [hr]
  exact many_chain (by decide) (by decide) (by decide)
    (readLine_chunk (fun m hm => (hasRoom_iff.1 (h m hm)).1) level 0) (by rwa [length_lineChunks]) r

/-- The members are read up to the directory, or up to the end of the archive if there are none. -/
theorem many_members :
    many memberMark readMember fuel (chain memberMark (ms.map (memberChunk level)) ++
      (chain lineMark (lineChunks level 0 ms) ++ octets (ending count size offset))) =
      some (placed memberMark (chain lineMark (lineChunks level 0 ms) ++ octets (ending count size offset)).length
        (ms.map (memberChunk level)),
        chain lineMark (lineChunks level 0 ms) ++ octets (ending count size offset)) := by
  -- what follows is the line of the first member, or the end
  have hnext : ∃ other r, other < 256 ^ 4 ∧ other ≠ memberMark ∧
      chain lineMark (lineChunks level 0 ms) ++ octets (ending count size offset) =
        octets (littleEndian 4 other) ++ r := by
    cases ms with
    | nil =>
      obtain ⟨r, hr⟩ := octets_ending count size offset
      exact ⟨_, r, by decide, by decide, hr⟩
    | cons m ms =>
      rw [lineChunks, chain_cons, List.append_assoc]
      exact ⟨lineMark, _, by decide, by decide, rfl⟩
  obtain ⟨other, r, hother, hne, hr⟩ := hnext
  rw [hr]
  exact many_chain (by decide) hother hne (List.forall_mem_map.2 fun m hm => readMember_chunk (h m hm))
    (by rwa [List.length_map]) r

end

/-- The bytes of an archive are those of the members, of their lines and of the end. -/
theorem octets_finish (level : Nat) (ms : List Member) :
    ∃ size offset, size = (chain lineMark (lineChunks level 0 ms)).length ∧
      offset = (chain memberMark (ms.map (memberChunk level))).length ∧
      octets (ms.foldl Writer.put (.new level)).finish = chain memberMark (ms.map (memberChunk level)) ++
        (chain lineMark (lineChunks level 0 ms) ++ octets (ending ms.length size offset)) := by
  obtain ⟨-, hcount, hbody, hdirectory⟩ := foldl_put (.new level) ms
  generalize ms.foldl Writer.put (.new level) = w at hcount hbody hdirectory ⊢
  have hcount : w.count = ms.length := hcount.trans (Nat.zero_add _)
  have hbody : octets w.body = chain memberMark (ms.map (memberChunk level)) := hbody
  have hdirectory : octets w.directory = chain lineMark (lineChunks level 0 ms) := hdirectory
  refine ⟨w.directory.size, w.body.size, congrArg List.length hdirectory, congrArg List.length hbody, ?_⟩
  unfold Writer.finish
  rw [octets_concat, ← hbody, ← hdirectory, ← hcount]
  simp only [List.map_cons, List.map_nil, List.flatten_cons, List.flatten_nil, List.append_nil]

/-- What is read of a zip archive are the members that were written. -/
theorem unzip_finish {level : Nat} {ms : List Member} (h : ∀ m ∈ ms, (Writer.new level).hasRoom m = true) :
    unzip (octets (ms.foldl Writer.put (.new level)).finish) = some (ms.map Member.item) := by
  obtain ⟨size, offset, hsize, hoffset, hall⟩ := octets_finish level ms
  -- each member and each line takes up some bytes, so there is fuel for all of them
  have hfew : ms.length ≤ offset ∧ ms.length ≤ size := by
    rw [hsize, hoffset]
    constructor
    · exact (List.length_map (memberChunk level)).symm.trans_le (length_le_chain _ _)
    · exact (length_lineChunks level 0 ms).symm.trans_le (length_le_chain _ _)
  have hbefore : ∀ xs ys : List UInt8, (xs ++ ys).length - ys.length = xs.length := fun xs ys => by
    rw [List.length_append, Nat.add_sub_cancel]
  unfold unzip
  rw [hall, many_members h (by rw [List.length_append]; omega)]
  dsimp only
  rw [many_lines h (by rw [List.length_append]; omega)]
  dsimp only
  rw [if_pos]
  · refine pairUp_chunks ?_ _
    rw [Nat.zero_add, ← List.length_append]
  · rw [length_placed, List.length_map, hbefore, hbefore, ← hsize, ← hoffset]

end Stowage.Archive.Zip
