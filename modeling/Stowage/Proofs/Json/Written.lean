/-
Values that are written over several lines, as a reader finds them. A string is read back as it is. Lists and objects
are read line by line, each line by what it holds, up to what ends it: a comma, a line break or a closing bracket.
-/
import Stowage.Proofs.Json.Numerals

namespace Stowage.Json

variable {α σ : Type}

/-! ## Strings -/

theorem hexValue_hexDigit (n : Nat) : hexValue (hexDigit n) = some (n % 16) := by
  have hall : ∀ m < 16, hexValue (hexDigit m) = some m := by decide
  have hmod : hexDigit n = hexDigit (n % 16) := by unfold hexDigit; rw [Nat.mod_mod]
  rw [hmod]
  exact hall _ (Nat.mod_lt _ (by decide))

/-- An escape that is written as a unit stands for its character. -/
theorem escapeSequence_unit {c : Char} (hc : c.toNat < 32) (rest : List Char) :
    escapeSequence false ('u' :: '0' :: '0' :: hexDigit (c.toNat / 16) :: hexDigit c.toNat :: rest) =
      .ok (c, rest) := by
  have hunit : hexUnit ('0' :: '0' :: hexDigit (c.toNat / 16) :: hexDigit c.toNat :: rest) = .ok (c.toNat, rest) := by
    have hvalue : ((0 * 16 + 0) * 16 + c.toNat / 16 % 16) * 16 + c.toNat % 16 = c.toNat := by omega
    unfold hexUnit
    simp only [show hexValue '0' = some 0 from by decide, hexValue_hexDigit, hvalue]
  have htrailing : isTrailing c.toNat = false := by unfold isTrailing; simp; omega
  have hleading : isLeading c.toNat = false := by unfold isLeading; simp; omega
  show (hexUnit _ >>= _) = _
  rw [hunit]
  show (if isTrailing c.toNat = true then _ else _) = _
  rw [htrailing, if_neg Bool.false_ne_true]
  show (if (!isLeading c.toNat) = true then _ else _) = _
  rw [hleading, Bool.not_false, if_pos rfl, Char.ofNat_toNat]
  rfl

/-- A character that is written is read back. -/
theorem stringTail_escape (c : Char) (fuel : Nat) (acc rest : List Char) :
    stringTail false (fuel + 1) acc (escape c ++ rest) = stringTail false fuel (c :: acc) rest := by
  by_cases hquote : c = '"'
  · subst hquote; rfl
  by_cases hslash : c = '\\'
  · subst hslash; rfl
  by_cases hbreak : c = '\n'
  · subst hbreak; rfl
  by_cases hreturn : c = '\r'
  · subst hreturn; rfl
  by_cases htab : c = '\t'
  · subst htab; rfl
  by_cases hback : c = '\x08'
  · subst hback; rfl
  by_cases hfeed : c = '\x0c'
  · subst hfeed; rfl
  unfold escape
  rw [if_neg hquote, if_neg hslash, if_neg hbreak, if_neg hreturn, if_neg htab, if_neg hback, if_neg hfeed]
  by_cases hc : c.toNat < 32
  · rw [if_pos hc]
    show (escapeSequence false ('u' :: '0' :: '0' :: hexDigit (c.toNat / 16) :: hexDigit c.toNat :: rest) >>= _) = _
    rw [escapeSequence_unit hc]
    rfl
  · rw [if_neg hc]
    show stringTail false (fuel + 1) acc (c :: rest) = _
    rw [stringTail]
    · rw [if_neg hc]
    · exact fun h => hquote h
    · exact fun h => hslash h

theorem length_le_flatMap_escape (cs : List Char) : cs.length ≤ (cs.flatMap escape).length := by
  induction cs with
  | nil => exact Nat.le_refl _
  | cons c cs ih =>
    have hescape : 1 ≤ (escape c).length := by
      unfold escape
      repeat' split
      all_goals simp
    rw [List.flatMap_cons, List.length_append, List.length_cons]
    omega

theorem stringTail_escapes (cs : List Char) {fuel : Nat} (acc rest : List Char) (h : cs.length < fuel) :
    stringTail false fuel acc (cs.flatMap escape ++ '"' :: rest) = .ok (String.ofList (acc.reverse ++ cs), rest) := by
  induction cs generalizing fuel acc with
  | nil =>
    obtain ⟨fuel, rfl⟩ := Nat.exists_eq_add_of_lt h
    rw [List.append_nil]
    rfl
  | cons c cs ih =>
    rcases fuel with _ | fuel
    · cases h
    · rw [List.flatMap_cons, List.append_assoc, stringTail_escape, ih (c :: acc) (Nat.lt_of_succ_lt_succ h)]
      simp

/-- A written string is read back, after its opening quote. -/
theorem quoted_escapes (s : String) (rest : List Char) :
    quoted (s.toList.flatMap escape ++ '"' :: rest) = .ok (s, rest) := by
  have hlength : s.toList.length < (s.toList.flatMap escape ++ '"' :: rest).length + 1 := by
    have := length_le_flatMap_escape s.toList
    rw [List.length_append]
    omega
  unfold quoted
  rw [stringTail_escapes s.toList [] rest hlength, List.reverse_nil, List.nil_append, String.ofList_toList]

theorem toList_writeString (s : String) : (writeString s).toList = '"' :: (s.toList.flatMap escape ++ ['"']) := by
  simp only [writeString, String.toList_append, String.toList_ofList]
  rfl

/-! ## Blanks -/

theorem skipBlanks_append {bs : List Char} (h : ∀ b ∈ bs, isBlank b = true) (cs : List Char) :
    skipBlanks (bs ++ cs) = skipBlanks cs := List.dropWhile_append_of_pos h

theorem skipBlanks_cons {c : Char} (h : isBlank c = false) (cs : List Char) : skipBlanks (c :: cs) = c :: cs := by
  unfold skipBlanks
  rw [List.dropWhile_cons, h]
  rfl

/-- The start of a line. -/
def lineStart (level : Nat) : List Char := '\n' :: List.replicate (2 * level) ' '

theorem toList_indent (level : Nat) : (indent level).toList = lineStart level := by
  simp only [indent, String.toList_append, String.toList_ofList]
  rfl

theorem skipBlanks_lineStart (level : Nat) (cs : List Char) : skipBlanks (lineStart level ++ cs) = skipBlanks cs := by
  refine skipBlanks_append (fun b hb => ?_) cs
  rcases List.mem_cons.1 hb with rfl | hb
  · rfl
  · rw [(List.mem_replicate.1 hb).2]
    rfl

theorem ended_lineStart (level : Nat) (cs : List Char) : Ended (lineStart level ++ cs) := startsWithout_cons rfl _

/-- The text starts with a character that is no blank and closes nothing. -/
def Opens (cs : List Char) : Prop := ∃ c r, cs = c :: r ∧ isBlank c = false ∧ c ≠ ']' ∧ c ≠ '\x7d'

theorem Opens.skipBlanks {cs : List Char} (h : Opens cs) (rest : List Char) :
    skipBlanks (cs ++ rest) = cs ++ rest := by
  obtain ⟨c, r, rfl, hc, -⟩ := h
  exact skipBlanks_cons hc _

/-! ## Lines between brackets -/

/-- Lines after the first one, up to a closing bracket. -/
def following (level : Nat) (lines : List (List Char)) (closing : List Char) : List Char :=
  lines.flatMap (fun l => ',' :: (lineStart (level + 1) ++ l)) ++ (lineStart level ++ closing)

/-- Lines after an opening bracket, up to a closing one. -/
def between (level : Nat) (lines : List (List Char)) (closing : List Char) : List Char :=
  match lines with
  | [] => closing
  | l :: lines => lineStart (level + 1) ++ (l ++ following level lines closing)

theorem following_cons (level : Nat) (l : List Char) (lines : List (List Char)) (closing : List Char) :
    following level (l :: lines) closing =
      ',' :: (lineStart (level + 1) ++ (l ++ following level lines closing)) := by
  unfold following
  rw [List.flatMap_cons, List.cons_append, List.cons_append, List.append_assoc, List.append_assoc]

theorem between_append (level : Nat) (lines : List (List Char)) (closing rest : List Char) :
    between level lines closing ++ rest = between level lines (closing ++ rest) := by
  rcases lines with _ | ⟨l, lines⟩
  · rfl
  · simp only [between, following, List.append_assoc]

theorem ended_following (level : Nat) (lines : List (List Char)) (closing : List Char) :
    Ended (following level lines closing) := by
  rcases lines with _ | ⟨l, lines⟩
  · exact ended_lineStart level closing
  · exact startsWithout_cons rfl _

theorem length_lt_following (level : Nat) (lines : List (List Char)) (closing : List Char) :
    lines.length < (following level lines closing).length := by
  induction lines with
  | nil => simp [following, lineStart]
  | cons l lines ih =>
    rw [following_cons, List.length_cons, List.length_cons, List.length_append, List.length_append]
    omega

theorem length_lt_between (level : Nat) (l : List Char) (lines : List (List Char)) (closing : List Char) :
    lines.length < (between level (l :: lines) closing).length := by
  have hlength := length_lt_following level lines closing
  rw [between, List.length_append, List.length_append]
  omega

theorem intercalate_cons (sep first : List Char) (rest : List (List Char)) :
    sep.intercalate (first :: rest) = first ++ rest.flatMap (sep ++ ·) := by
  induction rest generalizing first with
  | nil => simp
  | cons l rest ih => rw [List.intercalate_cons_cons, ih, List.flatMap_cons, List.append_assoc, List.append_assoc]

/-- What stands between brackets is written line by line. -/
theorem toList_enclose (level : Nat) (opening closing : String) (lines : List String) :
    (enclose level opening closing lines).toList =
      opening.toList ++ between level (lines.map String.toList) closing.toList := by
  have hsep : ("," ++ indent (level + 1)).toList = ',' :: lineStart (level + 1) := by
    rw [String.toList_append, toList_indent]
    rfl
  unfold enclose
  rcases lines with _ | ⟨line, lines⟩
  · rw [if_pos List.isEmpty_nil, String.toList_append]
    rfl
  · rw [List.isEmpty_cons, if_neg Bool.false_ne_true]
    simp only [between, following, String.toList_append, toList_indent, String.toList_intercalate, hsep, List.map_cons,
      intercalate_cons, List.append_assoc, List.cons_append]

theorem skipBlanks_opens {cs : List Char} (h : Opens cs) (level : Nat) (rest : List Char) :
    skipBlanks (lineStart level ++ (cs ++ rest)) = cs ++ rest := by
  rw [skipBlanks_lineStart, h.skipBlanks]

theorem prettyItems_eq (level : Nat) (items : List Json) : prettyItems level items = items.map (prettyAt level) := by
  induction items with
  | nil => rfl
  | cons v items ih => rw [prettyItems, List.map_cons, ih]

theorem prettyMembers_eq (level : Nat) (members : List (String × Json)) : prettyMembers level members =
    members.map fun m => writeString m.1 ++ ": " ++ prettyAt level m.2 := by
  induction members with
  | nil => rfl
  | cons m members ih => rw [prettyMembers, List.map_cons, ih]

/-! ## Lists -/

theorem toList_prettyArray (level : Nat) (items : List Json) : (prettyAt level (.array items)).toList =
    '[' :: between level (items.map fun v => (prettyAt (level + 1) v).toList) [']'] := by
  rw [prettyAt, toList_enclose, prettyItems_eq, List.map_map]
  rfl

/-- The items of a list from one of them on. -/
def itemsFrom (item : Reader α) (fuel : Nat) : Reader (List α) := fun cs => do
  let (x, r) ← item cs
  let (xs, r) ← items item fuel false r
  return (x :: xs, r)

theorem items_first {item : Reader α} {cs : List Char} (h : Opens cs) (fuel level : Nat) (rest : List Char) :
    items item (fuel + 1) true (lineStart level ++ (cs ++ rest)) = itemsFrom item fuel (cs ++ rest) := by
  have hskip := skipBlanks_opens h level rest
  obtain ⟨c, r, rfl, -, hlist, -⟩ := h
  rw [items, hskip]
  split
  · contradiction
  · rename_i heq
    exact absurd (List.cons.inj heq).1 hlist
  · rename_i heq
    cases heq
    rfl

theorem items_next {item : Reader α} {cs : List Char} (h : Opens cs) (fuel level : Nat) (rest : List Char) :
    items item (fuel + 1) false (',' :: (lineStart level ++ (cs ++ rest))) = itemsFrom item fuel (cs ++ rest) := by
  have hskip := skipBlanks_opens h level rest
  obtain ⟨c, r, rfl, -, hlist, -⟩ := h
  rw [items, skipBlanks_cons (by decide)]
  split
  · contradiction
  · rename_i heq
    exact absurd (List.cons.inj heq).1 (by decide)
  · rename_i heq
    cases heq
    rw [if_neg Bool.false_ne_true, if_neg fun h => h rfl, hskip]
    split
    · contradiction
    · rename_i heq
      exact absurd (List.cons.inj heq).1 hlist
    · rfl

section
variable {β : Type} {item : Reader α} {text : β → List Char} {result : β → Except Fault α} {xs : List β}

/-- Items are read one by one if the first one is and what follows it is. -/
theorem itemsFrom_append {x : β} {fuel : Nat} {more rest : List Char} (hx : Reads item (text x) (result x))
    (hmore : Ended more) (hxs : items item fuel false more = (xs.mapM result).map (·, rest)) :
    itemsFrom item fuel (text x ++ more) = ((x :: xs).mapM result).map (·, rest) := by
  rw [itemsFrom, hx more hmore, List.mapM_cons]
  rcases result x with e | y
  · rfl
  · show (items item fuel false more >>= _) = _
    rw [hxs]
    rcases xs.mapM result with e | ys <;> rfl

/-- The rest of a list is read line by line. -/
theorem items_following (level : Nat) (hopens : ∀ x ∈ xs, Opens (text x))
    (hread : ∀ x ∈ xs, Reads item (text x) (result x)) {fuel : Nat} (hfuel : xs.length < fuel) (rest : List Char) :
    items item fuel false (following level (xs.map text) (']' :: rest)) = (xs.mapM result).map (·, rest) := by
  induction xs generalizing fuel with
  | nil =>
    obtain ⟨fuel, rfl⟩ := Nat.exists_eq_add_of_lt hfuel
    show items item (0 + fuel + 1) false (lineStart level ++ ']' :: rest) = _
    rw [items, skipBlanks_lineStart, skipBlanks_cons (by decide)]
    rfl
  | cons x xs ih =>
    rcases fuel with _ | fuel
    · cases hfuel
    rw [List.forall_mem_cons] at hopens hread
    rw [List.map_cons, following_cons, items_next hopens.1]
    exact itemsFrom_append hread.1 (ended_following _ _ _) (ih hopens.2 hread.2 (Nat.lt_of_succ_lt_succ hfuel))

/-- A written list is read line by line. -/
theorem items_between (level : Nat) (hopens : ∀ x ∈ xs, Opens (text x))
    (hread : ∀ x ∈ xs, Reads item (text x) (result x)) (rest : List Char) :
    items item ((between level (xs.map text) (']' :: rest)).length + 1) true
        (between level (xs.map text) (']' :: rest)) = (xs.mapM result).map (·, rest) := by
  rcases xs with _ | ⟨x, xs⟩
  · rw [List.map_nil, between, items, skipBlanks_cons (by decide)]
    rfl
  · -- the fuel is the length of the text, which has at least a character for each line
    have hfuel := length_lt_between level (text x) (xs.map text) (']' :: rest)
    rw [List.length_map] at hfuel
    rw [List.forall_mem_cons] at hopens hread
    rw [List.map_cons]
    generalize (between level (text x :: xs.map text) (']' :: rest)).length = fuel at hfuel ⊢
    rw [between, items_first hopens.1]
    exact itemsFrom_append hread.1 (ended_following _ _ _) (items_following level hopens.2 hread.2 hfuel rest)

end

/-! ## Objects -/

/-- A member of a written object and what a reader makes of it. -/
structure Line (σ : Type) where
  member : String × Json
  step : σ → Except Fault σ

/-- The text of the value of a member. -/
def Line.text (level : Nat) (l : Line σ) : List Char := (prettyAt level l.member.2).toList

/-- The text of a member. -/
def Line.chars (level : Nat) (l : Line σ) : List Char := (writeString l.member.1).toList ++ ':' :: ' ' :: l.text level

/-- The reader of members takes a line as what it says. -/
def Line.ReadBy (level : Nat) (member : σ → String → Reader σ) (l : Line σ) : Prop :=
  ∀ s, Reads (member s l.member.1) (':' :: ' ' :: l.text level) (l.step s)

theorem Line.chars_append (level : Nat) (l : Line σ) (rest : List Char) : l.chars level ++ rest =
    '"' :: (l.member.1.toList.flatMap escape ++ '"' :: ':' :: ' ' :: (l.text level ++ rest)) := by
  unfold Line.chars
  rw [toList_writeString]
  simp

/-- What the lines make of a state, one after the other. -/
def Line.run (lines : List (Line σ)) (s : σ) : Except Fault σ := lines.foldlM (fun s (l : Line σ) => l.step s) s

theorem Line.run_cons (l : Line σ) (lines : List (Line σ)) (s : σ) :
    Line.run (l :: lines) s = l.step s >>= Line.run lines := rfl

theorem opens_chars (level : Nat) (l : Line σ) : Opens (l.chars level) := by
  unfold Line.chars
  rw [toList_writeString]
  exact ⟨'"', _, rfl, by decide, by decide, by decide⟩

/-- The members of an object from one of them on. -/
def membersFrom (member : σ → String → Reader σ) (fuel : Nat) (s : σ) (name : String) : Reader σ := fun cs => do
  let (s, r) ← member s name cs
  members quoted member fuel false s r

/-- A written object is its lines. -/
theorem toList_prettyObject (level : Nat) (lines : List (Line σ)) :
    (prettyAt level (.object (lines.map Line.member))).toList =
      '\x7b' :: between level (lines.map (Line.chars (level + 1))) ['\x7d'] := by
  have hline : (String.toList ∘ fun m : String × Json => writeString m.1 ++ ": " ++ prettyAt (level + 1) m.2) ∘
      Line.member = Line.chars (σ := σ) (level + 1) := by
    funext l
    show (writeString l.member.1 ++ ": " ++ prettyAt (level + 1) l.member.2).toList = _
    rw [String.toList_append, String.toList_append, List.append_assoc]
    rfl
  rw [prettyAt, toList_enclose, prettyMembers_eq, List.map_map, List.map_map, hline]
  rfl

theorem members_first (member : σ → String → Reader σ) (l : Line σ) (fuel outer level : Nat) (s : σ)
    (rest : List Char) :
    members quoted member (fuel + 1) true s (lineStart outer ++ (l.chars level ++ rest)) =
      membersFrom member fuel s l.member.1 ((':' :: ' ' :: l.text level) ++ rest) := by
  have hskip := skipBlanks_opens (opens_chars level l) outer rest
  rw [members, hskip, l.chars_append level]
  show (quoted (l.member.1.toList.flatMap escape ++ '"' :: (':' :: ' ' :: (l.text level ++ rest))) >>= _) = _
  rw [quoted_escapes]
  rfl

theorem members_next (member : σ → String → Reader σ) (l : Line σ) (fuel outer level : Nat) (s : σ)
    (rest : List Char) :
    members quoted member (fuel + 1) false s (',' :: (lineStart outer ++ (l.chars level ++ rest))) =
      membersFrom member fuel s l.member.1 ((':' :: ' ' :: l.text level) ++ rest) := by
  have hskip := skipBlanks_opens (opens_chars level l) outer rest
  rw [members, skipBlanks_cons (by decide)]
  split
  · contradiction
  · rename_i heq
    exact absurd (List.cons.inj heq).1 (by decide)
  · rename_i heq
    cases heq
    rw [if_neg Bool.false_ne_true, if_pos rfl, hskip, l.chars_append level]
    show (quoted (l.member.1.toList.flatMap escape ++ '"' :: (':' :: ' ' :: (l.text level ++ rest))) >>= _) = _
    rw [quoted_escapes]
    rfl

section
variable {member : σ → String → Reader σ} {lines : List (Line σ)}

/-- The rest of an object is read line by line. -/
theorem members_following (level : Nat) (hread : ∀ l ∈ lines, l.ReadBy (level + 1) member) {fuel : Nat}
    (hfuel : lines.length < fuel) (s : σ) (rest : List Char) :
    members quoted member fuel false s (following level (lines.map (Line.chars (level + 1))) ('\x7d' :: rest)) =
      (Line.run lines s).map (·, rest) := by
  induction lines generalizing fuel s with
  | nil =>
    obtain ⟨fuel, rfl⟩ := Nat.exists_eq_add_of_lt hfuel
    show members quoted member (0 + fuel + 1) false s (lineStart level ++ '\x7d' :: rest) = _
    rw [members, skipBlanks_lineStart, skipBlanks_cons (by decide)]
    rfl
  | cons l lines ih =>
    rcases fuel with _ | fuel
    · cases hfuel
    rw [List.forall_mem_cons] at hread
    rw [List.map_cons, following_cons, members_next, membersFrom, hread.1 _ _ (ended_following _ _ _),
      Line.run_cons]
    rcases l.step s with e | t
    · rfl
    · exact ih hread.2 (Nat.lt_of_succ_lt_succ hfuel) t

/-- A written object is read line by line. -/
theorem members_between (level : Nat) (hread : ∀ l ∈ lines, l.ReadBy (level + 1) member) (s : σ) (rest : List Char) :
    members quoted member ((between level (lines.map (Line.chars (level + 1))) ('\x7d' :: rest)).length + 1) true s
        (between level (lines.map (Line.chars (level + 1))) ('\x7d' :: rest)) =
      (Line.run lines s).map (·, rest) := by
  rcases lines with _ | ⟨l, lines⟩
  · rw [List.map_nil, between, members, skipBlanks_cons (by decide)]
    rfl
  · -- the fuel is the length of the text, which has at least a character for each line
    have hfuel := length_lt_between level (l.chars (level + 1)) (lines.map (Line.chars (level + 1))) ('\x7d' :: rest)
    rw [List.length_map] at hfuel
    rw [List.forall_mem_cons] at hread
    rw [List.map_cons]
    generalize (between level (l.chars (level + 1) :: lines.map (Line.chars (level + 1))) ('\x7d' :: rest)).length =
      fuel at hfuel ⊢
    rw [between, members_first, membersFrom, hread.1 _ _ (ended_following _ _ _), Line.run_cons]
    rcases l.step s with e | t
    · rfl
    · exact members_following level hread.2 hfuel t rest

end

end Stowage.Json
