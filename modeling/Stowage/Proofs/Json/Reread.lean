/-
Values that are written over several lines and read again. All of a value is read back but its doubles, each of which is
read with the rounding of its text, so that a value comes back exactly if all of its numbers do.

A value that is read nests no deeper than readers go and holds each name once, and so does what is read from its text.
-/
import Stowage.Proofs.Json.Written

namespace Stowage.Json

variable {α σ : Type}

/-! ## Numbers in values -/

/-- The number is read back from its text. -/
def Number.Restored (n : Number) : Prop := parse numeral (writeNumber n) = .ok n

instance (n : Number) : Decidable n.Restored :=
  match h : parse numeral (writeNumber n) with
  | .ok m => if hm : m = n then .isTrue (h.trans (congrArg Except.ok hm)) else
      .isFalse fun hn => hm (Except.ok.inj (h.symm.trans hn))
  | .error _ => .isFalse fun hn => nomatch h.symm.trans hn

mutual

/-- The numbers in a value. -/
def numbers : Json → List Number
  | .number n => [n]
  | .array items => numbersOfItems items
  | .object members => numbersOfMembers members
  | _ => []

def numbersOfItems : List Json → List Number
  | [] => []
  | v :: r => v.numbers ++ numbersOfItems r

def numbersOfMembers : List (String × Json) → List Number
  | [] => []
  | (_, v) :: r => v.numbers ++ numbersOfMembers r

end

mutual

/-- What is read from the text of a value. -/
def reread : Json → Except Fault Json
  | .number n => (parse numeral (writeNumber n)).map .number
  | .array items => (rereadItems items).map .array
  | .object members => (rereadMembers members).map .object
  | v => .ok v

def rereadItems : List Json → Except Fault (List Json)
  | [] => .ok []
  | v :: r => do
    let v ← v.reread
    return v :: (← rereadItems r)

def rereadMembers : List (String × Json) → Except Fault (List (String × Json))
  | [] => .ok []
  | (k, v) :: r => do
    let v ← v.reread
    return (k, v) :: (← rereadMembers r)

end

theorem map_eq_ok {ε β : Type} {f : α → β} (hf : Function.Injective f) {r : Except ε α} {x : α} :
    r.map f = .ok (f x) ↔ r = .ok x := by
  rcases r with e | y
  · exact ⟨nofun, nofun⟩
  · exact ⟨fun h => congrArg _ (hf (Except.ok.inj h)), fun h => congrArg (Except.map f) h⟩

mutual

/-- A value is read back exactly if all of its numbers are. -/
theorem reread_eq_ok : (v : Json) → (v.reread = .ok v ↔ ∀ n ∈ v.numbers, n.Restored)
  | .null => ⟨fun _ => nofun, fun _ => rfl⟩
  | .bool _ => ⟨fun _ => nofun, fun _ => rfl⟩
  | .string _ => ⟨fun _ => nofun, fun _ => rfl⟩
  | .number n => by
    rw [numbers, List.forall_mem_singleton, reread, map_eq_ok fun _ _ => Json.number.inj]
    rfl
  | .array items => by
    rw [numbers, reread, map_eq_ok fun _ _ => Json.array.inj]
    exact rereadItems_eq_ok items
  | .object members => by
    rw [numbers, reread, map_eq_ok fun _ _ => Json.object.inj]
    exact rereadMembers_eq_ok members

theorem rereadItems_eq_ok : (items : List Json) →
    (rereadItems items = .ok items ↔ ∀ n ∈ numbersOfItems items, n.Restored)
  | [] => ⟨fun _ => nofun, fun _ => rfl⟩
  | v :: items => by
    rw [numbersOfItems, List.forall_mem_append, ← reread_eq_ok v, ← rereadItems_eq_ok items, rereadItems]
    rcases v.reread with e | x
    · exact ⟨nofun, fun h => nomatch h.1⟩
    · rcases rereadItems items with e | xs
      · exact ⟨nofun, fun h => nomatch h.2⟩
      · show Except.ok (x :: xs) = Except.ok (v :: items) ↔ _
        simp only [Except.ok.injEq, List.cons.injEq]

theorem rereadMembers_eq_ok : (members : List (String × Json)) →
    (rereadMembers members = .ok members ↔ ∀ n ∈ numbersOfMembers members, n.Restored)
  | [] => ⟨fun _ => nofun, fun _ => rfl⟩
  | (k, v) :: members => by
    rw [numbersOfMembers, List.forall_mem_append, ← reread_eq_ok v, ← rereadMembers_eq_ok members, rereadMembers]
    rcases v.reread with e | x
    · exact ⟨nofun, fun h => nomatch h.1⟩
    · rcases rereadMembers members with e | xs
      · exact ⟨nofun, fun h => nomatch h.2⟩
      · show Except.ok ((k, x) :: xs) = Except.ok ((k, v) :: members) ↔ _
        simp only [Except.ok.injEq, List.cons.injEq, Prod.mk.injEq, true_and]

end

/-- What is read from a list of values. -/
theorem rereadItems_eq (items : List Json) : rereadItems items = items.mapM reread := by
  induction items with
  | nil => rfl
  | cons v items ih => rw [rereadItems, List.mapM_cons, ih]

/-- The members that are read have the names that are written. -/
theorem keys_rereadMembers {members read : List (String × Json)} (h : rereadMembers members = .ok read) :
    read.map Prod.fst = members.map Prod.fst := by
  induction members generalizing read with
  | nil =>
    cases h
    rfl
  | cons m members ih =>
    obtain ⟨k, v⟩ := m
    rw [rereadMembers] at h
    rcases hv : v.reread with e | x
    · rw [hv] at h
      cases h
    · rcases hrest : rereadMembers members with e | xs
      · rw [hv, hrest] at h
        cases h
      · rw [hv, hrest] at h
        cases h
        rw [List.map_cons, List.map_cons, ih hrest]

/-! ## Texts of values -/

theorem toList_prettyNull (level : Nat) : (prettyAt level .null).toList = ['n', 'u', 'l', 'l'] := by
  simp [prettyAt, compact]

theorem toList_prettyBool (level : Nat) (b : Bool) : (prettyAt level (.bool b)).toList =
    if b then ['t', 'r', 'u', 'e'] else ['f', 'a', 'l', 's', 'e'] := by
  cases b <;> simp [prettyAt, compact]

theorem toList_prettyString (level : Nat) (s : String) :
    (prettyAt level (.string s)).toList = '"' :: (s.toList.flatMap escape ++ ['"']) := toList_writeString s

/-- The line of a member that is taken in front of those before it. -/
def collected (m : String × Json) : Line (List (String × Json)) :=
  ⟨m, fun acc => m.2.reread.map fun v => (m.1, v) :: acc⟩

theorem map_collected (members : List (String × Json)) : (members.map collected).map Line.member = members := by
  rw [List.map_map]
  exact List.map_id members

/-- A number starts with a digit or its sign. -/
theorem first_writeNumber (n : Number) : ∃ c r, (writeNumber n).toList = c :: r ∧ (c = '-' ∨ isDigit c = true) := by
  obtain ⟨g, hg, htext⟩ := writeNumber_text n
  obtain ⟨c, cs, hc⟩ := List.exists_cons_of_ne_nil hg.whole.ne_nil
  rw [htext]
  unfold Digits.text signed
  rw [hc]
  split
  · exact ⟨'-', _, rfl, .inl rfl⟩
  · exact ⟨c, _, rfl, .inr (hg.whole.all c (hc ▸ List.mem_cons_self ..))⟩

theorem opens_number {c : Char} (h : c = '-' ∨ isDigit c = true) (r : List Char) : Opens (c :: r) := by
  rcases h with rfl | h
  · exact ⟨'-', r, rfl, by decide, by decide, by decide⟩
  · refine ⟨c, r, rfl, ?_, ne_of_isDigit h (by decide), ne_of_isDigit h (by decide)⟩
    unfold isBlank
    simp [ne_of_isDigit h (c := ' ') (by decide), ne_of_isDigit h (c := '\n') (by decide),
      ne_of_isDigit h (c := '\r') (by decide), ne_of_isDigit h (c := '\t') (by decide)]

theorem opens_prettyAt (level : Nat) (v : Json) : Opens (prettyAt level v).toList := by
  cases v with
  | null =>
    rw [toList_prettyNull]
    exact ⟨'n', _, rfl, by decide, by decide, by decide⟩
  | bool b =>
    rw [toList_prettyBool]
    cases b
    · exact ⟨'f', _, rfl, by decide, by decide, by decide⟩
    · exact ⟨'t', _, rfl, by decide, by decide, by decide⟩
  | number n =>
    obtain ⟨c, r, htext, hc⟩ := first_writeNumber n
    show Opens (writeNumber n).toList
    rw [htext]
    exact opens_number hc r
  | string s =>
    rw [toList_prettyString]
    exact ⟨'"', _, rfl, by decide, by decide, by decide⟩
  | array items =>
    rw [toList_prettyArray]
    exact ⟨'[', _, rfl, by decide, by decide, by decide⟩
  | object members =>
    rw [← map_collected members, toList_prettyObject]
    exact ⟨'\x7b', _, rfl, by decide, by decide, by decide⟩

/-! ## Reading values back -/

/-- The value nests at most that deep, holds each name once and has numbers that can be read. -/
inductive Proper : Nat → Json → Prop where
  | null {depth} : Proper depth .null
  | bool {depth} (b : Bool) : Proper depth (.bool b)
  | number {depth} {n : Number} (h : n.InRange) : Proper depth (.number n)
  | string {depth} (s : String) : Proper depth (.string s)
  | array {depth} {items : List Json} (h : ∀ v ∈ items, Proper depth v) : Proper (depth + 1) (.array items)
  | object {depth} {members : List (String × Json)} (hnames : (members.map Prod.fst).Nodup)
      (h : ∀ m ∈ members, Proper depth m.2) : Proper (depth + 1) (.object members)

theorem value_blank (depth : Nat) (cs : List Char) : value depth (' ' :: cs) = value depth cs := by
  unfold value valueWith
  rfl

theorem valueWith_number (unify : List (String × Json) → List (String × Json)) (depth : Nat) {c : Char}
    (hc : c = '-' ∨ isDigit c = true) (r : List Char) :
    valueWith unify depth (c :: r) = (numeral (c :: r)).map fun x => (.number x.1, x.2) := by
  have hskip : skipBlanks (c :: r) = c :: r := by simpa using (opens_number hc r).skipBlanks []
  have hne : ∀ x, isDigit x = false → x ≠ '-' → c ≠ x := fun x hx hsign heq =>
    hc.elim (fun h => hsign (heq.symm.trans h)) fun h => ne_of_isDigit h hx heq
  unfold valueWith
  rw [hskip]
  split
  · contradiction
  · rename_i heq
    exact absurd (List.cons.inj heq).1 (hne '"' (by decide) (by decide))
  · rename_i heq
    exact absurd (List.cons.inj heq).1 (hne '[' (by decide) (by decide))
  · rename_i heq
    exact absurd (List.cons.inj heq).1 (hne '\x7b' (by decide) (by decide))
  · rename_i heq
    exact absurd (List.cons.inj heq).1 (hne 'n' (by decide) (by decide))
  · rename_i heq
    exact absurd (List.cons.inj heq).1 (hne 't' (by decide) (by decide))
  · rename_i heq
    exact absurd (List.cons.inj heq).1 (hne 'f' (by decide) (by decide))
  · rename_i heq
    cases heq
    have htest : (c = '-' || isDigit c) = true := by simpa using hc
    rw [if_pos htest]
    rcases numeral (c :: r) with e | x <;> rfl

/-- Takes a member of an object in front of those before it. -/
def collect (depth : Nat) (acc : List (String × Json)) (name : String) : Reader (List (String × Json)) := fun cs => do
  let (v, r) ← valueWith merge depth (← colon cs)
  return ((name, v) :: acc, r)

theorem reads_collect {depth : Nat} {text : List Char} {result : Except Fault Json}
    (h : Reads (value depth) text result) (acc : List (String × Json)) (name : String) :
    Reads (collect depth acc name) (':' :: ' ' :: text) (result.map fun v => (name, v) :: acc) := by
  intro rest hrest
  show (value depth (' ' :: (text ++ rest)) >>= _) = _
  rw [value_blank, h rest hrest]
  rcases result with e | v <;> rfl

theorem run_collected (members acc : List (String × Json)) :
    Line.run (members.map collected) acc = (rereadMembers members).map (·.reverse ++ acc) := by
  induction members generalizing acc with
  | nil => rfl
  | cons m members ih =>
    obtain ⟨k, v⟩ := m
    rw [List.map_cons, Line.run_cons, rereadMembers]
    show (v.reread.map fun v => (k, v) :: acc) >>= _ = _
    rcases v.reread with e | x
    · rfl
    · show Line.run (members.map collected) ((k, x) :: acc) = _
      rw [ih]
      rcases rereadMembers members with e | xs
      · rfl
      · show Except.ok (xs.reverse ++ (k, x) :: acc) = Except.ok (((k, x) :: xs).reverse ++ acc)
        rw [List.reverse_cons, List.append_assoc]
        rfl

/-- A written value is read again, up to what ends it. -/
theorem Proper.reads_prettyAt {depth : Nat} {v : Json} (h : Proper depth v) (level : Nat) :
    Reads (value depth) (prettyAt level v).toList v.reread := by
  unfold value
  induction h generalizing level with
  | null =>
    intro rest _
    rw [toList_prettyNull]
    unfold valueWith
    rfl
  | bool b =>
    intro rest _
    rw [toList_prettyBool]
    unfold valueWith
    cases b <;> rfl
  | number hn =>
    rename_i n
    intro rest hrest
    obtain ⟨c, r, htext, hc⟩ := first_writeNumber n
    have hnumeral := reads_writeNumber n rest hrest
    show valueWith merge _ ((writeNumber n).toList ++ rest) = _
    rw [htext, List.cons_append] at hnumeral ⊢
    rw [valueWith_number merge _ hc, hnumeral, reread]
    rcases parse numeral (writeNumber n) with e | m <;> rfl
  | string s =>
    intro rest _
    rw [toList_prettyString, List.cons_append, List.append_assoc]
    unfold valueWith
    rw [skipBlanks_cons (by decide)]
    show (quoted (s.toList.flatMap escape ++ '"' :: rest) >>= _) = _
    rw [quoted_escapes]
    rfl
  | array _ ih =>
    rename_i depth items _
    intro rest _
    have hitems := items_between level (fun v _ => opens_prettyAt (level + 1) v)
      (fun v hv => ih v hv (level + 1)) rest
    rw [toList_prettyArray, List.cons_append, between_append]
    unfold valueWith
    rw [skipBlanks_cons (by decide)]
    show (Json.items (valueWith merge depth) _ true _ >>= _) = _
    rw [List.singleton_append, hitems, reread, rereadItems_eq]
    rcases items.mapM reread with e | xs <;> rfl
  | object hnames _ ih =>
    rename_i depth members _
    intro rest _
    have hread : ∀ l ∈ members.map collected, l.ReadBy (level + 1) (collect depth) :=
      List.forall_mem_map.2 fun m hm acc => reads_collect (ih m hm (level + 1)) acc m.1
    have hmembers := members_between level hread [] rest
    have htext := toList_prettyObject level (members.map collected)
    rw [map_collected] at htext
    rw [htext, List.cons_append, between_append]
    unfold valueWith
    rw [skipBlanks_cons (by decide)]
    show (Json.members quoted (collect depth) _ true [] _ >>= _) = _
    rw [List.singleton_append, hmembers, run_collected, reread]
    rcases hmembers : rereadMembers members with e | ms
    · rfl
    · have hkeys : (ms.map Prod.fst).Nodup := keys_rereadMembers hmembers ▸ hnames
      show Except.ok (Json.object (merge (ms.reverse ++ []).reverse), rest) = Except.ok (Json.object ms, rest)
      rw [List.append_nil, List.reverse_reverse, merge_of_nodup hkeys]

theorem numbersOfItems_eq (items : List Json) : numbersOfItems items = items.flatMap numbers := by
  induction items with
  | nil => rfl
  | cons v items ih => rw [numbersOfItems, List.flatMap_cons, ih]

theorem numbersOfMembers_eq (members : List (String × Json)) :
    numbersOfMembers members = members.flatMap fun m => m.2.numbers := by
  induction members with
  | nil => rfl
  | cons m members ih => rw [numbersOfMembers, List.flatMap_cons, ih]

theorem Proper.inRange {depth : Nat} {v : Json} (h : Proper depth v) : ∀ n ∈ v.numbers, n.InRange := by
  induction h with
  | null => exact nofun
  | bool _ => exact nofun
  | string _ => exact nofun
  | number h =>
    rw [numbers]
    exact List.forall_mem_singleton.2 h
  | array _ ih =>
    rw [numbers, numbersOfItems_eq]
    intro n hn
    obtain ⟨v, hv, hn⟩ := List.mem_flatMap.1 hn
    exact ih v hv n hn
  | object _ _ ih =>
    rw [numbers, numbersOfMembers_eq]
    intro n hn
    obtain ⟨m, hm, hn⟩ := List.mem_flatMap.1 hn
    exact ih m hm n hn

/-- A proper value is read back exactly if all of its doubles are. -/
theorem Proper.reread_eq_ok {depth : Nat} {v : Json} (h : Proper depth v) : v.reread = .ok v ↔
    ∀ isNegative x, .real isNegative x ∈ v.numbers → (Number.real isNegative x).Restored := by
  rw [Json.reread_eq_ok]
  refine ⟨fun hall isNegative x hx => hall _ hx, fun hall n hn => ?_⟩
  cases n with
  | natural n => exact parse_writeNumber (h.inRange _ hn) nofun
  | negative n => exact parse_writeNumber (h.inRange _ hn) nofun
  | real isNegative x => exact hall isNegative x hn

/-! ## Values that are read -/

theorem yields_items {P : α → Prop} {item : Reader α} (h : Yields P item) (fuel : Nat) (isFirst : Bool) :
    Yields (fun xs => ∀ x ∈ xs, P x) (items item fuel isFirst) := by
  induction fuel generalizing isFirst with
  | zero => exact fun _ => allows_error _
  | succ fuel ih =>
    have hfrom : Yields (fun xs => ∀ x ∈ xs, P x) (itemsFrom item fuel) := fun cs =>
      allows_bind (h cs) fun x hx => allows_bind (ih false _) fun xs hxs =>
        allows_ok (List.forall_mem_cons.2 ⟨hx, hxs⟩)
    intro cs
    rw [items]
    split
    · exact allows_error _
    · exact allows_ok (List.forall_mem_nil _)
    · split
      · exact hfrom _
      · split
        · exact allows_error _
        · split
          · exact allows_error _
          · exact allows_error _
          · exact hfrom _

theorem yields_collect {depth : Nat} (h : Yields (Proper depth) (value depth)) (ms : List (String × Json))
    (name : String) (hms : ∀ m ∈ ms, Proper depth m.2) :
    Yields (fun ms => ∀ m ∈ ms, Proper depth m.2) (collect depth ms name) := fun _ =>
  allows_bind' fun _ => allows_bind (h _) fun _ hv => allows_ok (List.forall_mem_cons.2 ⟨hv, hms⟩)

/-- A value that is read nests no deeper than it may, holds each name once and has numbers in range. -/
theorem yields_value (depth : Nat) : Yields (Proper depth) (value depth) := by
  induction depth using Nat.strong_induction_on with
  | _ depth ih =>
    intro cs
    unfold value valueWith
    split
    · exact allows_error _
    · exact allows_bind' fun x => allows_ok (.string x.1)
    · split
      · exact allows_error _
      · rename_i depth
        exact allows_bind (yields_items (ih depth (Nat.lt_succ_self depth)) _ _ _) fun _ hxs => allows_ok (.array hxs)
    · split
      · exact allows_error _
      · rename_i depth
        have hmembers := yields_members quoted (s := []) (yields_collect (ih depth (Nat.lt_succ_self depth)))
        refine allows_bind (hmembers _ true nofun _) fun x hx => allows_ok (.object ?_ fun m hm => ?_)
        · have hnil : (([] : List (String × Json)).map Prod.fst).Nodup := List.nodup_nil
          exact nodup_putAll hnil x.1.reverse
        · exact hx m (List.mem_reverse.1 ((mem_putAll hm).resolve_left List.not_mem_nil))
    · exact allows_bind' fun _ => allows_ok .null
    · exact allows_bind' fun _ => allows_ok (.bool true)
    · exact allows_bind' fun _ => allows_ok (.bool false)
    · split
      · exact allows_bind (yields_numeral _) fun _ hn => allows_ok (.number hn)
      · exact allows_error _

end Stowage.Json
