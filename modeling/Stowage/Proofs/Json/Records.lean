/-
Records that are written and read again. A written object is read field by field, each field by what its value is read
as, so that what a record holds afterwards is a matter of its fields alone.
-/
import Mathlib.Data.List.DropRight
import Stowage.Proofs.Json.Reread

namespace Stowage.Json

variable {α σ : Type}

/-! ## Kinds of values -/

/-- A reader that passes over a blank reads a text after one as well. -/
theorem Reads.blank {reader : Reader α} {text : List Char} {result : Except Fault α}
    (hblank : ∀ cs, reader (' ' :: cs) = reader cs) (h : Reads reader text result) :
    Reads reader (' ' :: text) result := fun rest hrest => (hblank _).trans (h rest hrest)

theorem reads_asString (level : Nat) (s : String) : Reads asString (prettyAt level (.string s)).toList (.ok s) := by
  intro rest _
  rw [toList_prettyString, List.cons_append, List.append_assoc]
  unfold asString
  rw [skipBlanks_cons (by decide)]
  exact quoted_escapes s rest

theorem asString_blank (cs : List Char) : asString (' ' :: cs) = asString cs := rfl

theorem reads_asBool (level : Nat) (b : Bool) : Reads asBool (prettyAt level (.bool b)).toList (.ok b) := by
  intro rest _
  rw [toList_prettyBool]
  cases b <;> rfl

/-- Only the text of nothing starts as that one does. -/
theorem first_prettyAt (level : Nat) {v : Json} (hv : v ≠ .null) :
    ∃ c r, (prettyAt level v).toList = c :: r ∧ c ≠ 'n' := by
  cases v with
  | null => exact absurd rfl hv
  | bool b =>
    rw [toList_prettyBool]
    cases b
    · exact ⟨'f', _, rfl, by decide⟩
    · exact ⟨'t', _, rfl, by decide⟩
  | number n =>
    obtain ⟨c, r, htext, hc⟩ := first_writeNumber n
    refine ⟨c, r, htext, ?_⟩
    rintro rfl
    exact hc.elim (by decide) (by decide)
  | string s => exact ⟨'"', _, toList_prettyString level s, by decide⟩
  | array items => exact ⟨'[', _, toList_prettyArray level items, by decide⟩
  | object members =>
    rw [← map_collected members]
    exact ⟨'\x7b', _, toList_prettyObject level _, by decide⟩

theorem reads_asOption {inner : Reader α} {level : Nat} {v : Json} {result : Except Fault α} (hv : v ≠ .null)
    (h : Reads inner (prettyAt level v).toList result) :
    Reads (asOption inner) (' ' :: (prettyAt level v).toList) (result.map some) := by
  intro rest hrest
  have hread := h rest hrest
  have hskip : skipBlanks (' ' :: ((prettyAt level v).toList ++ rest)) = (prettyAt level v).toList ++ rest :=
    (opens_prettyAt level v).skipBlanks rest
  obtain ⟨c, r, htext, hc⟩ := first_prettyAt level hv
  unfold asOption
  rw [List.cons_append, hskip]
  split
  · rename_i heq
    rw [htext] at heq
    exact absurd (List.cons.inj heq).1 hc
  · rw [hread]
    rcases result with e | x <;> rfl

theorem skipBlanks_skipBlanks (cs : List Char) : skipBlanks (skipBlanks cs) = skipBlanks cs :=
  List.dropWhile_idempotent isBlank cs

/-- A text that does not start as nothing does is not read as nothing. -/
theorem value_ne_null (depth : Nat) {cs : List Char} (hcs : ∀ r, skipBlanks cs ≠ 'n' :: r) :
    Allows (fun x => x.1 ≠ .null) (value depth (skipBlanks cs)) := by
  unfold value valueWith
  rw [skipBlanks_skipBlanks]
  split
  · exact allows_error _
  · exact allows_bind' fun _ => allows_ok Json.noConfusion
  · split
    · exact allows_error _
    · exact allows_bind' fun _ => allows_ok Json.noConfusion
  · split
    · exact allows_error _
    · exact allows_bind' fun _ => allows_ok Json.noConfusion
  · exact absurd ‹_› (hcs _)
  · exact allows_bind' fun _ => allows_ok Json.noConfusion
  · exact allows_bind' fun _ => allows_ok Json.noConfusion
  · split
    · exact allows_bind' fun _ => allows_ok Json.noConfusion
    · exact allows_error _

/-- A value that may be left out is proper where it is there, and not nothing. -/
theorem yields_asOption_value (depth : Nat) :
    Yields (fun o => ∀ v, o = some v → Proper depth v ∧ v ≠ .null) (asOption (value depth)) := by
  intro cs
  unfold asOption
  split
  · exact allows_bind' fun _ => allows_ok nofun
  · rename_i hno
    intro x hx
    rcases hread : value depth (skipBlanks cs) with e | y
    · rw [hread] at hx
      cases hx
    · rw [hread] at hx
      cases hx
      rintro _ ⟨⟩
      exact ⟨yields_value depth _ y hread, value_ne_null depth (fun r hr => hno r hr) y hread⟩

/-! ## Maps -/

/-- The line of an entry that a map takes. -/
def mapped (f : α → Json) (m : String × α) : Line (List (String × α)) :=
  ⟨(m.1, f m.2), fun acc => .ok (put m.1 m.2 acc)⟩

theorem run_mapped (f : α → Json) (ms acc : List (String × α)) :
    Line.run (ms.map (mapped f)) acc = .ok (putAll acc ms) := by
  induction ms generalizing acc with
  | nil => rfl
  | cons m ms ih => exact ih (put m.1 m.2 acc)

theorem asMap_blank (item : Reader α) (cs : List Char) : asMap item (' ' :: cs) = asMap item cs := rfl

/-- An entry is read into a map. -/
def readEntry (item : Reader α) (acc : List (String × α)) (name : String) : Reader (List (String × α)) := fun cs => do
  let (v, r) ← item (← colon cs)
  return (put name v acc, r)

/-- A written map is read back, the last of several values of a name. -/
theorem reads_asMap {item : Reader α} {f : α → Json} {level : Nat} (hblank : ∀ cs, item (' ' :: cs) = item cs)
    (h : ∀ x, Reads item (prettyAt (level + 1) (f x)).toList (.ok x)) (ms : List (String × α)) :
    Reads (asMap item) (prettyAt level (.object (ms.map fun m => (m.1, f m.2)))).toList (.ok (merge ms)) := by
  intro rest _
  have hread : ∀ l ∈ ms.map (mapped f), l.ReadBy (level + 1) (readEntry item) := by
    refine List.forall_mem_map.2 fun m _ acc rest hrest => ?_
    show (item (' ' :: ((prettyAt (level + 1) (f m.2)).toList ++ rest)) >>= _) = _
    rw [hblank, h m.2 rest hrest]
    rfl
  have hmembers := members_between level hread [] rest
  have hmap : (ms.map (mapped f)).map Line.member = ms.map fun m => (m.1, f m.2) := by
    rw [List.map_map]
    rfl
  rw [← hmap, toList_prettyObject, List.cons_append, between_append, List.singleton_append]
  unfold asMap
  rw [skipBlanks_cons (by decide)]
  rw [run_mapped] at hmembers
  exact hmembers

/-! ## Records -/

/-- A field whose value is put into the record. -/
def setter (key : String) (mayEnd : Bool) (reader : Reader α) (update : σ → α → σ) : FieldReader σ :=
  ⟨key, mayEnd, fun s cs => do
    let (x, r) ← reader cs
    return (update s x, r)⟩

theorem reads_setter {key : String} {mayEnd : Bool} {reader : Reader α} {update : σ → α → σ} {text : List Char}
    {result : Except Fault α} (h : Reads reader text result) (s : σ) :
    Reads ((setter key mayEnd reader update).read s) text (result.map (update s)) := by
  intro rest hrest
  show (reader (text ++ rest) >>= _) = _
  rw [h rest hrest]
  rcases result with e | x <;> rfl

/-- A field of the record takes the line as what it says. -/
def Line.Fills (fields : List (FieldReader σ)) (level : Nat) (l : Line σ) : Prop :=
  ∃ f, fields.find? (·.key = l.member.1) = some f ∧ ∀ s, Reads (f.read s) (' ' :: l.text level) (l.step s)

/-- The line of a record that takes each field once. -/
def Line.once (l : Line σ) : Line (σ × List String) :=
  ⟨l.member, fun s => if s.2.contains l.member.1 then .error .mismatched else
    (l.step s.1).map (·, l.member.1 :: s.2)⟩

theorem run_once {lines : List (Line σ)} (hnames : (lines.map fun l => l.member.1).Nodup) {seen : List String}
    (hseen : ∀ l ∈ lines, l.member.1 ∉ seen) (s : σ) :
    (Line.run (lines.map Line.once) (s, seen)).map Prod.fst = Line.run lines s := by
  induction lines generalizing s seen with
  | nil => rfl
  | cons l lines ih =>
    rw [List.forall_mem_cons] at hseen
    rw [List.map_cons, List.nodup_cons] at hnames
    have hnext : ∀ l' ∈ lines, l'.member.1 ∉ l.member.1 :: seen := by
      intro l' hl' hmem
      rcases List.mem_cons.1 hmem with heq | hmem
      · exact hnames.1 (heq ▸ List.mem_map.2 ⟨l', hl', rfl⟩)
      · exact hseen.2 l' hl' hmem
    have honce : l.once.step (s, seen) = (l.step s).map (·, l.member.1 :: seen) := by
      show (if seen.contains l.member.1 then _ else _) = _
      rw [if_neg (by simpa using hseen.1)]
    rw [List.map_cons, Line.run_cons, Line.run_cons, honce]
    rcases l.step s with e | t
    · rfl
    · exact ih hnames.2 hnext t

/-- Takes the value of a field, once for each name. -/
def takeField (fields : List (FieldReader σ)) (s : σ × List String) (name : String) :
    Reader (σ × List String) := fun cs =>
  match fields.find? (·.key = name) with
  | none => do
    let cs ← colon cs
    return (s, ← skip (cs.length + 1) cs)
  | some f =>
    if s.2.contains name then .error .mismatched
    else do
      let (t, r) ← f.read s.1 (← colon cs)
      return ((t, name :: s.2), r)

theorem Line.Fills.readBy {fields : List (FieldReader σ)} {level : Nat} {l : Line σ} (h : l.Fills fields level) :
    l.once.ReadBy level (takeField fields) := by
  obtain ⟨f, hf, hfill⟩ := h
  intro s rest hrest
  show (match fields.find? (·.key = l.member.1) with
    | none => _
    | some f => _) = Except.map _ (if s.2.contains l.member.1 then _ else _)
  rw [hf]
  show (if s.2.contains l.member.1 then _ else _) = Except.map _ (if s.2.contains l.member.1 then _ else _)
  by_cases hseen : s.2.contains l.member.1 = true
  · rw [if_pos hseen, if_pos hseen]
    rfl
  · rw [if_neg hseen, if_neg hseen]
    show (f.read s.1 ((' ' :: l.text level) ++ rest) >>= _) = _
    rw [hfill s.1 rest hrest]
    rcases l.step s.1 with e | t <;> rfl

/-- A written record is read field by field. -/
theorem parse_record {fields : List (FieldReader σ)} {lines : List (Line σ)}
    (hnames : (lines.map fun l => l.member.1).Nodup) (hfills : ∀ l ∈ lines, l.Fills fields 1) (s : σ) :
    parse (record fields s) (pretty (.object (lines.map Line.member))) = Line.run lines s := by
  refine parse_of_reads fun rest _ => ?_
  have hread : ∀ l ∈ lines.map Line.once, l.ReadBy 1 (takeField fields) :=
    List.forall_mem_map.2 fun l hl => (hfills l hl).readBy
  have hmembers := members_between 0 hread (s, []) rest
  have hmap : (lines.map Line.once).map Line.member = lines.map Line.member := by
    rw [List.map_map]
    rfl
  rw [pretty, ← hmap, toList_prettyObject, List.cons_append, between_append, List.singleton_append]
  unfold record
  rw [skipBlanks_cons (by decide)]
  show (members quoted (takeField fields) _ true (s, []) _ >>= _) = _
  rw [hmembers, ← run_once hnames (fun _ _ => List.not_mem_nil) s]
  rcases Line.run (lines.map Line.once) (s, []) with e | t <;> rfl

end Stowage.Json
