/-
Where paths lead, told by their components: spellings of one path lead to the same place, unless one of
them asks for a directory at its end, and to the same directory in any case. What a path without links
is spelled like is plain.
-/
import Stowage.Proofs.Path.Plain

open Stowage.Path

namespace Stowage.Disk

variable (d : Disk)

/-! ## Steps that lead nowhere -/

/-- The steps without those that lead nowhere; one at the end, which asks for a directory, stays. -/
def tidy (steps : List String) : List String :=
  steps.filter (· ≠ ".") ++ if steps.getLast? = some "." then ["."] else []

theorem tidy_cons {s : String} (hs : s ≠ ".") (rest : List String) :
    tidy (s :: rest) = s :: tidy rest := by
  unfold tidy
  rcases rest with _ | ⟨t, r⟩
  · simp [hs]
  · rw [List.getLast?_cons_cons, List.filter_cons_of_pos (by simpa using hs), List.cons_append]

theorem tidy_dot {rest : List String} (h : rest ≠ []) : tidy ("." :: rest) = tidy rest := by
  unfold tidy
  rcases rest with _ | ⟨t, r⟩
  · exact absurd rfl h
  · rw [List.getLast?_cons_cons, List.filter_cons_of_neg (by simp)]

theorem tidy_eq_nil {steps : List String} : tidy steps = [] ↔ steps = [] := by
  constructor
  · intro h
    by_contra hne
    rcases List.eq_nil_or_concat steps with rfl | ⟨ss, s, rfl⟩
    · exact hne rfl
    · rw [List.concat_eq_append] at h
      by_cases hs : s = "." <;> simp [tidy, hs] at h
  · rintro rfl; rfl

theorem getLast?_tidy (steps : List String) : (tidy steps).getLast? = steps.getLast? := by
  rcases List.eq_nil_or_concat steps with rfl | ⟨ss, s, rfl⟩
  · rfl
  · rw [List.concat_eq_append]
    by_cases hs : s = "." <;> simp [tidy, hs]

theorem tidy_append_tidy (a b : List String) : tidy (a ++ tidy b) = tidy (a ++ b) := by
  have hl : (a ++ tidy b).getLast? = (a ++ b).getLast? := by
    rw [List.getLast?_append, List.getLast?_append, getLast?_tidy]
  unfold tidy at hl ⊢
  rw [hl]
  congr 1
  rw [List.filter_append, List.filter_append, List.filter_append, List.filter_filter]
  split <;> simp

/-- A stop with the steps after a link tidied up. -/
def Stop.tidied : Stop → Stop
  | .at place => .at place
  | .link loc target rest => .link loc target (tidy rest)

theorem stride_name (followLast : Bool) (loc : Location) {name : String} (h1 : name ≠ ".")
    (h2 : name ≠ "..") (rest : List String) :
    d.stride followLast loc (name :: rest) =
      if maxName < name.utf8ByteSize then .error .nameTooLong
      else match d.entry? (loc ++ [name]) with
        | none => if rest = [] then .ok (.at (.free (loc ++ [name]))) else .error .notFound
        | some .directory => d.stride followLast (loc ++ [name]) rest
        | some (.file c) =>
          if rest = [] then .ok (.at (.found (loc ++ [name]) (.file c))) else .error .notADirectory
        | some (.link target) =>
          if rest = [] ∧ followLast = false then .ok (.at (.found (loc ++ [name]) (.link target)))
          else .ok (.link loc target rest) :=
  stride.eq_4 d followLast loc name rest h1 h2

theorem stride_tidy (followLast : Bool) (loc : Location) (steps : List String) :
    d.stride followLast loc (tidy steps) = (d.stride followLast loc steps).map Stop.tidied := by
  induction steps generalizing loc with
  | nil => rfl
  | cons s rest ih =>
    by_cases h1 : s = "."
    · subst h1
      rcases rest with _ | ⟨t, r⟩
      · rfl
      · rw [tidy_dot (by simp), stride]; exact ih loc
    by_cases h2 : s = ".."
    · subst h2
      rw [tidy_cons h1, stride, stride]; exact ih _
    rw [tidy_cons h1, stride_name d _ _ h1 h2, stride_name d _ _ h1 h2]
    simp only [tidy_eq_nil]
    split
    · rfl
    · split
      · split <;> rfl
      · exact ih _
      · split <;> rfl
      · split <;> rfl

theorem walk_tidy (followLast : Bool) (links : Nat) (loc : Location) (steps : List String) :
    d.walk followLast links loc (tidy steps) = d.walk followLast links loc steps := by
  induction links generalizing loc steps with
  | zero =>
    unfold walk
    rw [stride_tidy]
    rcases d.stride followLast loc steps with e | place | ⟨l, t, rest⟩ <;> rfl
  | succ n ih =>
    unfold walk
    rw [stride_tidy]
    rcases d.stride followLast loc steps with e | place | ⟨l, t, rest⟩
    · rfl
    · rfl
    · show d.walk followLast n _ (_ ++ tidy rest) = d.walk followLast n _ (_ ++ rest)
      rw [← ih, tidy_append_tidy, ih]

/-! ## Asking for a directory -/

/-- A place that is entered as a directory. -/
def Place.entered : Place → Except FileFault Place
  | .found _ (.file _) => .error .notADirectory
  | .free _ => .error .notFound
  | place => .ok place

/-- A stop that is entered as a directory once the steps left over are gone. -/
def Stop.entered : Stop → Except FileFault Stop
  | .at place => place.entered.map .at
  | .link loc target rest => .ok (.link loc target (rest ++ ["."]))

theorem stride_append_dot (loc : Location) (steps : List String) :
    d.stride true loc (steps ++ ["."]) = d.stride true loc steps >>= Stop.entered := by
  induction steps generalizing loc with
  | nil => rfl
  | cons s rest ih =>
    rw [List.cons_append]
    by_cases h1 : s = "."
    · subst h1; rw [stride, stride]; exact ih loc
    by_cases h2 : s = ".."
    · subst h2; rw [stride, stride]; exact ih _
    rw [stride_name d _ _ h1 h2, stride_name d _ _ h1 h2]
    split
    · rfl
    · split
      · rw [if_neg (by simp)]
        split <;> rfl
      · exact ih _
      · rw [if_neg (by simp)]
        split <;> rfl
      · rw [if_neg (by simp), if_neg (by simp)]; rfl

/-- A `.` at the end only asks for a directory. -/
theorem walk_append_dot (links : Nat) (loc : Location) (steps : List String) :
    d.walk true links loc (steps ++ ["."]) = d.walk true links loc steps >>= Place.entered := by
  induction links generalizing loc steps with
  | zero =>
    unfold walk
    rw [stride_append_dot]
    rcases d.stride true loc steps with e | place | ⟨l, t, rest⟩
    · rfl
    · rcases place with ⟨l, _ | _ | _⟩ | l <;> rfl
    · rfl
  | succ n ih =>
    unfold walk
    rw [stride_append_dot]
    rcases d.stride true loc steps with e | place | ⟨l, t, rest⟩
    · rfl
    · rcases place with ⟨l, _ | _ | _⟩ | l <;> rfl
    · show d.walk true n _ (_ ++ (rest ++ ["."])) = _
      rw [← List.append_assoc]; exact ih ..

/-! ## Spellings of one path -/

/-- Some character of a spelling stands in a piece of it that leads somewhere, other than `.`. -/
theorem contains_iff_moves (p : Path) {c : Char} (h1 : c ≠ '/') (h2 : c ≠ '.') :
    p.text.toList.contains c = true ↔ ∃ s ∈ p.moves, c ∈ s.toList := by
  rw [List.contains_iff_mem, mem_segments_iff h1]
  constructor
  · rintro ⟨s, hs, hc⟩
    refine ⟨String.ofList s, ?_, by simpa using hc⟩
    unfold moves pieces
    simp only [List.mem_filter, List.mem_map, decide_eq_true_eq]
    refine ⟨⟨s, ⟨hs, ?_⟩, rfl⟩, ?_⟩
    · rintro rfl; cases hc
    · intro he
      have : s = ['.'] := by rw [← String.toList_ofList (l := s), he]; rfl
      rw [this, List.mem_singleton] at hc
      exact h2 hc
  · rintro ⟨s, hs, hc⟩
    unfold moves pieces at hs
    simp only [List.mem_filter, List.mem_map, decide_eq_true_eq] at hs
    obtain ⟨⟨t, ⟨ht, -⟩, rfl⟩, -⟩ := hs
    exact ⟨t, ht, by simpa using hc⟩

/-- What walking starts from. -/
def origin (p : Path) : Location := if p.isAbsolute then [] else d.here

theorem origin_of_same {p q : Path} (h : p.same q = true) : d.origin p = d.origin q := by
  unfold origin; rw [isAbsolute_of_same h]

/-- The path can be walked at all. -/
def checked (p : Path) : Except FileFault Unit :=
  if p.text.toList.contains '\x00' then .error .invalidInput
  else if p.text.isEmpty then .error .notFound
  else .ok ()

theorem checked_of_same {p q : Path} (h : p.same q = true) : checked p = checked q := by
  have hc : p.text.toList.contains '\x00' = q.text.toList.contains '\x00' := by
    rw [Bool.eq_iff_iff, contains_iff_moves p (by decide) (by decide),
      contains_iff_moves q (by decide) (by decide), moves_of_same h]
  unfold checked
  rw [hc, isEmpty_of_same h]

theorem locate_eq (followLast : Bool) (p : Path) :
    d.locate followLast p =
      checked p >>= fun _ => d.walk followLast maxLinks (d.origin p) p.steps := by
  unfold locate checked origin
  split
  · rfl
  · split <;> rfl

/-- A path without the question for a directory at its end. -/
theorem steps_cases (p : Path) :
    tidy p.steps = p.moves ∨ tidy p.steps = p.moves ++ ["."] := by
  unfold tidy
  rw [filter_steps]
  split
  · exact .inr rfl
  · exact .inl (List.append_nil _)

theorem tidy_steps {p : Path} (h : p.steps.getLast? ≠ some ".") : tidy p.steps = p.moves := by
  unfold tidy
  rw [filter_steps, if_neg h, List.append_nil]

/-- Where a path leads, up to a question for a directory at its end. -/
theorem locate_cases (p : Path) :
    d.locate true p = (checked p >>= fun _ => d.walk true maxLinks (d.origin p) p.moves) ∨
    d.locate true p = (checked p >>= fun _ => d.walk true maxLinks (d.origin p) p.moves) >>=
      Place.entered := by
  rw [locate_eq, ← walk_tidy]
  rcases steps_cases p with h | h
  · exact .inl (by rw [h])
  · right
    rw [h, walk_append_dot]
    rcases checked p with e | u <;> rfl

theorem Place.entered_eq_directory {place : Place} {l : Location} :
    place.entered = .ok (.found l .directory) ↔ place = .found l .directory := by
  rcases place with ⟨l, _ | _ | _⟩ | l <;> simp [Place.entered]

/-- All spellings of a path lead to a directory or none does. -/
theorem locate_directory_of_same {p q : Path} (h : p.same q = true) {l : Location}
    (hp : d.locate true p = .ok (.found l .directory)) :
    d.locate true q = .ok (.found l .directory) := by
  have hbind : ∀ {x : Except FileFault Place},
      (x >>= Place.entered) = .ok (.found l .directory) ↔ x = .ok (.found l .directory) := by
    intro x
    rcases x with e | place
    · exact ⟨fun h => (nomatch h), fun h => (nomatch h)⟩
    · exact Place.entered_eq_directory.trans ⟨fun h => by rw [h], fun h => by cases h; rfl⟩
  have key : (checked q >>= fun _ => d.walk true maxLinks (d.origin q) q.moves) =
      .ok (.found l .directory) := by
    rw [← checked_of_same h, ← origin_of_same d h, ← moves_of_same h]
    rcases d.locate_cases p with he | he
    · rw [← he, hp]
    · rw [← hbind, ← he, hp]
  rcases d.locate_cases q with he | he
  · rw [he, key]
  · rw [he, hbind, key]

/-- Spellings of one path that do not ask for a directory at their end lead to the same place. -/
theorem locate_of_same {p q : Path} (h : p.same q = true) (hp : tidy p.steps = p.moves) (hq : tidy q.steps = q.moves)
    (followLast : Bool) : d.locate followLast p = d.locate followLast q := by
  rw [locate_eq, locate_eq, checked_of_same h, d.origin_of_same h, ← walk_tidy, hp, moves_of_same h, ← hq, walk_tidy]

theorem isDirectory_iff {p : Path} :
    d.isDirectory p = true ↔ ∃ l, d.locate true p = .ok (.found l .directory) := by
  unfold isDirectory find
  rcases d.locate true p with e | ⟨l, _ | _ | _⟩ | l <;>
    simp [bind, Except.bind, pure, Except.pure, throw, throwThe, MonadExceptOf.throw,
      Except.toOption, Entry.type]

theorem isLink_iff {p : Path} :
    d.isLink p = true ↔ ∃ l t, d.locate false p = .ok (.found l (.link t)) := by
  unfold isLink typeOf
  rcases d.locate false p with e | ⟨l, _ | _ | _⟩ | l <;>
    simp [bind, Except.bind, pure, Except.pure, throw, throwThe, MonadExceptOf.throw,
      Except.toOption, Entry.type]

theorem isDirectory_of_same {p q : Path} (h : p.same q = true) (hp : d.isDirectory p = true) :
    d.isDirectory q = true := by
  obtain ⟨l, hl⟩ := d.isDirectory_iff.1 hp
  exact d.isDirectory_iff.2 ⟨l, d.locate_directory_of_same h hl⟩

theorem isFile_eq_false_of_isDirectory {p : Path} (h : d.isDirectory p = true) :
    d.isFile p = false := by
  obtain ⟨l, hl⟩ := d.isDirectory_iff.1 h
  unfold isFile find
  rw [hl]; rfl

/-- Below two paths with the same pieces a name leads to the same place. -/
theorem locate_join_of_moves {p q : Path} (hmoves : p.moves = q.moves) (habs : p.isAbsolute = q.isAbsolute)
    {s : String} (hs : IsPiece s) (followLast : Bool) :
    d.locate followLast (p / s) = d.locate followLast (q / s) := by
  have hm : (p / s).moves = (q / s).moves := by
    rw [moves_join p hs, moves_join q hs, hmoves]
  have hsteps : tidy (p / s).steps = tidy (q / s).steps := by
    have hl : ∀ r : Path, tidy (r / s).steps = (r / s).moves := fun r => by
      rw [steps_join r hs]
      unfold tidy moves
      rw [pieces_join r hs, List.getLast?_concat, if_neg (by simpa using hs.ne_dot),
        List.append_nil]
    rw [hl, hl, hm]
  have hc : checked (p / s) = checked (q / s) := by
    have he : ∀ r : Path, (r / s).text.isEmpty = false := fun r => by
      rw [Bool.eq_false_iff, ne_eq, String.isEmpty_iff, ← String.toList_inj]
      exact toList_join_ne_nil r hs
    have hn : (p / s).text.toList.contains '\x00' = (q / s).text.toList.contains '\x00' := by
      rw [Bool.eq_iff_iff, contains_iff_moves _ (by decide) (by decide),
        contains_iff_moves _ (by decide) (by decide), hm]
    unfold checked
    rw [he, he, hn]
  have ho : d.origin (p / s) = d.origin (q / s) := by
    unfold origin
    rw [isAbsolute_join p hs, isAbsolute_join q hs, habs]
  rw [locate_eq, locate_eq, hc, ho, ← walk_tidy, hsteps, walk_tidy]

/-- Below two spellings of one path a name leads to the same place. -/
theorem locate_join {p q : Path} (h : p.same q = true) {s : String} (hs : IsPiece s) (followLast : Bool) :
    d.locate followLast (p / s) = d.locate followLast (q / s) :=
  d.locate_join_of_moves (moves_of_same h) (isAbsolute_of_same h) hs followLast

/-! ## Where a walk ends -/

theorem isPiece_of_mem_pieces {p : Path} {s : String} (h : s ∈ p.pieces) (hs : s ≠ ".") :
    IsPiece s := by
  unfold pieces at h
  simp only [List.mem_map, List.mem_filter, decide_eq_true_eq] at h
  obtain ⟨t, ⟨ht, hne⟩, rfl⟩ := h
  exact ⟨by simpa using hne, hs, by simpa using slash_notMem_segment ht⟩

theorem isPiece_of_mem_steps {p : Path} {s : String} (h : s ∈ p.steps) (hs : s ≠ ".") :
    IsPiece s := by
  refine isPiece_of_mem_pieces (p := p) ?_ hs
  rw [steps_eq] at h
  split at h
  · rcases List.mem_append.1 h with h | h
    · exact h
    · exact absurd (List.mem_singleton.1 h) hs
  · exact h

/-- The location of a stop and the steps after it. -/
def Stop.location : Stop → Location
  | .at (.found l _) => l
  | .at (.free l) => l
  | .link l _ _ => l

def Stop.rest : Stop → List String
  | .at _ => []
  | .link _ _ rest => rest

/-- The names of a location are pieces of paths. -/
def Spelled (loc : Location) : Prop := ∀ n ∈ loc, IsPiece n

theorem spelled_nil : Spelled [] := fun _ h => nomatch h

section
variable {P : String → Prop} {followLast : Bool} {loc : Location} {steps : List String}

/-- A walk enters only what its steps name. -/
theorem stride_enters {stop : Stop} (h : d.stride followLast loc steps = .ok stop)
    (hloc : ∀ n ∈ loc, P n) (hsteps : ∀ s ∈ steps, s ≠ "." → s ≠ ".." → P s) :
    (∀ n ∈ stop.location, P n) ∧ ∀ s ∈ stop.rest, s ∈ steps := by
  induction steps generalizing loc with
  | nil =>
    rw [stride] at h
    cases h
    exact ⟨hloc, fun s hs => absurd hs List.not_mem_nil⟩
  | cons s rest ih =>
    have hnone : ∀ t ∈ ([] : List String), t ∈ s :: rest := fun t ht => absurd ht List.not_mem_nil
    have hrest : ∀ t ∈ rest, t ≠ "." → t ≠ ".." → P t := fun t ht =>
      hsteps t (List.mem_cons_of_mem _ ht)
    have later : ∀ {l : Location}, d.stride followLast l rest = .ok stop → (∀ n ∈ l, P n) →
        (∀ n ∈ stop.location, P n) ∧ ∀ t ∈ stop.rest, t ∈ s :: rest := fun h hl =>
      (ih h hl hrest).imp id fun hs t ht => List.mem_cons_of_mem _ (hs t ht)
    by_cases h1 : s = "."
    · subst h1; rw [stride] at h; exact later h hloc
    by_cases h2 : s = ".."
    · subst h2
      rw [stride] at h
      exact later h fun n hn => hloc n (List.mem_of_mem_dropLast hn)
    have hin : ∀ n ∈ loc ++ [s], P n := by
      intro n hn
      rcases List.mem_append.1 hn with hn | hn
      · exact hloc n hn
      · rw [List.mem_singleton.1 hn]
        exact hsteps s (List.mem_cons_self ..) h1 h2
    rw [stride_name d _ _ h1 h2] at h
    split at h
    · cases h
    · split at h
      · split at h <;> cases h
        exact ⟨hin, hnone⟩
      · exact later h hin
      · split at h <;> cases h
        exact ⟨hin, hnone⟩
      · split at h <;> cases h
        · exact ⟨hin, hnone⟩
        · exact ⟨hloc, fun t ht => List.mem_cons_of_mem _ ht⟩

theorem walk_enters {links : Nat} {place : Place}
    (htarget : ∀ (p : Path), ∀ s ∈ p.steps, s ≠ "." → s ≠ ".." → P s)
    (h : d.walk followLast links loc steps = .ok place) (hloc : ∀ n ∈ loc, P n)
    (hsteps : ∀ s ∈ steps, s ≠ "." → s ≠ ".." → P s) : ∀ n ∈ (Stop.at place).location, P n := by
  induction links generalizing loc steps with
  | zero =>
    unfold walk at h
    split at h
    · cases h
    · rename_i hs
      cases h
      exact (stride_enters d hs hloc hsteps).1
    · cases h
  | succ n ih =>
    unfold walk at h
    split at h
    · cases h
    · rename_i hs
      cases h
      exact (stride_enters d hs hloc hsteps).1
    · rename_i l target rest hs
      obtain ⟨hl, hrest⟩ := stride_enters d hs hloc hsteps
      refine ih h ?_ ?_
      · unfold linkBase
        split
        · exact fun n hn => absurd hn List.not_mem_nil
        · exact hl
      · intro s hs' h1 h2
        rcases List.mem_append.1 hs' with hs' | hs'
        · exact htarget _ s hs' h1 h2
        · exact hsteps s (hrest s hs') h1 h2

/-- A path leads to a location with names that steps of paths have. -/
theorem locate_enters {p : Path} {place : Place}
    (htarget : ∀ (p : Path), ∀ s ∈ p.steps, s ≠ "." → s ≠ ".." → P s) (hd : ∀ n ∈ d.here, P n)
    (h : d.locate followLast p = .ok place) : ∀ n ∈ (Stop.at place).location, P n := by
  rw [locate_eq] at h
  rcases hc : checked p with e | u
  · rw [hc] at h; cases h
  · rw [hc] at h
    refine walk_enters d htarget h ?_ (htarget p)
    unfold origin
    split
    · exact fun n hn => absurd hn List.not_mem_nil
    · exact hd

end

/-- The path without links that leads to where a path leads is plain. -/
theorem isPlain_of_canonicalize (hd : Spelled d.here) {p q : Path} (h : d.canonicalize p = .ok q) :
    q.IsPlain := by
  unfold canonicalize find at h
  rcases hl : d.locate true p with e | ⟨l, e⟩ | l
  · rw [hl] at h; cases h
  · rw [hl] at h
    cases h
    exact ⟨l, locate_enters d (fun p s hs h1 _ => isPiece_of_mem_steps hs h1) hd hl, rfl⟩
  · rw [hl] at h; cases h

end Stowage.Disk
