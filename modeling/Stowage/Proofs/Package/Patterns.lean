/-
Keys of the exports that take in other keys: patterns, whose star stands for a part of the key, and directories, which the
key lies below. The first directory is used, and where there is none the first pattern with the most text before its star.
-/
import Stowage.Proofs.Package.Leaves
import Mathlib.Data.Set.Finite.List
import Mathlib.Data.Set.Finite.Lemmas

namespace Stowage.Exports

/-! ## Cutting keys -/

theorem cutStar_cons (c : Char) (r : List Char) : cutStar (c :: r) =
    if c = '*' then some ([], r) else (cutStar r).map fun (a, b) => (c :: a, b) := by
  by_cases hc : c = '*'
  · subst hc
    rfl
  · rw [if_neg hc, cutStar]
    exact fun h => hc h

theorem cutStar_eq_none {cs : List Char} : cutStar cs = none ↔ '*' ∉ cs := by
  induction cs with
  | nil => simp [cutStar]
  | cons c r ih =>
    rw [cutStar_cons, List.mem_cons, not_or]
    split
    · rename_i hc
      simp [hc]
    · rename_i hc
      rw [Option.map_eq_none_iff, ih]
      exact (and_iff_right (Ne.symm hc)).symm

theorem cutStar_eq_some {cs a b : List Char} : cutStar cs = some (a, b) ↔ cs = a ++ '*' :: b ∧ '*' ∉ a := by
  induction cs generalizing a with
  | nil => simp [cutStar]
  | cons c r ih =>
    rw [cutStar_cons]
    by_cases hc : c = '*'
    · subst hc
      rw [if_pos rfl]
      rcases a with _ | ⟨x, a⟩
      · simp
      · simp only [Option.some.injEq, Prod.mk.injEq, List.cons_append, List.cons.injEq, List.mem_cons, not_or]
        exact ⟨fun h => (nomatch h.1), fun h => absurd h.1.1 h.2.1⟩
    · rw [if_neg hc]
      rcases a with _ | ⟨x, a⟩
      · simp [hc]
      · simp only [Option.map_eq_some_iff, Prod.exists, Prod.mk.injEq, List.cons.injEq, List.cons_append, List.mem_cons,
          not_or]
        constructor
        · rintro ⟨a', b', h, ⟨rfl, rfl⟩, rfl⟩
          obtain ⟨rfl, ha⟩ := ih.1 h
          exact ⟨⟨rfl, rfl⟩, Ne.symm hc, ha⟩
        · rintro ⟨⟨rfl, rfl⟩, -, ha⟩
          exact ⟨a, b, ih.2 ⟨rfl, ha⟩, ⟨rfl, rfl⟩, rfl⟩

theorem between?_eq_some {start stop key m : List Char} :
    between? start stop key = some m ↔ key = start ++ m ++ stop := by
  unfold between?
  rw [Option.ite_none_right_eq_some, List.isPrefixOf_iff_prefix, List.isSuffixOf_iff_suffix]
  constructor
  · rintro ⟨⟨hlength, ⟨r, rfl⟩, hstop⟩, hm⟩
    rw [List.length_append, Nat.add_le_add_iff_left] at hlength
    obtain ⟨t, rfl⟩ := List.suffix_of_suffix_length_le hstop (List.suffix_append start r) hlength
    rw [← Option.some.inj hm]
    simp
  · rintro rfl
    refine ⟨⟨by simp, ⟨m ++ stop, by simp⟩, ⟨start ++ m, rfl⟩⟩, ?_⟩
    simp

/-! ## Taking in a key -/

/-- How a key is taken in. -/
inductive Reading where
  /-- The star of a pattern stands for `m`, which follows `start` and comes before `stop`. -/
  | star (start m stop : String)
  /-- The key is `rest` below a directory. -/
  | below (rest : String)
  deriving DecidableEq

/-- A key of the exports takes in `key`: as a pattern, which is cut at its first star, or as a directory, which has no star
and ends in a separator. -/
def Fits (key pattern : String) : Reading → Prop
  | .star start m stop => pattern = start ++ "*" ++ stop ∧ '*' ∉ start.toList ∧ key = start ++ m ++ stop
  | .below rest => '*' ∉ pattern.toList ∧ pattern.toList.getLast? = some '/' ∧ key = pattern ++ rest

def TakesIn (key pattern : String) : Prop := ∃ reading, Fits key pattern reading

/-- What a target stands for when its key takes in another one. -/
def Reading.resolve (conditions : List String) (value : Json) : Reading → Option String
  | .star _ m _ => target conditions (some m.toList) value
  | .below rest => (target conditions none value).map (· ++ rest)

/-- How much of a key of the exports stands before its first star: all of it if there is none. -/
def reach (pattern : String) : Nat := (pattern.toList.takeWhile (· ≠ '*')).length

section
variable {key pattern start m stop rest : String} {reading reading' : Reading}

theorem toList_pattern (start stop : String) :
    (start ++ "*" ++ stop).toList = start.toList ++ '*' :: stop.toList := by
  simp

theorem cutStar_toList : cutStar pattern.toList = some (start.toList, stop.toList) ↔
    pattern = start ++ "*" ++ stop ∧ '*' ∉ start.toList := by
  rw [cutStar_eq_some, ← toList_pattern, String.toList_inj]

theorem between?_toList : between? start.toList stop.toList key.toList = some m.toList ↔
    key = start ++ m ++ stop := by
  rw [between?_eq_some, ← String.toList_inj, String.toList_append, String.toList_append]

theorem Fits.cutStar_eq (h : Fits key pattern (.star start m stop)) :
    cutStar pattern.toList = some (start.toList, stop.toList) :=
  cutStar_toList.2 ⟨h.1, h.2.1⟩

theorem Fits.mem_star (h : Fits key pattern (.star start m stop)) : '*' ∈ pattern.toList := by
  rw [h.1, toList_pattern]
  simp

theorem Fits.reach_star (h : Fits key pattern (.star start m stop)) : reach pattern = start.length := by
  have hstart : ∀ c ∈ start.toList, decide (c ≠ '*') = true := fun c hc => by
    rw [decide_eq_true_eq]
    rintro rfl
    exact h.2.1 hc
  unfold reach
  rw [h.1, toList_pattern, List.takeWhile_append_of_pos hstart, List.takeWhile_cons_of_neg (by simp),
    List.append_nil, String.length_toList]

/-- The way in which a key of the exports takes in a key. -/
def reading? (key pattern : String) : Option Reading :=
  match cutStar pattern.toList with
  | some (start, stop) => (between? start stop key.toList).map fun m =>
    .star (String.ofList start) (String.ofList m) (String.ofList stop)
  | none =>
    if pattern.toList.getLast? = some '/' ∧ pattern.toList.isPrefixOf key.toList then
      some (.below (String.ofList (key.toList.drop pattern.toList.length)))
    else none

theorem fits_of_reading? (h : reading? key pattern = some reading) : Fits key pattern reading := by
  unfold reading? at h
  rcases hcut : cutStar pattern.toList with _ | ⟨start, stop⟩
  · simp only [hcut, Option.ite_none_right_eq_some, Option.some.injEq] at h
    obtain ⟨⟨hdir, hbelow⟩, rfl⟩ := h
    obtain ⟨rest, hrest⟩ := List.isPrefixOf_iff_prefix.1 hbelow
    refine ⟨cutStar_eq_none.1 hcut, hdir, ?_⟩
    rw [← String.toList_inj, String.toList_append, String.toList_ofList, ← hrest, List.drop_left]
  · simp only [hcut, Option.map_eq_some_iff] at h
    obtain ⟨m, hm, rfl⟩ := h
    obtain ⟨hpattern, hstar⟩ := cutStar_eq_some.1 hcut
    rw [between?_eq_some] at hm
    refine ⟨?_, by rwa [String.toList_ofList], ?_⟩
    · rw [← String.toList_inj, toList_pattern, String.toList_ofList, String.toList_ofList, hpattern]
    · rw [← String.toList_inj, String.toList_append, String.toList_append, String.toList_ofList, String.toList_ofList,
        String.toList_ofList, hm]

theorem Fits.reading?_eq (h : Fits key pattern reading) : reading? key pattern = some reading := by
  unfold reading?
  rcases reading with ⟨start, m, stop⟩ | rest
  · simp only [h.cutStar_eq, between?_toList.2 h.2.2, Option.map_some, String.ofList_toList]
  · obtain ⟨hstar, hdir, rfl⟩ := h
    simp only [cutStar_eq_none.2 hstar]
    rw [if_pos ⟨hdir, by simp⟩, String.toList_append, List.drop_left, String.ofList_toList]

/-- A key of the exports takes in another key in one way. -/
theorem Fits.unique (h : Fits key pattern reading) (h' : Fits key pattern reading') : reading = reading' :=
  Option.some.inj (h.reading?_eq.symm.trans h'.reading?_eq)

theorem takesIn_iff : TakesIn key pattern ↔ (reading? key pattern).isSome = true := by
  rw [Option.isSome_iff_exists]
  exact ⟨fun ⟨r, h⟩ => ⟨r, h.reading?_eq⟩, fun ⟨r, h⟩ => ⟨r, fits_of_reading? h⟩⟩

end

instance (key pattern : String) : Decidable (TakesIn key pattern) := decidable_of_iff _ takesIn_iff.symm

/-! ## The search -/

section
variable {key : String}

/-- A step of the search: a pattern that fits replaces the best one so far if more stands before its star, a directory that
fits ends the search, and what does not fit is passed over. -/
theorem search_cons (key pattern : String) (value : Json) (r : List (String × Json)) (best : Option Match) :
    search key.toList ((pattern, value) :: r) best = match reading? key pattern with
      | some (.star start m _) =>
        if best.all (fun b => decide (b.start < start.length)) then
          search key.toList r (some ⟨start.length, m.toList, value⟩)
        else search key.toList r best
      | some (.below rest) => .directory value rest.toList
      | none => search key.toList r best := by
  unfold reading?
  rw [search]
  rcases cutStar pattern.toList with _ | ⟨start, stop⟩
  · dsimp only
    split
    · exact congrArg _ (String.toList_ofList).symm
    · rfl
  · dsimp only
    rcases between? start stop key.toList with _ | m
    · rfl
    · simp only [Option.map_some, String.toList_ofList, ← String.length_toList]

/-- As long as no directory fits the search goes on, with one of the patterns before or what it had. -/
theorem search_append {before : List (String × Json)} (hdir : ∀ e ∈ before, ∀ rest, ¬ Fits key e.1 (.below rest))
    (P : Nat → Prop) (hP : ∀ e ∈ before, TakesIn key e.1 → P (reach e.1)) (r : List (String × Json))
    (best : Option Match) (hbest : ∀ b ∈ best, P b.start) :
    ∃ best', search key.toList (before ++ r) best = search key.toList r best' ∧ ∀ b ∈ best', P b.start := by
  induction before generalizing best with
  | nil => exact ⟨best, rfl, hbest⟩
  | cons e before ih =>
    rw [List.forall_mem_cons] at hdir hP
    rw [List.cons_append]
    rw [search_cons]
    rcases hr : reading? key e.1 with _ | ⟨start, m, stop⟩ | rest
    · exact ih hdir.2 hP.2 _ hbest
    · have hfits := fits_of_reading? hr
      dsimp only
      split
      · refine ih hdir.2 hP.2 _ fun b hb => ?_
        cases hb
        exact hfits.reach_star ▸ hP.1 ⟨_, hfits⟩
      · exact ih hdir.2 hP.2 _ hbest
    · exact absurd (fits_of_reading? hr) (hdir.1 rest)

/-- What is found stays if nothing after it has more before its star. -/
theorem search_best {after : List (String × Json)} {b : Match}
    (h : ∀ e ∈ after, TakesIn key e.1 → '*' ∈ e.1.toList ∧ reach e.1 ≤ b.start) :
    search key.toList after (some b) = .best (some b) := by
  induction after with
  | nil => rfl
  | cons e after ih =>
    rw [List.forall_mem_cons] at h
    rw [search_cons]
    rcases hr : reading? key e.1 with _ | ⟨start, m, stop⟩ | rest
    · exact ih h.2
    · have hfits := fits_of_reading? hr
      have hle := (h.1 ⟨_, hfits⟩).2
      rw [hfits.reach_star] at hle
      dsimp only
      rw [if_neg (by simpa using hle)]
      exact ih h.2
    · have hfits := fits_of_reading? hr
      exact absurd (h.1 ⟨_, hfits⟩).1 hfits.1

theorem search_none {members : List (String × Json)} (h : ∀ e ∈ members, ¬ TakesIn key e.1) :
    search key.toList members none = .best none := by
  induction members with
  | nil => rfl
  | cons e members ih =>
    rw [List.forall_mem_cons] at h
    rw [takesIn_iff, Bool.not_eq_true, Option.isSome_eq_false_iff, Option.isNone_iff_eq_none] at h
    rw [search_cons, h.1]
    exact ih h.2

end

/-! ## The member that is used -/

/-- The member takes in the key, and nothing but the order of the members keeps it from being used: it is a directory, or
there is no directory and no pattern with more before its star. -/
structure Contends (members : List (String × Json)) (key : String) (e : String × Json) : Prop where
  mem : e ∈ members
  takesIn : TakesIn key e.1
  best : '*' ∉ e.1.toList ∨ ∀ e' ∈ members, TakesIn key e'.1 → '*' ∈ e'.1.toList ∧ reach e'.1 ≤ reach e.1

/-- The first of the members that contend. -/
def Used (members : List (String × Json)) (key : String) (e : String × Json) : Prop := ∃ before after,
  members = before ++ e :: after ∧ Contends members key e ∧ ∀ e' ∈ before, ¬ Contends members key e'

section
variable {members : List (String × Json)} {key : String} {e : String × Json} {reading : Reading}

theorem Used.contends (h : Used members key e) : Contends members key e := by
  obtain ⟨before, after, -, he, -⟩ := h
  exact he

/-- Among members that take in the key some contend. -/
theorem exists_contends (h : ∃ e ∈ members, TakesIn key e.1) : ∃ e, Contends members key e := by
  by_cases hdir : ∃ e ∈ members, TakesIn key e.1 ∧ '*' ∉ e.1.toList
  · obtain ⟨e, he, htakes, hstar⟩ := hdir
    exact ⟨e, he, htakes, .inl hstar⟩
  · push Not at hdir
    have hfinite : {e | e ∈ members ∧ TakesIn key e.1}.Finite := members.finite_toSet.subset fun _ he => he.1
    obtain ⟨e, ⟨he, htakes⟩, hmax⟩ := Set.exists_max_image _ (fun e => reach e.1) hfinite h
    exact ⟨e, he, htakes, .inr fun e' he' htakes' => ⟨hdir e' he' htakes', hmax e' ⟨he', htakes'⟩⟩⟩

theorem exists_used (h : ∃ e ∈ members, TakesIn key e.1) : ∃ e, Used members key e := by
  classical
  obtain ⟨e, he⟩ := exists_contends h
  rcases hfirst : members.find? fun e => decide (Contends members key e) with _ | first
  · exact absurd he (by simpa using List.find?_eq_none.1 hfirst e he.mem)
  · obtain ⟨hcontends, before, after, hmembers, hbefore⟩ := List.find?_eq_some_iff_append.1 hfirst
    exact ⟨first, before, after, hmembers, by simpa using hcontends, by simpa using hbefore⟩

/-- The search ends with the member that is used, as a directory or as a pattern. -/
theorem search_of_used (h : Used members key e) (hfits : Fits key e.1 reading) :
    search key.toList members none = match reading with
      | .star start m _ => .best (some ⟨start.length, m.toList, e.2⟩)
      | .below rest => .directory e.2 rest.toList := by
  obtain ⟨before, after, hmembers, he, hbefore⟩ := h
  have hmem : ∀ e' ∈ before, e' ∈ members := fun e' he' => hmembers ▸ List.mem_append_left _ he'
  -- a directory before the member would contend
  have hdir : ∀ e' ∈ before, ∀ rest, ¬ Fits key e'.1 (.below rest) := fun e' he' rest hbelow =>
    hbefore e' he' ⟨hmem e' he', ⟨_, hbelow⟩, .inl hbelow.1⟩
  rcases reading with ⟨start, m, stop⟩ | rest
  · have hbest := he.best.resolve_left (not_not_intro hfits.mem_star)
    rw [hfits.reach_star] at hbest
    -- and so would a pattern before it with as much before its star
    have hshort : ∀ e' ∈ before, TakesIn key e'.1 → reach e'.1 < start.length := by
      intro e' he' htakes
      refine Nat.lt_of_le_of_ne (hbest e' (hmem e' he') htakes).2 fun heq => ?_
      exact hbefore e' he' ⟨hmem e' he', htakes, .inr (heq ▸ hbest)⟩
    obtain ⟨best, hsearch, hless⟩ :=
      search_append hdir (· < start.length) hshort (e :: after) none fun _ hb => nomatch hb
    rw [hmembers, hsearch, search_cons, hfits.reading?_eq]
    dsimp only
    rw [if_pos ((Option.all_eq_true ..).2 fun b hb => decide_eq_true (hless b hb))]
    exact search_best fun e' he' => hbest e' (hmembers ▸ List.mem_append_right _ (List.mem_cons_of_mem _ he'))
  · obtain ⟨best, hsearch, -⟩ :=
      search_append hdir (fun _ => True) (fun _ _ _ => trivial) (e :: after) none fun _ _ => trivial
    rw [hmembers, hsearch, search_cons, hfits.reading?_eq]

/-! ### Resolving -/

theorem keyed?_object (hdot : ∃ m ∈ members, m.1.toList.head? = some '.') :
    keyed? (.object members) = some members := by
  obtain ⟨m, hm, hhead⟩ := hdot
  refine if_neg fun hall => ?_
  simpa [hhead] using List.all_eq_true.1 hall m hm

/-- A key that is not given is resolved by the search. -/
theorem resolve_object (hdot : ∃ m ∈ members, m.1.toList.head? = some '.') (hkey : ∀ m ∈ members, m.1 ≠ key)
    (conditions : List String) : resolve (.object members) key conditions =
      match search key.toList members none with
      | .directory value rest => (target conditions none value).map (· ++ String.ofList rest)
      | .best none => none
      | .best (some m) => target conditions (some m.star) m.value := by
  have hlookup : members.lookup key = none :=
    List.lookup_eq_none_iff.2 fun m hm => bne_iff_ne.2 (Ne.symm (hkey m hm))
  unfold resolve
  rw [keyed?_object hdot]
  dsimp only
  split
  · rename_i hgiven
    rw [hlookup] at hgiven
    cases hgiven
  · rfl

theorem resolve_of_used (hdot : ∃ m ∈ members, m.1.toList.head? = some '.') (hkey : ∀ m ∈ members, m.1 ≠ key)
    (h : Used members key e) (hfits : Fits key e.1 reading) (conditions : List String) :
    resolve (.object members) key conditions = reading.resolve conditions e.2 := by
  rw [resolve_object hdot hkey, search_of_used h hfits]
  rcases reading with ⟨start, m, stop⟩ | rest
  · rfl
  · unfold Reading.resolve
    dsimp only
    rw [String.ofList_toList]

theorem resolve_of_none (hdot : ∃ m ∈ members, m.1.toList.head? = some '.') (hkey : ∀ m ∈ members, m.1 ≠ key)
    (h : ∀ e ∈ members, ¬ TakesIn key e.1) (conditions : List String) :
    resolve (.object members) key conditions = none := by
  rw [resolve_object hdot hkey, search_none h]

end

/-! ## Bytes -/

/-- The bytes of `s` from `i` up to `j` are the text `t`, and no character is cut at either end. -/
structure IsSlice (s : String) (i j : Nat) (t : String) : Prop where
  valid_start : String.Pos.Raw.IsValid s ⟨i⟩
  valid_stop : String.Pos.Raw.IsValid s ⟨j⟩
  le : i ≤ j
  bytes : s.toByteArray.extract i j = t.toByteArray

theorem isSlice_append (a t b : String) : IsSlice (a ++ t ++ b) a.utf8ByteSize (a.utf8ByteSize + t.utf8ByteSize) t where
  valid_start := String.Pos.Raw.isValid_iff_exists_append.2 ⟨a, t ++ b, String.append_assoc .., rfl⟩
  valid_stop := String.Pos.Raw.isValid_iff_exists_append.2 ⟨a ++ t, b, rfl, by simp [String.Pos.Raw.ext_iff]⟩
  le := Nat.le_add_right ..
  bytes := by
    rw [String.append_assoc, String.toByteArray_append, String.toByteArray_append]
    exact (ByteArray.extract_append_size_add' (i := 0) String.size_toByteArray.symm).trans
      (ByteArray.extract_append_eq_left String.size_toByteArray.symm)

/-- All that is done with the bytes of a pattern and of a key: the pattern is cut around its star, the sizes and the ends
are compared, and what the star stands for is cut out of the key. -/
structure CutsWhole (key pattern start stop : String) : Prop where
  head : IsSlice pattern 0 start.utf8ByteSize start
  tail : IsSlice pattern (start.utf8ByteSize + 1) pattern.utf8ByteSize stop
  compared : (start.utf8ByteSize + stop.utf8ByteSize ≤ key.utf8ByteSize ∧ start.toList <+: key.toList ∧
    stop.toList <:+ key.toList) ↔ ∃ m, key = start ++ m ++ stop
  middle : ∀ m, key = start ++ m ++ stop →
    IsSlice key start.utf8ByteSize (key.utf8ByteSize - stop.utf8ByteSize) m

theorem exists_middle_iff {key start stop : String} :
    (start.utf8ByteSize + stop.utf8ByteSize ≤ key.utf8ByteSize ∧ start.toList <+: key.toList ∧
      stop.toList <:+ key.toList) ↔ ∃ m, key = start ++ m ++ stop := by
  constructor
  · rintro ⟨hsize, ⟨r, hr⟩, ⟨l, hl⟩⟩
    rcases List.append_eq_append_iff.1 (hr.trans hl.symm) with ⟨m, -, hm⟩ | ⟨m, -, hm⟩
    · refine ⟨String.ofList m, ?_⟩
      rw [← String.toList_inj, String.toList_append, String.toList_append, String.toList_ofList, ← hr, hm,
        List.append_assoc]
    · -- what both ends share has no size
      have hkey : key = start ++ String.ofList r := by
        rw [← String.toList_inj, String.toList_append, String.toList_ofList, hr]
      have hstop : stop = String.ofList m ++ String.ofList r := by
        rw [← String.toList_inj, String.toList_append, String.toList_ofList, String.toList_ofList, hm]
      have hzero : (String.ofList m).utf8ByteSize = 0 := by
        rw [hkey, hstop, String.utf8ByteSize_append, String.utf8ByteSize_append] at hsize
        omega
      refine ⟨"", ?_⟩
      rw [hkey, hstop, String.utf8ByteSize_eq_zero_iff.1 hzero]
      simp
  · rintro ⟨m, rfl⟩
    refine ⟨?_, ?_, ?_⟩
    · rw [String.utf8ByteSize_append, String.utf8ByteSize_append]
      omega
    · rw [String.append_assoc, String.toList_append]
      exact List.prefix_append ..
    · rw [String.toList_append]
      exact List.suffix_append ..

theorem cutsWhole {key pattern start stop : String} (h : pattern = start ++ "*" ++ stop) :
    CutsWhole key pattern start stop where
  head := by
    have hslice := isSlice_append "" start ("*" ++ stop)
    simpa [h, String.append_assoc] using hslice
  tail := by
    have hsize : "*".utf8ByteSize = 1 := by decide
    have hslice := isSlice_append (start ++ "*") stop ""
    simpa [h, hsize] using hslice
  compared := exists_middle_iff
  middle := by
    rintro m rfl
    have hstop : (start ++ m ++ stop).utf8ByteSize - stop.utf8ByteSize = start.utf8ByteSize + m.utf8ByteSize := by
      rw [String.utf8ByteSize_append, String.utf8ByteSize_append, Nat.add_sub_cancel]
    rw [hstop]
    exact isSlice_append start m stop

/-! ## Patterns alone -/

section
variable {members : List (String × Json)} {key : String}

/-- Where no key ends in a separator, what takes in a key is a pattern. -/
theorem takesIn_iff_star {pattern : String} (h : pattern.toList.getLast? ≠ some '/') :
    TakesIn key pattern ↔ ∃ start m stop, Fits key pattern (.star start m stop) := by
  constructor
  · rintro ⟨⟨start, m, stop⟩ | rest, hfits⟩
    · exact ⟨start, m, stop, hfits⟩
    · exact absurd hfits.2.1 h
  · rintro ⟨start, m, stop, hfits⟩
    exact ⟨_, hfits⟩

/-- Exports of which no key ends in a separator: a key that is not given and that no pattern matches stands for nothing. Any
other one is resolved by the first of the matching patterns with the longest text before the star, what the star stands for
being put in the place of every star of the string that is chosen. Each pattern is cut, compared with the key and cut out
of it between characters. -/
theorem resolve_pattern (hdot : ∃ m ∈ members, m.1.toList.head? = some '.')
    (hslash : ∀ m ∈ members, m.1.toList.getLast? ≠ some '/') (hkey : ∀ m ∈ members, m.1 ≠ key)
    (conditions : List String) :
    (∀ e ∈ members, ∀ start stop, e.1 = start ++ "*" ++ stop → '*' ∉ start.toList →
      CutsWhole key e.1 start stop) ∧
    ((∀ e ∈ members, ∀ start m stop, ¬ Fits key e.1 (.star start m stop)) →
      resolve (.object members) key conditions = none) ∧
    ((∃ e ∈ members, ∃ start m stop, Fits key e.1 (.star start m stop)) →
      ∃ before pattern value after start m stop, members = before ++ (pattern, value) :: after ∧
        Fits key pattern (.star start m stop) ∧
        (∀ e ∈ before, ∀ start' m' stop', Fits key e.1 (.star start' m' stop') → start'.length < start.length) ∧
        (∀ e ∈ after, ∀ start' m' stop', Fits key e.1 (.star start' m' stop') → start'.length ≤ start.length) ∧
        resolve (.object members) key conditions = target conditions (some m.toList) value ∧
        ∀ t, resolve (.object members) key conditions = some t ↔
          ∃ s, target conditions none value = some s ∧ Filled m s t) := by
  refine ⟨fun e _ start stop he _ => cutsWhole he, fun hnone => ?_, ?_⟩
  · refine resolve_of_none hdot hkey (fun e he htakes => ?_) conditions
    obtain ⟨start, m, stop, hfits⟩ := (takesIn_iff_star (hslash e he)).1 htakes
    exact hnone e he start m stop hfits
  · rintro ⟨e, he, start, m, stop, hfits⟩
    obtain ⟨⟨pattern, value⟩, hused⟩ := exists_used ⟨e, he, _, hfits⟩
    have hcontends := hused.contends
    obtain ⟨start, m, stop, hfits⟩ := (takesIn_iff_star (hslash _ hcontends.mem)).1 hcontends.takesIn
    have hbest := hcontends.best.resolve_left (not_not_intro hfits.mem_star)
    have hresolve := resolve_of_used hdot hkey hused hfits conditions
    obtain ⟨before, after, rfl, -, hbefore⟩ := hused
    have hle : ∀ e ∈ before ++ (pattern, value) :: after, ∀ start' m' stop', Fits key e.1 (.star start' m' stop') →
        start'.length ≤ start.length := by
      intro e he start' m' stop' hfits'
      have h := (hbest e he ⟨_, hfits'⟩).2
      rwa [hfits'.reach_star, hfits.reach_star] at h
    refine ⟨before, pattern, value, after, start, m, stop, rfl, hfits, fun e he start' m' stop' hfits' => ?_,
      fun e he => hle e (List.mem_append_right _ (List.mem_cons_of_mem _ he)), hresolve, fun t => ?_⟩
    · -- with as much before its star the earlier pattern would be used
      have hmem := List.mem_append_left ((pattern, value) :: after) he
      refine Nat.lt_of_le_of_ne (hle e hmem start' m' stop' hfits') fun heq => hbefore e he ?_
      refine ⟨hmem, ⟨_, hfits'⟩, .inr fun e' he' htakes => ?_⟩
      rw [hfits'.reach_star, heq, ← hfits.reach_star]
      exact hbest e' he' htakes
    · rw [hresolve]
      unfold Reading.resolve
      dsimp only
      rw [target_some, Option.map_eq_some_iff]
      simp only [filled_iff, eq_comm]

end

/-- Two patterns that start alike and one whose ends are the same character. -/
def accents : List (String × Json) := [
  ("./é*é", .string "./x/*"),
  ("./*", .array [.null, .string "./y/*/*.js"]),
  ("./*é", .string "./z/*")]

theorem resolve_pattern_accents :
    (∃ before pattern value after start m stop, accents = before ++ (pattern, value) :: after ∧
      Fits "./é" pattern (.star start m stop) ∧ resolve (.object accents) "./é" [] = target [] (some m.toList) value) ∧
    resolve (.object accents) "./é" [] = some "./y/é/é.js" ∧ resolve (.object accents) "é" [] = none ∧
    IsSlice "./é" 2 4 "é" := by
  have hdot : ∃ m ∈ accents, m.1.toList.head? = some '.' := ⟨_, List.mem_cons_self .., by decide⟩
  have hslash : ∀ m ∈ accents, m.1.toList.getLast? ≠ some '/' := by simp [accents]
  have hkey : ∀ key ∈ ["./é", "é"], ∀ m ∈ accents, m.1 ≠ key := by simp [accents]
  have hfits : Fits "./é" "./*" (.star "./" "é" "") := ⟨by decide, by decide, by decide⟩
  have hmem : ("./*", .array [.null, .string "./y/*/*.js"]) ∈ accents := by simp [accents]
  obtain ⟨hcuts, -, hfound⟩ := resolve_pattern hdot hslash (hkey "./é" (by simp)) []
  obtain ⟨before, pattern, value, after, start, m, stop, hmembers, hstar, -, -, hresolve, -⟩ :=
    hfound ⟨_, hmem, _, _, _, hfits⟩
  refine ⟨⟨before, pattern, value, after, start, m, stop, hmembers, hstar, hresolve⟩, by decide +kernel, ?_, ?_⟩
  · refine (resolve_pattern hdot hslash (hkey "é" (by simp)) []).2.1 fun e he start m stop hstar => ?_
    have hnone : ∀ e ∈ accents, ¬ TakesIn "é" e.1 := by decide +kernel
    exact hnone e he ⟨_, hstar⟩
  · exact (hcuts _ hmem "./" "" (by decide) (by decide)).middle "é" (by decide)

end Stowage.Exports
