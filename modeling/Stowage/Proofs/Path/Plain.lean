/-
Plain paths: the spellings of locations, absolute and without anything that leads nowhere. A plain path
is told by its pieces, so plain paths that are the same path are equal, and the ancestors of a plain
path are plain.
-/
import Stowage.Proofs.Path.Spelling
import Mathlib.Data.List.TakeWhile

namespace Stowage.Path

/-! ## Joining a name -/

/-- A text that can be a piece of a spelling and leads somewhere. -/
structure IsPiece (n : String) : Prop where
  ne_nil : n.toList ≠ []
  ne_dot : n ≠ "."
  no_slash : '/' ∉ n.toList

theorem join_name (p : Path) {s : String} (hs : IsPiece s) :
    (p / s).text.toList = if p.text.toList = [] ∨ p.text.toList.getLast? = some '/'
      then p.text.toList ++ s.toList else p.text.toList ++ '/' :: s.toList := by
  have hrel : (⟨s⟩ : Path).isAbsolute = false := by
    have := hs.no_slash
    unfold isAbsolute
    rcases h : s.toList with _ | ⟨c, r⟩
    · rfl
    · rw [h] at this
      simpa using fun hc => this (by simp [hc])
  have he : p.text.isEmpty = true ↔ p.text.toList = [] := by
    rw [String.isEmpty_iff, ← String.toList_inj]; rfl
  show (p.join ⟨s⟩).text.toList = _
  unfold join
  rw [hrel]
  by_cases h1 : p.text.toList = []
  · simp [he.2 h1, h1]
  · have h1' : p.text.isEmpty = false := by rw [Bool.eq_false_iff]; exact fun h => h1 (he.1 h)
    by_cases h2 : p.text.toList.getLast? = some '/'
    · simp [h1', h2]
    · simp [h1', h1, h2]

theorem segments_join (p : Path) {s : String} (hs : IsPiece s) :
    (segments (p / s).text.toList).filter (· ≠ []) =
      (segments p.text.toList).filter (· ≠ []) ++ [s.toList] := by
  rw [join_name p hs]
  split
  · rename_i h
    rcases h with h | h
    · rw [h, List.nil_append, segments_plain hs.no_slash]
      simp [segments, hs.ne_nil]
    · obtain ⟨t, ht⟩ := List.getLast?_eq_some_iff.1 h
      rw [ht, List.append_assoc, List.singleton_append, segments_append, segments_append t [],
        segments_plain hs.no_slash]
      simp [segments, hs.ne_nil]
  · rw [segments_append, segments_plain hs.no_slash]
    simp [hs.ne_nil]

theorem pieces_join (p : Path) {s : String} (hs : IsPiece s) : (p / s).pieces = p.pieces ++ [s] := by
  unfold pieces; rw [segments_join p hs]; simp

theorem steps_join (p : Path) {s : String} (hs : IsPiece s) : (p / s).steps = p.pieces ++ [s] := by
  rw [steps_eq, pieces_join p hs, if_neg]
  have hlast : (p / s).text.toList.getLast? = s.toList.getLast? := by
    rw [join_name p hs]
    obtain ⟨c, hc⟩ : ∃ c, s.toList.getLast? = some c := ⟨_, List.getLast?_eq_some_getLast hs.ne_nil⟩
    split
    · rw [List.getLast?_append, hc]; rfl
    · rw [List.getLast?_append, List.getLast?_cons, hc]; rfl
  rw [hlast]
  intro h
  exact hs.no_slash (List.mem_of_getLast? h)

theorem isAbsolute_join (p : Path) {s : String} (hs : IsPiece s) :
    (p / s).isAbsolute = p.isAbsolute := by
  have h := hs.no_slash
  unfold isAbsolute
  rw [join_name p hs]
  rcases hp : p.text.toList with _ | ⟨c, r⟩
  · rcases hc : s.toList with _ | ⟨c, r⟩
    · rfl
    · rw [hc] at h
      simpa using fun he => h (by simp [he])
  · split <;> simp

theorem toList_join_ne_nil (p : Path) {s : String} (hs : IsPiece s) : (p / s).text.toList ≠ [] := by
  rw [join_name p hs]
  have := hs.ne_nil
  split <;> simp [this]

theorem moves_join (p : Path) {s : String} (hs : IsPiece s) : (p / s).moves = p.moves ++ [s] := by
  unfold moves; rw [pieces_join p hs]; simp [hs.ne_dot]

/-! ## Spellings of locations -/

theorem toList_ofLocation (names : List String) :
    (ofLocation names).text.toList = '/' :: ['/'].intercalate (names.map String.toList) := by
  unfold ofLocation
  rw [String.toList_append, String.toList_intercalate]; rfl

theorem segments_intercalate {ls : List (List Char)} (hne : ls ≠ []) (h : ∀ l ∈ ls, '/' ∉ l) :
    segments (['/'].intercalate ls) = ls := by
  induction ls with
  | nil => exact absurd rfl hne
  | cons l ls ih =>
    have hl := h l (List.mem_cons_self ..)
    rcases ls with _ | ⟨m, ls⟩
    · rw [List.intercalate_singleton]; exact segments_plain hl
    · have hi := ih (by simp) fun x hx => h x (List.mem_cons_of_mem _ hx)
      rw [List.intercalate_cons_cons, List.append_assoc, List.singleton_append, segments_append, hi,
        segments_plain hl]; rfl

theorem segments_ofLocation {names : List String} (h : ∀ n ∈ names, IsPiece n) :
    (segments (ofLocation names).text.toList).filter (· ≠ []) = names.map String.toList := by
  rw [toList_ofLocation, segments_slash]
  rcases names with _ | ⟨n, ns⟩
  · simp [List.intercalate, segments]
  · rw [segments_intercalate (by simp) (by
      intro l hl
      obtain ⟨m, hm, rfl⟩ := List.mem_map.1 hl
      exact (h m hm).no_slash)]
    rw [List.filter_cons_of_neg (by simp), List.filter_eq_self]
    intro l hl
    obtain ⟨m, hm, rfl⟩ := List.mem_map.1 hl
    simpa using (h m hm).ne_nil

theorem pieces_ofLocation {names : List String} (h : ∀ n ∈ names, IsPiece n) :
    (ofLocation names).pieces = names := by
  unfold pieces
  rw [segments_ofLocation h, List.map_map]
  simp

theorem moves_ofLocation {names : List String} (h : ∀ n ∈ names, IsPiece n) :
    (ofLocation names).moves = names := by
  unfold moves
  rw [pieces_ofLocation h, List.filter_eq_self]
  intro n hn
  simpa using (h n hn).ne_dot

/-- The path is spelled as a location is, though it may hold `..` pieces. -/
def IsPlain (p : Path) : Prop := ∃ names, (∀ n ∈ names, IsPiece n) ∧ p = ofLocation names

theorem eq_of_same_of_isPlain {p q : Path} (hp : p.IsPlain) (hq : q.IsPlain) (h : p.same q = true) :
    p = q := by
  obtain ⟨ns, hns, rfl⟩ := hp
  obtain ⟨ms, hms, rfl⟩ := hq
  have := moves_of_same h
  rw [moves_ofLocation hns, moves_ofLocation hms] at this
  rw [this]

/-! ## Ancestors -/

theorem ancestors_eq (p : Path) :
    p.ancestors = p :: (p.parent?.map ancestors).getD [] := by
  rw [ancestors]
  split
  · rename_i h; simp [h]
  · rename_i q h; simp [h]

theorem dropTail_slash (r : List Char) :
    dropTail ('/' :: r) = if r = [] then ['/'] else dropTail r := by
  rw [dropTail]

theorem dropTail_of_plain {c : Char} {s : List Char} (hc : c ≠ '/')
    (hs : ¬ (c = '.' ∧ s.head? = some '/')) : dropTail (c :: s) = c :: s := by
  unfold dropTail
  split
  · rename_i h; cases h
  · rename_i h; cases h; exact absurd rfl hc
  · rename_i h; cases h; exact absurd ⟨rfl, rfl⟩ hs
  · rfl

/-! ## Parents of plain paths -/

/-- The reversed spelling of a location with at least one name. -/
theorem reverse_ofLocation (ns : List String) (n : String) :
    (ofLocation (ns ++ [n])).text.toList.reverse =
      n.toList.reverse ++ '/' :: (if ns = [] then [] else (ofLocation ns).text.toList.reverse) := by
  unfold ofLocation
  split
  · rename_i h
    subst h
    simp
  · rename_i h
    rw [String.intercalate_append_of_ne_nil h (by simp), String.intercalate_singleton]
    simp

/-- Nothing is dropped from the end of a spelling that ends with a piece. -/
theorem dropTail_piece {n : String} (hn : IsPiece n) (t : List Char) :
    dropTail (n.toList.reverse ++ '/' :: t) = n.toList.reverse ++ '/' :: t := by
  rcases hr : n.toList.reverse with _ | ⟨c, s⟩
  · exact absurd (List.reverse_eq_nil_iff.1 hr) hn.ne_nil
  · have hmem : ∀ x ∈ c :: s, x ≠ '/' := fun x hx he => hn.no_slash (by
      rw [← List.mem_reverse, hr]; exact he ▸ hx)
    refine dropTail_of_plain (hmem c (List.mem_cons_self ..)) ?_
    rintro ⟨rfl, hs⟩
    rcases s with _ | ⟨x, s⟩
    · refine hn.ne_dot ?_
      rw [← String.toList_inj, ← List.reverse_reverse n.toList, hr]; rfl
    · exact hmem x (by simp) (by simpa using hs)

theorem parent?_ofLocation {ns : List String} {n : String} (h : ∀ m ∈ ns ++ [n], IsPiece m) :
    (ofLocation (ns ++ [n])).parent? = some (ofLocation ns) := by
  have hn : IsPiece n := h n (by simp)
  have hrev := reverse_ofLocation ns n
  have hstem : (ofLocation (ns ++ [n])).stem = (ofLocation (ns ++ [n])).text.toList.reverse := by
    unfold stem; rw [hrev, dropTail_piece hn]
  have hdrop : ((ofLocation (ns ++ [n])).stem.dropWhile (· ≠ '/')) =
      '/' :: (if ns = [] then [] else (ofLocation ns).text.toList.reverse) := by
    rw [hstem, hrev, List.dropWhile_append_of_pos, List.dropWhile_cons_of_neg (by simp)]
    intro c hc
    simpa using fun he : c = '/' => hn.no_slash (by rw [← List.mem_reverse]; exact he ▸ hc)
  have hup : (dropTail ('/' :: (if ns = [] then [] else (ofLocation ns).text.toList.reverse))).reverse =
      (ofLocation ns).text.toList := by
    rcases List.eq_nil_or_concat ns with rfl | ⟨ms, m, rfl⟩
    · rfl
    · rw [List.concat_eq_append] at h ⊢
      have hm : IsPiece m := h m (by simp)
      rw [if_neg (by simp), dropTail_slash, if_neg (by simp [reverse_ofLocation ms m]),
        reverse_ofLocation ms m, dropTail_piece hm, ← reverse_ofLocation, List.reverse_reverse]
  unfold parent?
  split
  · rename_i h0; rw [h0] at hdrop; cases hdrop
  · rename_i h0
    rw [hstem, hrev] at h0
    have := congrArg List.length h0
    have hpos : 0 < n.toList.length := List.length_pos_of_ne_nil hn.ne_nil
    simp only [List.length_append, List.length_reverse, List.length_cons, List.length_nil] at this
    omega
  · rw [hdrop, hup, String.ofList_toList]

theorem parent?_ofLocation_nil : (ofLocation []).parent? = none := by decide

theorem isPlain_of_parent {p q : Path} (hp : p.IsPlain) (h : p.parent? = some q) : q.IsPlain := by
  obtain ⟨ns, hns, rfl⟩ := hp
  rcases List.eq_nil_or_concat ns with rfl | ⟨ms, m, rfl⟩
  · rw [parent?_ofLocation_nil] at h; cases h
  · rw [List.concat_eq_append] at hns h
    rw [parent?_ofLocation hns] at h
    cases h
    exact ⟨ms, fun m hm => hns m (List.mem_append_left _ hm), rfl⟩

theorem mem_ancestors_of_parent {p q r : Path} (h : p.parent? = some q) (hr : r ∈ q.ancestors) :
    r ∈ p.ancestors := by
  rw [ancestors_eq, h]; exact List.mem_cons_of_mem _ hr

theorem isPlain_of_mem_ancestors {p q : Path} (hp : p.IsPlain) (h : q ∈ p.ancestors) : q.IsPlain := by
  revert h
  fun_induction ancestors p with
  | case1 p _ =>
    intro h
    rw [List.mem_singleton.1 h]; exact hp
  | case2 p r hr ih =>
    intro h
    rcases List.mem_cons.1 h with rfl | h
    · exact hp
    · exact ih (isPlain_of_parent hp hr) h

theorem mem_ancestors_self (p : Path) : p ∈ p.ancestors := by
  rw [ancestors_eq]
  exact List.mem_cons_self ..

/-- What follows an ancestor among the ancestors of a path are its own. -/
theorem ancestors_of_split {p q : Path} {before after : List Path} (h : p.ancestors = before ++ q :: after) :
    q.ancestors = q :: after := by
  induction before generalizing p with
  | nil =>
    have hp : p = q := by
      rw [ancestors_eq] at h
      exact (List.cons.inj h).1
    exact hp ▸ h
  | cons b before ih =>
    rw [ancestors_eq, List.cons_append] at h
    have htail := (List.cons.inj h).2
    rcases hr : p.parent? with _ | r
    · rw [hr] at htail
      simp at htail
    · rw [hr] at htail
      exact ih htail

theorem ancestors_of_tail_split {p q : Path} {before after : List Path} (h : p.ancestors.tail = before ++ q :: after) :
    q.ancestors = q :: after := by
  have hself : p.ancestors = p :: p.ancestors.tail := by rw [ancestors_eq, List.tail_cons]
  rw [h, ← List.cons_append] at hself
  exact ancestors_of_split hself

theorem ancestors_tail {p up : Path} (h : p.parent? = some up) : p.ancestors.tail = up.ancestors := by
  rw [ancestors_eq, h]
  rfl

/-- An ancestor is spelled no longer than the path. -/
theorem length_le_of_mem_ancestors {p q : Path} (h : q ∈ p.ancestors) :
    q.text.toList.length ≤ p.text.toList.length := by
  revert h
  fun_induction ancestors p with
  | case1 p _ =>
    intro h
    rw [List.mem_singleton.1 h]
  | case2 p r hr ih =>
    intro h
    rcases List.mem_cons.1 h with rfl | h
    · exact Nat.le_refl _
    · exact (ih h).trans (length_parent?_lt hr).le

theorem length_lt_of_mem_tail_ancestors {p q : Path} (h : q ∈ p.ancestors.tail) :
    q.text.toList.length < p.text.toList.length := by
  rcases hp : p.parent? with _ | up
  · rw [ancestors_eq, hp] at h
    cases h
  · rw [ancestors_tail hp] at h
    exact (length_le_of_mem_ancestors h).trans_lt (length_parent?_lt hp)

end Stowage.Path
