/-
What lies below a path, told by pieces: joining adds the pieces of the second path, a path starts with
another one if its pieces do, and the name below a root is made up of the pieces that are left. Names that
are made up of pieces keep them when they are joined, taken apart or led to from each other.
-/
import Stowage.Workspace
import Stowage.Proofs.Path.Plain

namespace Stowage.Path

/-- A piece that is no `..` step. -/
structure IsName (n : String) : Prop extends IsPiece n where
  ne_up : n ≠ ".."

/-- The name that some pieces make up. -/
def joined (pieces : List String) : String := "/".intercalate pieces

/-! ## Moves of spellings -/

/-- The pieces of some characters that lead somewhere. -/
def movesOf (cs : List Char) : List String :=
  ((segments cs).filter fun s => s ≠ [] ∧ s ≠ ['.']).map String.ofList

theorem ofList_eq_dot {s : List Char} : String.ofList s = "." ↔ s = ['.'] := by
  rw [← String.toList_inj, String.toList_ofList]; rfl

theorem moves_eq (p : Path) : p.moves = movesOf p.text.toList := by
  unfold moves pieces movesOf
  rw [List.filter_map, List.filter_filter]
  congr 1
  refine List.filter_congr fun s _ => ?_
  rw [Function.comp_apply, Bool.and_comm]
  simp [ofList_eq_dot]

theorem movesOf_append (a b : List Char) : movesOf (a ++ '/' :: b) = movesOf a ++ movesOf b := by
  unfold movesOf
  rw [segments_append, List.filter_append, List.map_append]

theorem movesOf_slash (r : List Char) : movesOf ('/' :: r) = movesOf r := movesOf_append [] r

theorem movesOf_dot (r : List Char) : movesOf ('.' :: '/' :: r) = movesOf r := movesOf_append ['.'] r

theorem movesOf_concat_slash (r : List Char) : movesOf (r ++ ['/']) = movesOf r := by
  rw [movesOf_append r []]
  simp [movesOf, segments]

theorem movesOf_segment {s : List Char} (h : '/' ∉ s) :
    movesOf s = if s = [] ∨ s = ['.'] then [] else [String.ofList s] := by
  unfold movesOf
  rw [segments_plain h]
  by_cases h1 : s = [] <;> by_cases h2 : s = ['.'] <;> simp [h1, h2]

theorem moves_segment {s : String} (hs : '/' ∉ s.toList) :
    (⟨s⟩ : Path).moves = if s = "" ∨ s = "." then [] else [s] := by
  have hdot : s.toList = ['.'] ↔ s = "." := by rw [← String.toList_inj]; rfl
  have hnil : s.toList = [] ↔ s = "" := by rw [← String.toList_inj]; rfl
  rw [moves_eq, movesOf_segment hs]
  simp [hdot, hnil]

theorem moves_piece {n : String} (hn : IsPiece n) : (⟨n⟩ : Path).moves = [n] := by
  rw [moves_segment hn.no_slash, if_neg]
  rintro (rfl | rfl)
  · exact hn.ne_nil rfl
  · exact hn.ne_dot rfl

theorem isPiece_of_mem_moves {p : Path} {s : String} (h : s ∈ p.moves) : IsPiece s := by
  rw [moves_eq] at h
  unfold movesOf at h
  simp only [List.mem_map, List.mem_filter, decide_eq_true_eq] at h
  obtain ⟨t, ⟨ht, hne, hdot⟩, rfl⟩ := h
  exact ⟨by simpa using hne, fun h => hdot (ofList_eq_dot.1 h),
    by simpa using slash_notMem_segment ht⟩

/-! ## Joining -/

theorem join_absolute (p : Path) {q : Path} (hq : q.isAbsolute = true) : p.join q = q := by
  unfold join
  rw [if_pos hq]

theorem toList_join (p q : Path) (h : q.isAbsolute = false) : (p.join q).text.toList =
    if p.text.toList = [] then q.text.toList
    else if p.text.toList.getLast? = some '/' then p.text.toList ++ q.text.toList
    else p.text.toList ++ '/' :: q.text.toList := by
  have he : p.text.isEmpty = true ↔ p.text.toList = [] := by
    rw [String.isEmpty_iff, ← String.toList_inj]; rfl
  unfold join
  rw [h]
  by_cases h1 : p.text.toList = []
  · simp [he.2 h1, h1]
  · have h1' : p.text.isEmpty = false := Bool.eq_false_iff.2 fun h => h1 (he.1 h)
    by_cases h2 : p.text.toList.getLast? = some '/' <;> simp [h1', h1, h2]

theorem moves_join_path (p q : Path) (h : q.isAbsolute = false) :
    (p.join q).moves = p.moves ++ q.moves := by
  rw [moves_eq, moves_eq, moves_eq, toList_join p q h]
  split
  · rename_i hp
    rw [hp]; rfl
  · split
    · rename_i hp
      obtain ⟨t, ht⟩ := List.getLast?_eq_some_iff.1 hp
      rw [ht, List.append_assoc, List.singleton_append, movesOf_append, movesOf_concat_slash]
    · exact movesOf_append _ _

theorem moves_join_segment {s : String} (hs : '/' ∉ s.toList) (dir : Path) :
    (dir / s).moves = dir.moves ++ (⟨s⟩ : Path).moves := by
  refine moves_join_path dir ⟨s⟩ ?_
  unfold isAbsolute
  rw [beq_eq_false_iff_ne]
  exact fun h => hs (List.mem_of_mem_head? h)

theorem isAbsolute_join_relative (p : Path) {q : Path} (hq : q.isAbsolute = false) :
    (p.join q).isAbsolute = p.isAbsolute := by
  by_cases hp : p.text.toList = []
  · have hempty : p.isAbsolute = false := by
      unfold isAbsolute
      rw [hp]
      rfl
    have hjoin := toList_join p q hq
    rw [if_pos hp] at hjoin
    rw [hempty, ← hq]
    unfold isAbsolute
    rw [hjoin]
  · have hhead : ∀ r : List Char, (p.text.toList ++ r).head? = p.text.toList.head? := fun r =>
      List.head?_append_of_ne_nil _ hp
    unfold isAbsolute
    rw [toList_join p q hq, if_neg hp]
    split
    · rw [hhead]
    · rw [hhead]

theorem isAbsolute_join_path (p q : Path) (hp : p.isAbsolute = true) : (p.join q).isAbsolute = true := by
  by_cases h : q.isAbsolute = true
  · rw [join_absolute p h]
    exact h
  · rw [isAbsolute_join_relative p (Bool.eq_false_of_not_eq_true h)]
    exact hp

theorem isAbsolute_join_name (p : Path) (s : String) (hp : p.isAbsolute = true) :
    (p / s).isAbsolute = true := isAbsolute_join_path p ⟨s⟩ hp

/-- The path with some names after it. -/
def extend (p : Path) (names : List String) : Path := names.foldl (fun q name => q / name) p

theorem extend_concat (p : Path) (names : List String) (n : String) :
    p.extend (names ++ [n]) = p.extend names / n := by
  unfold extend
  rw [List.foldl_append]; rfl

theorem pieces_extend (p : Path) {names : List String} (h : ∀ n ∈ names, IsPiece n) :
    (p.extend names).pieces = p.pieces ++ names := by
  induction names using List.reverseRecOn with
  | nil => simp [extend]
  | append_singleton names n ih =>
    rw [extend_concat, pieces_join _ (h n (by simp)), ih fun m hm => h m (by simp [hm]),
      List.append_assoc]

theorem moves_extend (p : Path) {names : List String} (h : ∀ n ∈ names, IsPiece n) :
    (p.extend names).moves = p.moves ++ names := by
  have hnames : names.filter (· ≠ ".") = names :=
    List.filter_eq_self.2 fun n hn => by simpa using (h n hn).ne_dot
  unfold moves
  rw [pieces_extend p h, List.filter_append, hnames]

theorem isAbsolute_extend (p : Path) (names : List String) (hp : p.isAbsolute = true) :
    (p.extend names).isAbsolute = true := by
  induction names using List.reverseRecOn with
  | nil => exact hp
  | append_singleton names n ih => rw [extend_concat]; exact isAbsolute_join_path _ _ ih

theorem isAbsolute_extend_eq (p : Path) {names : List String} (h : ∀ n ∈ names, IsPiece n) :
    (p.extend names).isAbsolute = p.isAbsolute := by
  induction names using List.reverseRecOn with
  | nil => rfl
  | append_singleton names n ih =>
    rw [extend_concat, isAbsolute_join _ (h n (by simp)), ih fun m hm => h m (by simp [hm])]

/-- A name after the path asks for no directory. -/
theorem steps_extend (p : Path) {names : List String} (hne : names ≠ []) (h : ∀ n ∈ names, IsPiece n) :
    (p.extend names).steps = p.pieces ++ names := by
  rcases List.eq_nil_or_concat names with rfl | ⟨ns, n, rfl⟩
  · exact absurd rfl hne
  · rw [List.concat_eq_append] at h ⊢
    rw [extend_concat, steps_join _ (h n (by simp)), pieces_extend p fun m hm => h m (by simp [hm]),
      List.append_assoc]

/-! ## Paths of locations -/

theorem mem_ancestors_ofLocation {names : List String} (h : ∀ n ∈ names, IsPiece n) {p : Path}
    (hp : p ∈ (ofLocation names).ancestors) : ∃ upper, upper <+: names ∧ p = ofLocation upper := by
  induction names using List.reverseRecOn with
  | nil =>
    rw [ancestors_eq, parent?_ofLocation_nil] at hp
    exact ⟨[], List.prefix_rfl, List.mem_singleton.1 hp⟩
  | append_singleton names n ih =>
    rw [ancestors_eq, parent?_ofLocation h] at hp
    rcases List.mem_cons.1 hp with rfl | hp
    · exact ⟨_, List.prefix_rfl, rfl⟩
    · obtain ⟨upper, hupper, rfl⟩ := ih (fun m hm => h m (List.mem_append_left _ hm)) hp
      exact ⟨upper, hupper.trans (List.prefix_append _ _), rfl⟩

theorem mem_ancestors_of_prefix {upper names : List String} (h : ∀ n ∈ names, IsPiece n) (hupper : upper <+: names) :
    ofLocation upper ∈ (ofLocation names).ancestors := by
  induction names using List.reverseRecOn with
  | nil =>
    rw [List.prefix_nil.1 hupper, ancestors_eq]
    exact List.mem_cons_self ..
  | append_singleton names n ih =>
    rw [ancestors_eq, parent?_ofLocation h]
    rcases List.prefix_concat_iff.1 hupper with rfl | hupper
    · exact List.mem_cons_self ..
    · exact List.mem_cons_of_mem _ (ih (fun m hm => h m (List.mem_append_left _ hm)) hupper)

theorem mem_tail_ancestors_ofLocation {names : List String} (h : ∀ n ∈ names, IsPiece n) {p : Path}
    (hp : p ∈ (ofLocation names).ancestors.tail) :
    ∃ upper rest, upper ++ rest = names ∧ rest ≠ [] ∧ p = ofLocation upper := by
  rcases List.eq_nil_or_concat names with rfl | ⟨ns, n, rfl⟩
  · rw [ancestors_eq, parent?_ofLocation_nil] at hp
    cases hp
  · rw [List.concat_eq_append] at h ⊢ hp
    rw [ancestors_eq, parent?_ofLocation h] at hp
    obtain ⟨upper, ⟨t, rfl⟩, rfl⟩ :=
      mem_ancestors_ofLocation (fun m hm => h m (List.mem_append_left _ hm)) hp
    exact ⟨upper, t ++ [n], (List.append_assoc ..).symm, by simp, rfl⟩

theorem up_notMem_ofLocation {names : List String} (h : ∀ n ∈ names, IsName n) :
    ".." ∉ (ofLocation names).moves := by
  rw [moves_ofLocation fun n hn => (h n hn).toIsPiece]
  exact fun hup => (h _ hup).ne_up rfl

/-! ## Starts of paths -/

theorem isAbsolute_ofLocation (names : List String) : (ofLocation names).isAbsolute = true := by
  unfold isAbsolute
  rw [toList_ofLocation]; rfl

/-- The component that a piece stands for. -/
def Component.ofMove (s : String) : Component := if s = ".." then .up else .name s

theorem Component.ofMove_injective : Function.Injective Component.ofMove := by
  intro a b h
  unfold ofMove at h
  split at h <;> split at h <;> simp_all

theorem step?_ofMove (s : String) : (Component.ofMove s).step? = some s := by
  unfold Component.ofMove
  split
  · rename_i h; rw [h]; rfl
  · rfl

theorem filterMap_ofSegment (ss : List (List Char)) : ss.filterMap Component.ofSegment =
    ((ss.filter fun s => s ≠ [] ∧ s ≠ ['.']).map String.ofList).map Component.ofMove := by
  induction ss with
  | nil => rfl
  | cons s ss ih =>
    have hup : String.ofList s = ".." ↔ s = ['.', '.'] := by
      rw [← String.toList_inj, String.toList_ofList]; rfl
    rw [List.filterMap_cons, ofSegment_eq]
    by_cases h : s = [] ∨ s = ['.']
    · rw [if_pos h, ih, List.filter_cons_of_neg]
      simpa [imp_iff_not_or] using h
    · rw [if_neg h, List.filter_cons_of_pos (by simpa using h), List.map_cons, List.map_cons,
        Component.ofMove]
      by_cases hs : s = ['.', '.']
      · rw [if_pos hs, if_pos (hup.2 hs), ih]
      · rw [if_neg hs, if_neg fun h => hs (hup.1 h), ih]

theorem components_of_absolute {p : Path} (h : p.isAbsolute = true) :
    p.components = .root :: p.moves.map Component.ofMove := by
  unfold isAbsolute at h
  obtain ⟨r, hr⟩ := List.head?_eq_some_iff.1 (by simpa using h : p.text.toList.head? = some '/')
  rw [components_absolute hr, moves_eq, hr, movesOf_slash, filterMap_ofSegment]
  rfl

/-- What stands before the pieces of a path: the top directory, the `.` of a relative path, or nothing. -/
def lead (p : Path) : List Component :=
  if p.isAbsolute then [.root]
  else if (segments p.text.toList).head? = some ['.'] then [.here] else []

theorem components_eq (p : Path) : p.components = p.lead ++ p.moves.map Component.ofMove := by
  unfold lead
  by_cases h : p.isAbsolute = true
  · rw [if_pos h, components_of_absolute h]
    rfl
  · have hhead : p.text.toList.head? ≠ some '/' := by
      unfold isAbsolute at h
      simpa using h
    rw [if_neg h, components_relative hhead, moves_eq]
    unfold movesOf
    rcases hs : segments p.text.toList with _ | ⟨s, ss⟩
    · rfl
    · by_cases hdot : s = ['.']
      · subst hdot
        rw [if_pos (List.head?_cons ..), List.filter_cons_of_neg (by simp), ← filterMap_ofSegment]
        rfl
      · rw [if_neg (by simpa using hdot), ← filterMap_ofSegment, List.nil_append]
        split
        · rename_i heq
          exact absurd (List.cons.inj heq).1 hdot
        · rfl

theorem lead_cases (p : Path) : p.lead = [.root] ∨ p.lead = [.here] ∨ p.lead = [] := by
  unfold lead
  split
  · exact .inl rfl
  · split
    · exact .inr (.inl rfl)
    · exact .inr (.inr rfl)

theorem Component.ofMove_ne (s : String) : ofMove s ≠ .root ∧ ofMove s ≠ .here := by
  unfold ofMove
  split <;> exact ⟨nofun, nofun⟩

/-- The file name of a path is its last piece, unless that leads up. -/
theorem fileName_eq_some {p : Path} {n : String} : p.fileName = some n ↔ p.moves.getLast? = some n ∧ n ≠ ".." := by
  unfold fileName
  rw [components_eq]
  rcases List.eq_nil_or_concat' p.moves with hm | ⟨before, s, hm⟩
  · rw [hm]
    rcases lead_cases p with hl | hl | hl <;> rw [hl] <;> exact ⟨fun h => (nomatch h), fun h => (nomatch h.1)⟩
  · rw [hm, List.map_append, List.map_singleton, ← List.append_assoc, List.getLast?_concat, List.getLast?_concat,
      Option.some.injEq, Component.ofMove]
    by_cases hup : s = ".."
    · rw [if_pos hup]
      exact ⟨fun h => (nomatch h), fun h => absurd (h.1 ▸ hup) h.2⟩
    · rw [if_neg hup]
      dsimp only
      rw [Option.some.injEq]
      exact ⟨fun h => ⟨h, h ▸ hup⟩, fun h => h.1⟩

/-- A path starts as what it starts with does. -/
theorem lead_of_startsWith {p q : Path} (h : p.startsWith q = true) (hq : q.lead ≠ []) :
    p.lead = q.lead := by
  obtain ⟨c, cs, hc⟩ := List.exists_cons_of_ne_nil hq
  have hmoves : ∀ s, Component.ofMove s ≠ c := by
    intro s hs
    have hs := hs ▸ Component.ofMove_ne s
    rcases lead_cases q with hl | hl | hl
    · exact hs.1 (List.cons.inj (hc.symm.trans hl)).1
    · exact hs.2 (List.cons.inj (hc.symm.trans hl)).1
    · exact hq hl
  have hhead : p.components.head? = some c := by
    obtain ⟨t, ht⟩ := List.isPrefixOf_iff_prefix.1 h
    rw [← ht, components_eq q, hc]
    rfl
  rw [components_eq p] at hhead
  rcases hp : p.lead with _ | ⟨x, xs⟩
  · rw [hp, List.nil_append, List.head?_map, Option.map_eq_some_iff] at hhead
    obtain ⟨s, -, hs⟩ := hhead
    exact absurd hs (hmoves s)
  · rw [hp] at hhead
    obtain rfl : x = c := Option.some.inj hhead
    have hsingle : ∀ r : Path, ∀ y ys, r.lead = y :: ys → ys = [] := by
      intro r y ys hr
      rcases lead_cases r with hl | hl | hl <;> rw [hl] at hr <;> cases hr <;> rfl
    rw [hc, hsingle p _ _ hp, hsingle q _ _ hc]

/-- A relative path after another path does not change what that starts with. -/
theorem lead_join_relative {p q : Path} (hp : p.text.toList ≠ []) (hq : q.isAbsolute = false) :
    (p.join q).lead = p.lead := by
  have hsegments : ∀ a b : List Char, (segments (a ++ '/' :: b)).head? = (segments a).head? := by
    intro a b
    rw [segments_append, List.head?_append_of_ne_nil _ (segments_ne_nil a)]
  have hhead : (segments (p.join q).text.toList).head? = (segments p.text.toList).head? := by
    rw [toList_join p q hq, if_neg hp]
    split
    · rename_i hslash
      obtain ⟨t, ht⟩ := List.getLast?_eq_some_iff.1 hslash
      rw [ht, List.append_assoc, List.singleton_append, hsegments, hsegments t []]
    · exact hsegments _ _
  unfold lead
  rw [isAbsolute_join_relative p hq, hhead]

theorem lead_join {q : Path} (p : Path) (hq : q.lead = []) : (p.join q).lead = p.lead := by
  have hrel : q.isAbsolute = false := by
    rw [Bool.eq_false_iff]
    intro h
    unfold lead at hq
    rw [if_pos h] at hq
    cases hq
  by_cases hp : p.text.toList = []
  · have hempty : p.lead = [] := by
      unfold lead isAbsolute
      rw [hp]
      rfl
    have hjoin := toList_join p q hrel
    rw [if_pos hp] at hjoin
    rw [hempty, ← hq]
    unfold lead isAbsolute
    rw [hjoin]
  · exact lead_join_relative hp hrel

theorem startsWith_join (p : Path) {q : Path} (hq : q.isAbsolute = false) : (p.join q).startsWith p = true := by
  unfold startsWith
  rw [List.isPrefixOf_iff_prefix]
  by_cases hp : p.text.toList = []
  · rw [(components_eq_nil_iff p).2 hp]
    exact List.nil_prefix
  · rw [components_eq (p.join q), lead_join_relative hp hq, moves_join_path p q hq, List.map_append, ← List.append_assoc,
      ← components_eq]
    exact List.prefix_append _ _

theorem lead_piece {n : String} (hn : IsPiece n) : (⟨n⟩ : Path).lead = [] := by
  have hhead : n.toList.head? ≠ some '/' := fun h => hn.no_slash (List.mem_of_mem_head? h)
  have hdot : n.toList ≠ ['.'] := fun h => hn.ne_dot (by rw [← String.toList_inj, h]; rfl)
  unfold lead isAbsolute
  rw [if_neg (by simpa using hhead), segments_plain hn.no_slash, if_neg (by simpa using hdot)]

theorem components_extend (p : Path) {names : List String} (h : ∀ n ∈ names, IsPiece n) :
    (p.extend names).components = p.components ++ names.map Component.ofMove := by
  have hlead : (p.extend names).lead = p.lead := by
    induction names using List.reverseRecOn with
    | nil => rfl
    | append_singleton names n ih =>
      rw [extend_concat, ← ih fun m hm => h m (List.mem_append_left _ hm)]
      exact lead_join _ (lead_piece (h n (by simp)))
  rw [components_eq, hlead, moves_extend p h, List.map_append, ← List.append_assoc, ← components_eq]

theorem startsWith_extend (p : Path) {names : List String} (h : ∀ n ∈ names, IsPiece n) :
    (p.extend names).startsWith p = true := by
  unfold startsWith
  rw [components_extend p h, List.isPrefixOf_iff_prefix]
  exact List.prefix_append _ _

theorem startsWith_iff {p q : Path} (hp : p.isAbsolute = true) (hq : q.isAbsolute = true) :
    p.startsWith q = true ↔ q.moves <+: p.moves := by
  unfold startsWith
  rw [components_of_absolute hp, components_of_absolute hq, List.isPrefixOf_iff_prefix,
    List.prefix_cons_inj]
  exact List.prefix_map_iff_of_injective Component.ofMove_injective

theorem startsWith_ofLocation_iff {l m : Location} (hl : ∀ n ∈ l, IsName n) (hm : ∀ n ∈ m, IsName n) :
    (ofLocation l).startsWith (ofLocation m) = true ↔ m <+: l := by
  rw [startsWith_iff (isAbsolute_ofLocation l) (isAbsolute_ofLocation m),
    moves_ofLocation fun n hn => (hl n hn).toIsPiece, moves_ofLocation fun n hn => (hm n hn).toIsPiece]

theorem isAbsolute_of_startsWith {p q : Path} (h : p.startsWith q = true) (hq : q.isAbsolute = true) :
    p.isAbsolute = true := by
  have hroot : q.lead = [.root] := if_pos hq
  have hlead : p.lead = [.root] := (lead_of_startsWith h (hroot ▸ List.cons_ne_nil _ _)).trans hroot
  by_contra hno
  unfold lead at hlead
  rw [if_neg hno] at hlead
  split at hlead <;> cases hlead

/-- The pieces of a path below a root. -/
def below (p root : Path) : List String := p.moves.drop root.moves.length

theorem moves_eq_of_startsWith {p root : Path} (hp : p.isAbsolute = true)
    (hr : root.isAbsolute = true) (h : p.startsWith root = true) :
    p.moves = root.moves ++ p.below root := by
  obtain ⟨t, ht⟩ := (startsWith_iff hp hr).1 h
  unfold below
  rw [← ht, List.drop_left]

theorem up_mem_below {p root : Path} (hp : p.isAbsolute = true) (hr : root.isAbsolute = true)
    (h : p.startsWith root = true) (hup : ".." ∉ root.moves) : ".." ∈ p.below root ↔ ".." ∈ p.moves := by
  rw [moves_eq_of_startsWith hp hr h, List.mem_append, or_iff_right hup]

theorem isPiece_of_mem_below {p root : Path} {s : String} (h : s ∈ p.below root) : IsPiece s :=
  isPiece_of_mem_moves (List.mem_of_mem_drop h)

/-- The name of a path below a root is made up of what follows the root. -/
theorem nameBelow_eq_ok {p root : Path} {n : String} : nameBelow p root = .ok n ↔
    p.startsWith root = true ∧
      n = joined ((p.components.drop root.components.length).filterMap Component.step?) := by
  unfold nameBelow nameBelow? joined
  split
  · rename_i m hm
    split at hm
    · cases hm
      rw [Except.ok.injEq, eq_comm]
      exact (and_iff_right ‹_›).symm
    · cases hm
  · rename_i hm
    split at hm
    · cases hm
    · rename_i hno
      exact ⟨fun h => (nomatch h), fun h => absurd h.1 hno⟩

/-- The name of a path below a root is made up of its pieces below the root. -/
theorem nameBelow?_eq_some {p root : Path} {n : String} (hp : p.isAbsolute = true)
    (hr : root.isAbsolute = true) :
    p.nameBelow? root = some n ↔ p.startsWith root = true ∧ n = joined (p.below root) := by
  have hdrop : (p.components.drop root.components.length).filterMap Component.step? =
      p.below root := by
    rw [components_of_absolute hp, components_of_absolute hr]
    unfold below
    rw [List.length_cons, List.drop_succ_cons, List.length_map, ← List.map_drop, List.filterMap_map]
    have hstep : Component.step? ∘ Component.ofMove = some := funext step?_ofMove
    rw [hstep, List.filterMap_some]
  unfold nameBelow?
  rw [hdrop]
  split
  · rename_i h
    rw [Option.some.injEq, @eq_comm _ _ n]
    exact ⟨fun h' => ⟨h, h'⟩, fun h' => h'.2⟩
  · rename_i h
    exact ⟨fun h' => (nomatch h'), fun h' => absurd h'.1 h⟩

theorem nameBelow_ok {p root : Path} {n : String} (hp : p.isAbsolute = true)
    (hr : root.isAbsolute = true) :
    nameBelow p root = .ok n ↔ p.startsWith root = true ∧ n = joined (p.below root) := by
  rw [← nameBelow?_eq_some hp hr]
  unfold nameBelow
  rcases p.nameBelow? root with _ | m <;> simp

end Stowage.Path
