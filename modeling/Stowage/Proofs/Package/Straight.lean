/-
Straight paths: absolute ones without a `..` piece. A path that was canonicalized is straight, so are the
directories above it and what has an ordinary name in one of them, and the name of a straight path below a
straight root stays inside the root.

The place of a package is spelled with the name of the package, which may hold a `..`; but then the place
is a directory, and not the link that a trace keeps.
-/
import Stowage.Package.Place
import Stowage.Proofs.Disk.Filled

open Stowage.Path

namespace Stowage

namespace Path

/-- The path is absolute and has no `..` piece. -/
structure IsStraight (p : Path) : Prop where
  isAbsolute : p.isAbsolute = true
  no_up : ".." ∉ p.moves

/-- A name that stays inside a root: it is relative, has no `..` component, and below the root it is
inside. -/
structure StaysIn (root : Path) (n : String) : Prop where
  relative : (⟨n⟩ : Path).isAbsolute = false
  no_up : .up ∉ (⟨n⟩ : Path).components
  inside : (root / n).startsWith root = true

theorem isStraight_ofLocation {names : List String} (h : ∀ n ∈ names, IsName n) :
    (ofLocation names).IsStraight := ⟨isAbsolute_ofLocation names, up_notMem_ofLocation h⟩

theorem IsStraight.join {p : Path} (h : p.IsStraight) {n : String} (hn : IsName n) :
    (p / n).IsStraight := by
  refine ⟨isAbsolute_join_name p n h.isAbsolute, ?_⟩
  rw [moves_join p hn.toIsPiece, List.mem_append, List.mem_singleton]
  rintro (hup | hup)
  · exact h.no_up hup
  · exact hn.ne_up hup.symm

theorem isStraight_of_mem_ancestors {names : List String} (h : ∀ n ∈ names, IsName n) {p : Path}
    (hp : p ∈ (ofLocation names).ancestors) : p.IsStraight := by
  obtain ⟨upper, hupper, rfl⟩ := mem_ancestors_ofLocation (fun n hn => (h n hn).toIsPiece) hp
  exact isStraight_ofLocation fun n hn => h n (hupper.subset hn)

/-- A straight path below a root has a name that stays inside the root. -/
theorem IsStraight.staysIn {p root : Path} (hp : p.IsStraight) (hr : root.isAbsolute = true)
    {n : String} (h : nameBelow p root = .ok n) : StaysIn root n := by
  obtain ⟨-, rfl⟩ := (nameBelow_ok hp.isAbsolute hr).1 h
  have hpieces : ∀ s ∈ p.below root, IsPiece s := fun s hs => isPiece_of_mem_below hs
  have hrelative : (⟨joined (p.below root)⟩ : Path).isAbsolute = false := by
    unfold Path.isAbsolute
    rw [beq_eq_false_iff_ne]
    exact head_joined hpieces
  constructor
  · exact hrelative
  · rw [components_joined hpieces]
    intro hup
    obtain ⟨s, hs, hmove⟩ := List.mem_map.1 hup
    have hsup : s = ".." := by
      by_contra hne
      unfold Component.ofMove at hmove
      rw [if_neg hne] at hmove
      cases hmove
    exact hp.no_up (List.mem_of_mem_drop (hsup ▸ hs))
  · show (root.join ⟨joined (p.below root)⟩).startsWith root = true
    rw [startsWith_iff (isAbsolute_join_path _ _ hr) hr, moves_join_path _ _ hrelative]
    exact List.prefix_append _ _

theorem pieces_join_path (p q : Path) (h : q.isAbsolute = false) :
    (p.join q).pieces = p.pieces ++ q.pieces := by
  unfold pieces
  rw [toList_join p q h]
  split
  · rename_i hp
    rw [hp]
    rfl
  · split
    · rename_i hp
      obtain ⟨t, ht⟩ := List.getLast?_eq_some_iff.1 hp
      rw [ht, List.append_assoc, List.singleton_append, segments_append, segments_append t []]
      simp [segments]
    · rw [segments_append, List.filter_append, List.map_append]

/-- The steps of a joined path end with those of the path that is joined. -/
theorem steps_join_path (p q : Path) (hp : p.text.toList ≠ []) (hq : q.text.toList ≠ [])
    (h : q.isAbsolute = false) : (p.join q).steps = p.pieces ++ q.steps := by
  have hlast : (p.join q).text.toList.getLast? = q.text.toList.getLast? := by
    obtain ⟨c, hc⟩ : ∃ c, q.text.toList.getLast? = some c := ⟨_, List.getLast?_eq_some_getLast hq⟩
    have hslash : ('/' :: q.text.toList).getLast? = some c := by
      rw [List.getLast?_cons, hc]
      rfl
    rw [toList_join p q h, if_neg hp, hc]
    split
    · rw [List.getLast?_append, hc]
      rfl
    · rw [List.getLast?_append, hslash]
      rfl
  rw [steps_eq, steps_eq, hlast, pieces_join_path p q h]
  split
  · rw [List.append_assoc]
  · rfl

end Path

/-! ## Names of packages -/

namespace Specifier

theorem cutSlash_cases (s : List Char) : ('/' ∉ s ∧ cutSlash s = (s, none)) ∨
    ∃ a r, s = a ++ '/' :: r ∧ '/' ∉ a ∧ cutSlash s = (a, some r) := by
  induction s with
  | nil => exact .inl ⟨List.not_mem_nil, rfl⟩
  | cons c s ih =>
    unfold cutSlash
    by_cases hc : c = '/'
    · subst hc
      exact .inr ⟨[], s, rfl, List.not_mem_nil, rfl⟩
    · have hcons : ∀ a : List Char, '/' ∉ a → '/' ∉ c :: a := fun a ha h =>
        (List.mem_cons.1 h).elim (fun he => hc he.symm) ha
      rw [if_neg hc]
      rcases ih with ⟨hs, hcut⟩ | ⟨a, r, rfl, ha, hcut⟩
      · exact .inl ⟨hcons s hs, by rw [hcut]⟩
      · exact .inr ⟨c :: a, r, rfl, hcons a ha, by rw [hcut]⟩

/-- The parts of a specifier: the name of a package is all up to the first separator, or up to the second one after a
scope, and without that separator the specifier is the name. -/
inductive Splits : List Char → List Char × Option (List Char) → Prop
  | name {a : List Char} (hat : a.head? ≠ some '@') (ha : '/' ∉ a) : Splits a (a, none)
  | below {a : List Char} (hat : a.head? ≠ some '@') (ha : '/' ∉ a) (t : List Char) : Splits (a ++ '/' :: t) (a, some t)
  | scope {a : List Char} (hat : a.head? = some '@') (ha : '/' ∉ a) : Splits a (a, none)
  | scopedName {a b : List Char} (hat : a.head? = some '@') (ha : '/' ∉ a) (hb : '/' ∉ b) :
    Splits (a ++ '/' :: b) (a ++ '/' :: b, none)
  | scopedBelow {a b : List Char} (hat : a.head? = some '@') (ha : '/' ∉ a) (hb : '/' ∉ b) (t : List Char) :
    Splits (a ++ '/' :: (b ++ '/' :: t)) (a ++ '/' :: b, some t)

theorem splits_splitChars (s : List Char) : Splits s (splitChars s) := by
  unfold splitChars
  rcases cutSlash_cases s with ⟨hs, hcut⟩ | ⟨a, r, rfl, ha, hcut⟩
  · rw [hcut]
    by_cases hscope : s.head? = some '@'
    · exact .scope hscope hs
    · exact .name hscope hs
  · rw [hcut]
    dsimp only
    split
    · rename_i hscope
      rcases cutSlash_cases r with ⟨hr, hcut'⟩ | ⟨b, t, rfl, hb, hcut'⟩
      · rw [hcut']
        exact .scopedName hscope ha hr
      · rw [hcut']
        exact .scopedBelow hscope ha hb t
    · rename_i hscope
      exact .below hscope ha r

/-- The name of a package is one segment, or a scope and one segment after it. -/
theorem split_name (s : List Char) : '/' ∉ (splitChars s).1 ∨
    ∃ scope rest, (splitChars s).1 = '@' :: scope ++ '/' :: rest ∧ '/' ∉ '@' :: scope ∧
      '/' ∉ rest := by
  have hscope : ∀ {a : List Char}, a.head? = some '@' → ∃ scope, a = '@' :: scope := List.head?_eq_some_iff.1
  have hsplits := splits_splitChars s
  generalize splitChars s = parts at hsplits
  cases hsplits with
  | name _ ha => exact .inl ha
  | below _ ha => exact .inl ha
  | scope _ ha => exact .inl ha
  | scopedName hat ha hb =>
    obtain ⟨scope, rfl⟩ := hscope hat
    exact .inr ⟨scope, _, rfl, ha, hb⟩
  | scopedBelow hat ha hb =>
    obtain ⟨scope, rfl⟩ := hscope hat
    exact .inr ⟨scope, _, rfl, ha, hb⟩

/-- The name of a package is not absolute, and a `..` in it is its last step. -/
theorem split_up (specifier : String) :
    (⟨(split specifier).1⟩ : Path).isAbsolute = false ∧
      (".." ∈ (⟨(split specifier).1⟩ : Path).moves →
        (⟨(split specifier).1⟩ : Path).steps.getLast? = some "..") := by
  have hup : ∀ {cs : List Char}, '/' ∉ cs → ".." ∈ movesOf cs → cs = ['.', '.'] := by
    intro cs hcs hmem
    rw [movesOf_segment hcs] at hmem
    split at hmem
    · cases hmem
    · have heq : cs = "..".toList := by
        rw [List.mem_singleton.1 hmem, String.toList_ofList]
      exact heq
  have hname : (split specifier).1.toList = (splitChars specifier.toList).1 := String.toList_ofList
  rw [Path.moves_eq, hname]
  unfold Path.isAbsolute
  rw [Path.steps_eq]
  unfold Path.pieces
  rw [hname, beq_eq_false_iff_ne]
  rcases split_name specifier.toList with h | ⟨scope, rest, h, hscope, hrest⟩
  · refine ⟨fun hhead => h (List.mem_of_mem_head? hhead), fun hmem => ?_⟩
    rw [hup h hmem]
    decide
  · rw [h]
    refine ⟨by simp, fun hmem => ?_⟩
    rw [movesOf_append, List.mem_append] at hmem
    rcases hmem with hmem | hmem
    · have := hup hscope hmem
      simp at this
    · have hdots : segments ['.', '.'] = [['.', '.']] := by decide
      have hend : ('@' :: scope ++ '/' :: ['.', '.']).getLast? ≠ some '/' := by
        rw [List.getLast?_append]
        simp
      rw [hup hrest hmem, segments_append, segments_plain hscope, hdots, if_neg hend]
      simp

end Specifier

/-! ## Places of packages -/

namespace Disk

variable {d : Disk}

/-- A link is not reached by going up. -/
theorem getLast?_steps_of_isLink {p : Path} (h : d.isLink p = true) : p.steps.getLast? ≠ some ".." := by
  unfold isLink typeOf at h
  rcases hl : d.locate false p with e | ⟨l, e⟩ | l
  · rw [hl] at h; cases h
  · rw [hl] at h
    rcases named_locate hl with ⟨l', hdir⟩ | ⟨l', s, hlast, -, hup, -⟩
    · cases hdir
      cases h
    · rw [hlast]
      exact fun he => hup (Option.some.inj he)
  · rw [hl] at h; cases h

/-- What leads to something is spelled by ordinary names once its links are followed. -/
theorem names_of_canonicalize (hhere : ∀ n ∈ d.here, IsName n) {p q : Path}
    (h : d.canonicalize p = .ok q) : ∃ names, (∀ n ∈ names, IsName n) ∧ q = ofLocation names := by
  obtain ⟨l, e, hfind, rfl⟩ := find_of_canonicalize h
  exact ⟨l, isName_of_find hhere hfind, rfl⟩

end Disk

namespace Package

variable {d : Disk}

theorem isName_modulesDir : IsName modulesDir := ⟨⟨by decide, by decide, by decide⟩, by decide⟩

/-- The place of a package that is installed for a straight directory is straight if it is a link. -/
theorem isStraight_of_locate {specifier : String} {names : List String}
    (hnames : ∀ n ∈ names, IsName n) {place : Path}
    (h : locate d (Specifier.split specifier).1 (ofLocation names) = some place)
    (hlink : d.isLink place = true) : place.IsStraight := by
  have hmem := List.mem_of_find?_eq_some h
  unfold modulesDirs at hmem
  simp only [List.mem_map, List.mem_filter] at hmem
  obtain ⟨_, ⟨dir, ⟨hdir, -⟩, rfl⟩, rfl⟩ := hmem
  have hmodules : (dir / modulesDir).IsStraight :=
    (isStraight_of_mem_ancestors hnames hdir).join isName_modulesDir
  obtain ⟨hrelative, hup⟩ := Specifier.split_up specifier
  refine ⟨isAbsolute_join_path _ _ hmodules.isAbsolute, ?_⟩
  show ".." ∉ ((dir / modulesDir).join ⟨(Specifier.split specifier).1⟩).moves
  rw [moves_join_path _ _ hrelative, List.mem_append]
  rintro (hmoves | hmoves)
  · exact hmodules.no_up hmoves
  · -- going up at its end the place would be no link
    refine Disk.getLast?_steps_of_isLink hlink ?_
    have hlast := hup hmoves
    have hne : (⟨(Specifier.split specifier).1⟩ : Path).text.toList ≠ [] := by
      intro hnil
      rw [moves_eq, hnil] at hmoves
      revert hmoves
      decide
    show ((dir / modulesDir).join ⟨(Specifier.split specifier).1⟩).steps.getLast? = _
    rw [steps_join_path _ _ (toList_join_ne_nil dir isName_modulesDir.toIsPiece) hne hrelative,
      List.getLast?_append, hlast]
    rfl

end Package
end Stowage
