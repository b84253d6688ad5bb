/-
Locations without their leading `./` steps and their trailing separators. What is left cannot be trimmed further and
leads where the location leads, also seen from a root, unless another separator follows right after the last step: then
what is left starts with that separator, and a root that it is joined to counts no more.
-/
import Stowage.Proofs.Path.Below
import Mathlib.Data.List.DropRight

namespace Stowage.Path

/-! ## Leading steps and trailing separators -/

/-- Steps `./` one after the other. -/
def hereSteps (n : Nat) : List Char := (List.replicate n ['.', '/']).flatten

theorem hereSteps_succ (n : Nat) (cs : List Char) : hereSteps (n + 1) ++ cs = '.' :: '/' :: (hereSteps n ++ cs) := by
  unfold hereSteps
  rw [List.replicate_succ, List.flatten_cons]
  rfl

theorem dropHere_hereSteps (n : Nat) (cs : List Char) : dropHere (hereSteps n ++ cs) = dropHere cs := by
  induction n with
  | zero => rfl
  | succ n ih => rw [hereSteps_succ, dropHere, ih]

theorem exists_hereSteps (cs : List Char) : ∃ n, cs = hereSteps n ++ dropHere cs := by
  fun_induction dropHere cs with
  | case1 r ih =>
    obtain ⟨n, hr⟩ := ih
    exact ⟨n + 1, by rw [hereSteps_succ, ← hr]⟩
  | case2 cs => exact ⟨0, rfl⟩

theorem dropHere_eq_self {cs : List Char} (h : ¬ ['.', '/'] <+: cs) : dropHere cs = cs := by
  unfold dropHere
  split
  · rename_i r
    exact absurd ⟨r, rfl⟩ h
  · rfl

theorem not_step_dropHere (cs : List Char) : ¬ ['.', '/'] <+: dropHere cs := by
  fun_induction dropHere cs with
  | case1 r ih => exact ih
  | case2 cs hstep =>
    rintro ⟨r, rfl⟩
    exact hstep r rfl

theorem toList_bareText (s : String) : (bareText s).toList = (dropHere s.toList).rdropWhile (· = '/') := by
  unfold bareText
  rw [String.toList_ofList]
  rfl

/-- A location is some steps, what is left of it, and some separators. -/
theorem exists_spelled (s : String) :
    ∃ n m, s.toList = hereSteps n ++ ((bareText s).toList ++ List.replicate m '/') := by
  obtain ⟨n, hn⟩ := exists_hereSteps s.toList
  have hslashes : (dropHere s.toList).rtakeWhile (· = '/') = List.replicate _ '/' :=
    List.eq_replicate_iff.2 ⟨rfl, fun c hc => by simpa using List.mem_rtakeWhile_imp hc⟩
  exact ⟨n, _, by rw [toList_bareText, ← hslashes, List.rdropWhile_append_rtakeWhile, ← hn]⟩

/-! ## What is left is not trimmed again -/

/-- A text with no step `./` at its start and no separator at its end. -/
structure IsTrimmed (s : String) : Prop where
  no_step : ¬ ['.', '/'] <+: s.toList
  no_trailing : s.toList.getLast? ≠ some '/'

theorem getLast?_bareText (s : String) : (bareText s).toList.getLast? ≠ some '/' := by
  rw [toList_bareText, List.rdropWhile, List.getLast?_reverse]
  intro h
  have := List.head?_dropWhile_not (fun c => decide (c = '/')) (dropHere s.toList).reverse
  rw [h] at this
  simp at this

theorem isTrimmed_bareText (s : String) : IsTrimmed (bareText s) := by
  refine ⟨fun h => not_step_dropHere s.toList (h.trans ?_), getLast?_bareText s⟩
  rw [toList_bareText]
  exact List.rdropWhile_prefix _ _

theorem IsTrimmed.bareText {s : String} (h : IsTrimmed s) : bareText s = s := by
  have hlast : s.toList.rdropWhile (· = '/') = s.toList := by
    refine List.rdropWhile_eq_self_iff.2 fun hne hslash => h.no_trailing ?_
    rw [List.getLast?_eq_some_getLast hne, of_decide_eq_true hslash]
  rw [← String.toList_inj, toList_bareText, dropHere_eq_self h.no_step, hlast]

/-! ## What is left leads to the same place -/

theorem movesOf_hereSteps (n : Nat) (cs : List Char) : movesOf (hereSteps n ++ cs) = movesOf cs := by
  induction n with
  | zero => rfl
  | succ n ih => rw [hereSteps_succ, movesOf_dot, ih]

theorem movesOf_slashes (cs : List Char) (m : Nat) : movesOf (cs ++ List.replicate m '/') = movesOf cs := by
  induction m with
  | zero => rw [List.replicate_zero, List.append_nil]
  | succ m ih => rw [List.replicate_succ', ← List.append_assoc, movesOf_concat_slash, ih]

theorem moves_bareText (s : String) : (⟨bareText s⟩ : Path).moves = (⟨s⟩ : Path).moves := by
  obtain ⟨n, m, hs⟩ := exists_spelled s
  rw [moves_eq, moves_eq, hs, movesOf_hereSteps, movesOf_slashes]

/-- The components of a path without the `.` that it can start with. -/
def withoutHere (p : Path) : List Component := p.components.dropWhile (· = .here)

theorem withoutHere_eq (p : Path) :
    p.withoutHere = (if p.isAbsolute then [.root] else []) ++ p.moves.map Component.ofMove := by
  have hmoves : (p.moves.map Component.ofMove).dropWhile (· = .here) = p.moves.map Component.ofMove := by
    rcases p.moves with _ | ⟨s, ss⟩
    · rfl
    · exact List.dropWhile_cons_of_neg (by simpa using (Component.ofMove_ne s).2)
  unfold withoutHere
  rw [components_eq, lead]
  split
  · rfl
  · split
    · exact hmoves
    · exact hmoves

theorem withoutHere_join (p : Path) {q : Path} (hq : q.isAbsolute = false) :
    (p.join q).withoutHere = p.withoutHere ++ q.withoutHere := by
  rw [withoutHere_eq, withoutHere_eq, withoutHere_eq, isAbsolute_join_relative p hq, moves_join_path p q hq, hq,
    List.map_append, List.append_assoc]
  rfl

/-! ## Locations that turn absolute -/

theorem dropHere_eq_slash_iff {cs r : List Char} : dropHere cs = '/' :: r ↔ ∃ n, cs = hereSteps n ++ '/' :: r := by
  constructor
  · intro h
    obtain ⟨n, hn⟩ := exists_hereSteps cs
    exact ⟨n, h ▸ hn⟩
  · rintro ⟨n, rfl⟩
    rw [dropHere_hereSteps]
    exact dropHere_eq_self fun ⟨t, ht⟩ => by cases ht

/-- The first separator stays exactly if it is not one of the trailing ones. -/
theorem head?_rdropWhile_slash {cs : List Char} :
    (cs.rdropWhile (· = '/')).head? = some '/' ↔ ∃ r, cs = '/' :: r ∧ ∃ c ∈ r, c ≠ '/' := by
  obtain ⟨rest, hrest⟩ := List.rdropWhile_prefix (fun c => decide (c = '/')) cs
  constructor
  · intro h
    obtain ⟨t, ht⟩ := List.head?_eq_some_iff.1 h
    rw [ht, List.cons_append] at hrest
    refine ⟨t ++ rest, hrest.symm, ?_⟩
    by_contra! hall
    have hnil : cs.rdropWhile (· = '/') = [] := by
      refine List.rdropWhile_eq_nil_iff.2 fun c hc => ?_
      rw [← hrest, List.mem_cons] at hc
      exact decide_eq_true (hc.elim id (hall c))
    rw [hnil] at ht
    cases ht
  · rintro ⟨r, rfl, c, hc, hne⟩
    have hleft : ('/' :: r).rdropWhile (· = '/') ≠ [] := fun hnil =>
      hne (by simpa using List.rdropWhile_eq_nil_iff.1 hnil c (List.mem_cons_of_mem _ hc))
    rw [← List.head?_append_of_ne_nil _ hleft, hrest]
    rfl

theorem isAbsolute_bareText {s : String} : (⟨bareText s⟩ : Path).isAbsolute = true ↔
    ∃ n r, s.toList = hereSteps n ++ '/' :: r ∧ ∃ c ∈ r, c ≠ '/' := by
  have habsolute : (⟨bareText s⟩ : Path).isAbsolute = true ↔ (bareText s).toList.head? = some '/' := beq_iff_eq
  rw [habsolute, toList_bareText, head?_rdropWhile_slash]
  constructor
  · rintro ⟨r, hdrop, hr⟩
    obtain ⟨n, hn⟩ := dropHere_eq_slash_iff.1 hdrop
    exact ⟨n, r, hn, hr⟩
  · rintro ⟨n, r, hn, hr⟩
    exact ⟨r, dropHere_eq_slash_iff.2 ⟨n, hn⟩, hr⟩

/-- A relative location that is absolute without its leading steps: another separator follows right after them, and
not only separators follow that. -/
def TurnsAbsolute (s : String) : Prop := ∃ n r, s.toList = hereSteps (n + 1) ++ '/' :: r ∧ ∃ c ∈ r, c ≠ '/'

theorem turnsAbsolute_iff {s : String} : TurnsAbsolute s ↔
    (⟨s⟩ : Path).isAbsolute = false ∧ (⟨bareText s⟩ : Path).isAbsolute = true := by
  rw [isAbsolute_bareText]
  constructor
  · rintro ⟨n, r, hs, hr⟩
    refine ⟨?_, n + 1, r, hs, hr⟩
    unfold isAbsolute
    rw [hs, hereSteps_succ]
    rfl
  · rintro ⟨hrel, _ | n, r, hs, hr⟩
    · unfold isAbsolute at hrel
      rw [hs] at hrel
      cases hrel
    · exact ⟨n, r, hs, hr⟩

instance (s : String) : Decidable (TurnsAbsolute s) := decidable_of_iff _ turnsAbsolute_iff.symm

/-- What is left of a relative location ends in no separator and is not trimmed again. It is a relative location of the
same place, below every root that it is joined to, exactly if the location does not turn absolute; otherwise it is the
same names from the top directory on, whatever root it is joined to. -/
theorem bareText_trimmed {s : String} (hs : (⟨s⟩ : Path).isAbsolute = false) :
    (bareText s).toList.getLast? ≠ some '/' ∧ bareText (bareText s) = bareText s ∧
    (¬ TurnsAbsolute s → (⟨bareText s⟩ : Path).isAbsolute = false ∧
      (⟨bareText s⟩ : Path).withoutHere = (⟨s⟩ : Path).withoutHere ∧
      ∀ root : Path, (root / bareText s).startsWith root = true ∧
        (root / bareText s).withoutHere = root.withoutHere ++ (⟨s⟩ : Path).withoutHere) ∧
    (TurnsAbsolute s → (⟨bareText s⟩ : Path).isAbsolute = true ∧
      (⟨bareText s⟩ : Path).withoutHere = .root :: (⟨s⟩ : Path).withoutHere ∧
      ∀ root : Path, root / bareText s = ⟨bareText s⟩) := by
  refine ⟨getLast?_bareText s, (isTrimmed_bareText s).bareText, fun hstays => ?_, fun hturns => ?_⟩
  · have hrel : (⟨bareText s⟩ : Path).isAbsolute = false :=
      Bool.eq_false_of_not_eq_true fun habs => hstays (turnsAbsolute_iff.2 ⟨hs, habs⟩)
    have hsame : (⟨bareText s⟩ : Path).withoutHere = (⟨s⟩ : Path).withoutHere := by
      rw [withoutHere_eq, withoutHere_eq, hrel, hs, moves_bareText]
    refine ⟨hrel, hsame, fun root => ⟨startsWith_join root hrel, ?_⟩⟩
    rw [← hsame]
    exact withoutHere_join root hrel
  · have habs : (⟨bareText s⟩ : Path).isAbsolute = true := (turnsAbsolute_iff.1 hturns).2
    refine ⟨habs, ?_, fun root => join_absolute root habs⟩
    rw [withoutHere_eq, withoutHere_eq, habs, hs, moves_bareText]
    rfl

/-- Steps and separators at both ends, and a separator too many after the first step. -/
theorem bareText_trimmed_doubled :
    bareText "././lib//a.js//" = "lib//a.js" ∧
    ((⟨"/ws"⟩ : Path) / bareText "././lib//a.js//").withoutHere = [.root, .name "ws", .name "lib", .name "a.js"] ∧
    bareText ".//etc/passwd" = "/etc/passwd" ∧ (⟨"/ws"⟩ : Path) / bareText ".//etc/passwd" = ⟨"/etc/passwd"⟩ := by
  obtain ⟨-, -, hstays, -⟩ := @bareText_trimmed "././lib//a.js//" (by decide)
  obtain ⟨-, -, -, hturns⟩ := @bareText_trimmed ".//etc/passwd" (by decide)
  have hleft : bareText ".//etc/passwd" = "/etc/passwd" := by decide +kernel
  have hcomponents := ((hstays (by decide)).2.2 ⟨"/ws"⟩).2
  refine ⟨by decide +kernel, hcomponents.trans (by decide +kernel), hleft, ?_⟩
  rw [(hturns (by decide)).2.2 ⟨"/ws"⟩, hleft]

end Stowage.Path
