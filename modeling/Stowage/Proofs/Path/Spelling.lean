/-
Spelled paths against what they mean: the pieces of a spelling that lead somewhere are told by the
components alone, so two spellings of one path lead to the same place. A location has one plain
spelling; the plain spellings are closed under parents and no two of them spell the same path.
-/
import Stowage.Disk.Basic
import Stowage.Path.Relative
import Mathlib.Tactic

namespace Stowage.Path

/-! ## Segments -/

theorem segments_ne_nil (cs : List Char) : segments cs ≠ [] := by
  induction cs with
  | nil => simp [segments]
  | cons c r ih =>
    unfold segments
    split
    · simp
    · split <;> simp

theorem segments_slash (r : List Char) : segments ('/' :: r) = [] :: segments r := by
  simp [segments]

theorem segments_cons {c : Char} (hc : c ≠ '/') (r : List Char) :
    ∃ s ss, segments r = s :: ss ∧ segments (c :: r) = (c :: s) :: ss := by
  cases h : segments r with
  | nil => exact absurd h (segments_ne_nil r)
  | cons s ss => exact ⟨s, ss, rfl, by simp [segments, hc, h]⟩

theorem segments_append (a b : List Char) :
    segments (a ++ '/' :: b) = segments a ++ segments b := by
  induction a with
  | nil => simp [segments]
  | cons c r ih =>
    by_cases hc : c = '/'
    · subst hc
      rw [List.cons_append, segments_slash, segments_slash, ih, List.cons_append]
    · obtain ⟨s, ss, h1, h2⟩ := segments_cons hc r
      obtain ⟨t, ts, h3, h4⟩ := segments_cons hc (r ++ '/' :: b)
      rw [ih, h1, List.cons_append] at h3
      cases h3
      rw [List.cons_append, h4, h2, List.cons_append]

theorem segments_plain {s : List Char} (h : '/' ∉ s) : segments s = [s] := by
  induction s with
  | nil => rfl
  | cons c r ih =>
    simp only [List.mem_cons, not_or] at h
    simp [segments, ih h.2, Ne.symm h.1]

theorem slash_notMem_segment {cs s : List Char} (h : s ∈ segments cs) : '/' ∉ s := by
  induction cs generalizing s with
  | nil => simp [segments] at h; subst h; simp
  | cons c r ih =>
    by_cases hc : c = '/'
    · subst hc
      rw [segments_slash, List.mem_cons] at h
      rcases h with rfl | h
      · simp
      · exact ih h
    · obtain ⟨t, ts, h1, h2⟩ := segments_cons hc r
      rw [h2, List.mem_cons] at h
      have ht : '/' ∉ t := ih (by rw [h1]; exact List.mem_cons_self ..)
      rcases h with rfl | h
      · simp [ht, Ne.symm hc]
      · exact ih (by rw [h1]; exact List.mem_cons_of_mem _ h)

/-- Every character but the separators stands in a segment. -/
theorem mem_segments_iff {cs : List Char} {c : Char} (hc : c ≠ '/') :
    c ∈ cs ↔ ∃ s ∈ segments cs, c ∈ s := by
  induction cs with
  | nil => simp [segments]
  | cons x r ih =>
    by_cases hx : x = '/'
    · subst hx
      simp [segments_slash, hc, ih]
    · obtain ⟨s, ss, h1, h2⟩ := segments_cons hx r
      rw [h2, List.mem_cons, ih, h1]
      simp only [List.mem_cons, exists_eq_or_imp]
      tauto

/-! ## Pieces -/

/-- The non-empty pieces of a spelling. -/
def pieces (p : Path) : List String :=
  ((segments p.text.toList).filter (· ≠ [])).map String.ofList

/-- The pieces that lead away from where they are. -/
def moves (p : Path) : List String := p.pieces.filter (· ≠ ".")

theorem steps_eq (p : Path) :
    p.steps = if p.text.toList.getLast? = some '/' then p.pieces ++ ["."] else p.pieces := rfl

theorem filter_steps (p : Path) : p.steps.filter (· ≠ ".") = p.moves := by
  rw [steps_eq]
  split
  · simp [moves]
  · rfl

theorem ofSegment_eq (s : List Char) :
    Component.ofSegment s = if s = [] ∨ s = ['.'] then none
      else if s = ['.', '.'] then some .up else some (.name (String.ofList s)) := by
  unfold Component.ofSegment
  split <;> simp_all

theorem moves_of_segments (ss : List (List Char)) :
    (ss.filterMap Component.ofSegment).filterMap Component.step? =
      ((ss.filter (· ≠ [])).map String.ofList).filter (· ≠ ".") := by
  induction ss with
  | nil => rfl
  | cons s ss ih =>
    have hdot : ∀ t : List Char, String.ofList t = "." ↔ t = ['.'] := fun t => by
      rw [← String.toList_inj, String.toList_ofList]; rfl
    rw [List.filterMap_cons, ofSegment_eq]
    by_cases h1 : s = []
    · subst h1; simpa using ih
    by_cases h2 : s = ['.']
    · subst h2; simpa using ih
    by_cases h3 : s = ['.', '.']
    · subst h3; simpa [Component.step?, hdot] using ih
    · simpa [Component.step?, hdot, h1, h2, h3] using ih

theorem components_absolute {p : Path} {r : List Char} (h : p.text.toList = '/' :: r) :
    p.components = .root :: (segments r).filterMap Component.ofSegment := by
  unfold components; rw [h]; rfl

theorem components_relative {p : Path} (h : p.text.toList.head? ≠ some '/') :
    p.components = match segments p.text.toList with
      | ['.'] :: r => .here :: r.filterMap Component.ofSegment
      | ss => ss.filterMap Component.ofSegment := by
  unfold components componentsOf
  split
  · rename_i heq; simp [heq] at h
  · rfl

theorem filterMap_components (p : Path) : p.components.filterMap Component.step? = p.moves := by
  unfold moves pieces
  rw [← moves_of_segments]
  rcases hs : p.text.toList with _ | ⟨c, r⟩
  · rw [components_relative (by simp [hs]), hs]; rfl
  · by_cases hc : c = '/'
    · subst hc
      rw [components_absolute hs, segments_slash, List.filterMap_cons_none rfl,
        List.filterMap_cons_none rfl]
    · rw [components_relative (by simp [hs, hc]), hs]
      split
      · rename_i heq
        rw [heq, List.filterMap_cons_none rfl, List.filterMap_cons_none rfl]
      · rfl

theorem ofSegment_ne_root (s : List Char) : Component.ofSegment s ≠ some .root := by
  rw [ofSegment_eq]
  split
  · simp
  · split <;> simp

theorem isAbsolute_iff (p : Path) : p.isAbsolute = true ↔ p.components.head? = some .root := by
  unfold isAbsolute
  rcases hs : p.text.toList with _ | ⟨c, r⟩
  · rw [components_relative (by simp [hs])]; simp [hs, segments, Component.ofSegment]
  · by_cases hc : c = '/'
    · subst hc; rw [components_absolute hs]; simp
    · have hne : ∀ ss : List (List Char), (ss.filterMap Component.ofSegment).head? ≠ some .root := by
        intro ss h
        obtain ⟨s, -, hs⟩ := List.mem_filterMap.1 (List.mem_of_mem_head? h)
        exact ofSegment_ne_root s hs
      rw [components_relative (by simp [hs, hc]), hs]
      constructor
      · intro h; simp [hc] at h
      · intro h
        split at h
        · simp at h
        · exact absurd h (hne _)

theorem components_eq_nil_iff (p : Path) : p.components = [] ↔ p.text.toList = [] := by
  constructor
  · intro h
    rcases hs : p.text.toList with _ | ⟨c, r⟩
    · rfl
    · by_cases hc : c = '/'
      · subst hc; rw [components_absolute hs] at h; cases h
      · rw [components_relative (by simp [hs, hc]), hs] at h
        obtain ⟨s, ss, -, h2⟩ := segments_cons hc r
        rw [h2] at h
        split at h
        · cases h
        · rename_i hnot
          have hs1 : c :: s ≠ ['.'] := fun he => hnot _ (by rw [he])
          have hone : Component.ofSegment (c :: s) = none := by
            simpa using (List.filterMap_eq_nil_iff.1 h) (c :: s) (List.mem_cons_self ..)
          rw [ofSegment_eq, if_neg (by simp [hs1])] at hone
          split at hone <;> cases hone
  · intro h
    rw [components_relative (by simp [h]), h]
    simp [segments, Component.ofSegment]

/-! ## Spellings of one path -/

theorem same_iff {p q : Path} : p.same q = true ↔ p.components = q.components := by
  simp [same]

theorem same_refl (p : Path) : p.same p = true := same_iff.2 rfl

theorem same_symm {p q : Path} (h : p.same q = true) : q.same p = true := same_iff.2 (same_iff.1 h).symm

theorem moves_of_same {p q : Path} (h : p.same q = true) : p.moves = q.moves := by
  rw [← filterMap_components, ← filterMap_components, same_iff.1 h]

theorem isAbsolute_of_same {p q : Path} (h : p.same q = true) : p.isAbsolute = q.isAbsolute := by
  rw [Bool.eq_iff_iff, isAbsolute_iff, isAbsolute_iff, same_iff.1 h]

theorem isEmpty_of_same {p q : Path} (h : p.same q = true) : p.text.isEmpty = q.text.isEmpty := by
  have he : ∀ x : Path, x.text.isEmpty = true ↔ x.components = [] := fun x => by
    rw [components_eq_nil_iff, String.isEmpty_iff, ← String.toList_inj]; rfl
  rw [Bool.eq_iff_iff, he, he, same_iff.1 h]

theorem fileName_of_same {p q : Path} (h : p.same q = true) : p.fileName = q.fileName := by
  unfold fileName; rw [same_iff.1 h]

end Stowage.Path
