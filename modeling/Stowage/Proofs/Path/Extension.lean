/-
Extensions: a name is cut at its last dot, and the path of a location gets another extension in its last
name.
-/
import Stowage.Proofs.Path.Joined

namespace Stowage.Path

/-! ## Names with an extension -/

/-- `stem` with the extension `ext`. -/
def extended (stem ext : String) : String := stem ++ "." ++ ext

theorem toList_extended (stem ext : String) :
    (extended stem ext).toList = stem.toList ++ '.' :: ext.toList := by
  simp [extended]

theorem extended_injective (ext : String) : Function.Injective (extended · ext) := by
  intro s t h
  have hlist := congrArg String.toList h
  simp only [toList_extended] at hlist
  exact String.toList_inj.1 (List.append_cancel_right hlist)

/-- A name that is cut is made of its stem and its extension. -/
theorem eq_extended_of_split {n stem ext : String} (h : splitExtension n = (stem, some ext)) :
    n = extended stem ext ∧ stem.toList ≠ [] ∧ '.' ∉ ext.toList := by
  have hparts := List.takeWhile_append_dropWhile (p := (· ≠ '.')) (l := n.toList.reverse)
  unfold splitExtension at h
  dsimp only at h
  split at h
  · cases h
  · cases h
  · rename_i c before hne hdrop
    cases h
    -- what is not taken starts with the dot at which the name is cut
    have hc : c = '.' := by
      have := List.head?_dropWhile_not (· ≠ '.') n.toList.reverse
      rw [hdrop] at this
      simpa using this
    have hbefore : before ≠ [] := fun hb => hne hb
    have hn : n.toList = before.reverse ++ '.' :: (n.toList.reverse.takeWhile (· ≠ '.')).reverse := by
      have := congrArg List.reverse hparts
      rw [List.reverse_reverse, hdrop, hc, List.reverse_append] at this
      simpa using this.symm
    refine ⟨?_, ?_, ?_⟩
    · rw [← String.toList_inj, toList_extended, String.toList_ofList, String.toList_ofList]
      exact hn
    · simpa using hbefore
    · intro hmem
      rw [String.toList_ofList, List.mem_reverse] at hmem
      simpa using List.mem_takeWhile_imp hmem

theorem split_extended {stem ext : String} (hstem : stem.toList ≠ []) (hext : '.' ∉ ext.toList) :
    splitExtension (extended stem ext) = (stem, some ext) := by
  have hrev : (extended stem ext).toList.reverse = ext.toList.reverse ++ '.' :: stem.toList.reverse := by
    rw [toList_extended]; simp
  have hall : ∀ c ∈ ext.toList.reverse, decide (c ≠ '.') = true := fun c hc =>
    decide_eq_true fun he => hext (List.mem_reverse.1 (he ▸ hc))
  have hdrop : (extended stem ext).toList.reverse.dropWhile (· ≠ '.') = '.' :: stem.toList.reverse := by
    rw [hrev, List.dropWhile_append_of_pos hall, List.dropWhile_cons_of_neg (by simp)]
  have htake : (extended stem ext).toList.reverse.takeWhile (· ≠ '.') = ext.toList.reverse := by
    rw [hrev, List.takeWhile_append_of_pos hall, List.takeWhile_cons_of_neg (by simp),
      List.append_nil]
  unfold splitExtension
  dsimp only
  rw [hdrop, htake]
  split
  · rename_i h; cases h
  · rename_i h
    exact absurd (List.reverse_eq_nil_iff.1 (List.cons.inj h).2) hstem
  · rename_i h
    obtain ⟨-, rfl⟩ := List.cons.inj h
    simp

/-- The stem of a name is made of its characters. -/
theorem notMem_stem {n : String} {c : Char} (h : c ∉ n.toList) :
    c ∉ (splitExtension n).1.toList := by
  rcases hsplit : splitExtension n with ⟨stem, _ | ext⟩
  · have hstem : stem = n := by
      unfold splitExtension at hsplit
      dsimp only at hsplit
      split at hsplit <;> cases hsplit <;> rfl
    rwa [hstem]
  · obtain ⟨hn, -, -⟩ := eq_extended_of_split hsplit
    intro hmem
    refine h ?_
    rw [hn, toList_extended]
    exact List.mem_append_left _ hmem

/-- With an extension a name stays a name. -/
theorem isName_extended {stem ext : String} (hslash : '/' ∉ stem.toList)
    (hext : ext.toList ≠ []) (hext' : '/' ∉ ext.toList) (hdot : '.' ∉ ext.toList) :
    IsName (extended stem ext) := by
  have hlast : ∀ s : String, (extended stem ext) = s → s.toList.getLast? ≠ some '.' := by
    rintro s rfl hs
    rw [toList_extended] at hs
    obtain ⟨c, l, hl⟩ := List.exists_cons_of_ne_nil hext
    rw [List.getLast?_append_of_ne_nil _ (by simp), hl, List.getLast?_cons_cons, ← hl] at hs
    exact hdot (List.mem_of_getLast? hs)
  refine ⟨⟨?_, fun h => hlast _ h rfl, ?_⟩, fun h => hlast _ h rfl⟩
  · rw [toList_extended]; simp
  · rw [toList_extended]
    simp [hslash, hext']

/-! ## Locations with an extension -/

theorem eq_of_toList {p q : Path} (h : p.text.toList = q.text.toList) : p = q :=
  congrArg Path.mk (String.toList_inj.1 h)

section
variable {ns : List String} {n : String} (hns : ∀ m ∈ ns, IsPiece m) (hn : IsName n)
include hns hn

theorem fileName_ofLocation : (ofLocation (ns ++ [n])).fileName = some n := by
  have hpieces : ∀ m ∈ ns ++ [n], IsPiece m := by
    intro m hm
    rcases List.mem_append.1 hm with hm | hm
    · exact hns m hm
    · rw [List.mem_singleton.1 hm]; exact hn.toIsPiece
  rw [fileName_eq_some, moves_ofLocation hpieces, List.getLast?_concat]
  exact ⟨rfl, hn.ne_up⟩

omit hns in
/-- The path with the last name left out, with the separator before it. -/
theorem stem_ofLocation : ((ofLocation (ns ++ [n])).stem.dropWhile (· ≠ '/')).reverse =
    if ns = [] then ['/'] else (ofLocation ns).text.toList ++ ['/'] := by
  have hpos : ∀ c ∈ n.toList.reverse, decide (c ≠ '/') = true := fun c hc =>
    decide_eq_true fun he => hn.no_slash (List.mem_reverse.1 (he ▸ hc))
  unfold stem
  rw [reverse_ofLocation, dropTail_piece hn.toIsPiece, List.dropWhile_append_of_pos hpos,
    List.dropWhile_cons_of_neg (by simp)]
  split
  · rfl
  · simp

/-- The path of a location gets another extension in its last name. -/
theorem withExtension_ofLocation {ext : String} (hext : ext.toList ≠ []) :
    (ofLocation (ns ++ [n])).withExtension ext =
      ofLocation (ns ++ [extended (splitExtension n).1 ext]) := by
  have hempty : ext.isEmpty = false := by
    rw [String.isEmpty_eq_false_iff]
    rintro rfl
    exact hext rfl
  unfold withExtension fileStem
  rw [fileName_ofLocation hns hn]
  dsimp only [Option.map_some]
  rw [hempty, stem_ofLocation hn]
  simp only [Bool.false_eq_true, if_false]
  refine eq_of_toList ?_
  rw [toList_ofLocation_joined (ns ++ [extended _ ext]), joined_concat, toList_extended]
  split
  · simp
  · rw [toList_ofLocation_joined]
    simp

end
end Stowage.Path
