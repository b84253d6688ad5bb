/-
A path with another file name leads to a place beside the one that it led to.
-/
import Stowage.Proofs.Archive.Write
import Stowage.Proofs.Path.Joined

namespace Stowage.Path

variable {p : Path} {n m : String}

theorem getLast?_dropTail (r : List Char) :
    (dropTail r).getLast? = some '/' ↔ r.getLast? = some '/' := by
  fun_induction dropTail r with
  | case1 => rfl
  | case2 => rfl
  | case3 r h ih =>
    obtain ⟨c, s, rfl⟩ := List.exists_cons_of_ne_nil h
    rw [ih, List.getLast?_cons_cons]
  | case4 => decide
  | case5 r h ih =>
    obtain ⟨c, s, rfl⟩ := List.exists_cons_of_ne_nil h
    rw [ih, List.getLast?_cons_cons, List.getLast?_cons_cons]
  | case6 => rfl

/-- What stands before the name that was joined to a path. -/
theorem exists_before (p : Path) (hn : IsPiece n) : ∃ t, (p / n).text.toList = t ++ n.toList ∧
    (t = [] ∨ t.getLast? = some '/') ∧ movesOf t = p.moves ∧ (t.head? = some '/' ↔ p.isAbsolute = true) := by
  have habs : p.text.toList.head? = some '/' ↔ p.isAbsolute = true := by
    unfold isAbsolute
    rw [beq_iff_eq]
  rw [join_name p hn]
  split
  · rename_i hend
    exact ⟨p.text.toList, rfl, hend, (moves_eq p).symm, habs⟩
  · rename_i hend
    refine ⟨p.text.toList ++ ['/'], by simp, .inr (by simp), ?_, ?_⟩
    · rw [movesOf_append, moves_eq]
      simp [movesOf, segments]
    · rw [← habs]
      rcases ht : p.text.toList with _ | ⟨c, r⟩
      · exact absurd (.inl ht) hend
      · rfl

/-- A path that is called by a name is the name in a directory. -/
theorem exists_dir (hlast : p.steps.getLast? = some n) (hn : IsPiece n) : ∃ dir : Path, p = dir / n := by
  have hend : p.text.toList.getLast? ≠ some '/' := by
    intro hslash
    rw [steps_eq, if_pos hslash, List.getLast?_concat] at hlast
    exact hn.ne_dot (Option.some.inj hlast).symm
  rw [steps_eq, if_neg hend] at hlast
  -- the name is what follows the last separator
  obtain ⟨t, s, htext, ht, hs⟩ : ∃ t s, p.text.toList = t ++ s ∧ (t = [] ∨ t.getLast? = some '/') ∧ '/' ∉ s := by
    refine ⟨(p.text.toList.reverse.dropWhile (· ≠ '/')).reverse, (p.text.toList.reverse.takeWhile (· ≠ '/')).reverse,
      ?_, ?_, fun h => ?_⟩
    · rw [← List.reverse_append, List.takeWhile_append_dropWhile, List.reverse_reverse]
    · rw [List.reverse_eq_nil_iff, List.getLast?_reverse]
      rcases hdrop : p.text.toList.reverse.dropWhile (· ≠ '/') with _ | ⟨c, r⟩
      · exact .inl rfl
      · have hc := List.head?_dropWhile_not (fun x => decide (x ≠ '/')) p.text.toList.reverse
        rw [hdrop] at hc
        exact .inr (by simpa using hc)
    · simpa using List.mem_takeWhile_imp (List.mem_reverse.1 h)
  have hsegments : ∃ before, segments p.text.toList = before ++ [s] := by
    rcases ht with rfl | ht
    · exact ⟨[], by rw [htext, List.nil_append, segments_plain hs, List.nil_append]⟩
    · obtain ⟨u, rfl⟩ := List.getLast?_eq_some_iff.1 ht
      exact ⟨segments u, by rw [htext, List.append_assoc, List.singleton_append, segments_append, segments_plain hs]⟩
  have hne : s ≠ [] := by
    rintro rfl
    rw [List.append_nil] at htext
    rcases ht with rfl | ht
    · unfold pieces at hlast
      rw [htext] at hlast
      cases hlast
    · exact hend (htext ▸ ht)
  obtain rfl : String.ofList s = n := by
    obtain ⟨before, hbefore⟩ := hsegments
    unfold pieces at hlast
    rw [hbefore, List.filter_append, List.filter_cons_of_pos (by simpa using hne), List.filter_nil, List.map_append,
      List.map_singleton, List.getLast?_concat] at hlast
    exact Option.some.inj hlast
  have hjoin : p.text = ((⟨String.ofList t⟩ : Path) / String.ofList s).text := by
    rw [← String.toList_inj, join_name _ hn, String.toList_ofList, String.toList_ofList, if_pos ht, htext]
  exact ⟨⟨String.ofList t⟩, congrArg Path.mk hjoin⟩

/-- The parent of a name in a directory is the directory, however that is spelled. -/
theorem parent?_join (p : Path) (hn : IsPiece n) :
    ∃ q, (p / n).parent? = some q ∧ q.moves = p.moves ∧ q.isAbsolute = p.isAbsolute := by
  obtain ⟨t, htext, hend, hmoves, habs⟩ := exists_before p hn
  have hrev : (p / n).text.toList.reverse = n.toList.reverse ++ t.reverse := by
    rw [htext, List.reverse_append]
  have hslash : ∀ c ∈ n.toList.reverse, c ≠ '/' := ne_slash_of_mem_reverse hn
  have hname : ∃ c r, n.toList.reverse = c :: r :=
    List.exists_cons_of_ne_nil (mt List.reverse_eq_nil_iff.1 hn.ne_nil)
  -- nothing is dropped from the end of the spelling
  have hstem : (p / n).stem = n.toList.reverse ++ t.reverse := by
    unfold stem
    rw [hrev]
    rcases hend with rfl | hend
    · obtain ⟨c, r, hc⟩ := hname
      rw [List.reverse_nil, List.append_nil, hc]
      refine dropTail_of_plain (hslash c (hc ▸ List.mem_cons_self ..)) ?_
      rintro ⟨rfl, hr⟩
      exact hslash '/' (hc ▸ List.mem_cons_of_mem _ (List.mem_of_head? hr)) rfl
    · obtain ⟨u, rfl⟩ := List.getLast?_eq_some_iff.1 hend
      rw [List.reverse_append]
      exact dropTail_piece hn u.reverse
  have hdrop : (p / n).stem.dropWhile (· ≠ '/') = t.reverse := by
    rw [hstem, List.dropWhile_append_of_pos (by simpa using hslash)]
    rcases hend with rfl | hend
    · rfl
    · obtain ⟨u, rfl⟩ := List.getLast?_eq_some_iff.1 hend
      rw [List.reverse_append]
      exact List.dropWhile_cons_of_neg (by simp)
  refine ⟨⟨String.ofList (dropTail t.reverse).reverse⟩, ?_, ?_, ?_⟩
  · unfold parent?
    obtain ⟨c, r, hc⟩ := hname
    rw [hc] at hstem hslash
    split
    · rename_i h
      rw [h] at hstem
      cases hstem
    · rename_i h
      rw [h] at hstem
      exact absurd (List.cons.inj hstem).1.symm (hslash c (List.mem_cons_self ..))
    · rw [hdrop]
  · rw [moves_eq, String.toList_ofList, movesOf_dropTail, List.reverse_reverse, hmoves]
  · rw [Bool.eq_iff_iff, ← habs]
    unfold isAbsolute
    rw [String.toList_ofList, List.head?_reverse, beq_iff_eq, getLast?_dropTail, List.getLast?_reverse]

/-- The path that a name in a directory is replaced in leads to the new name in that directory. -/
theorem locate_withFileName (d : Disk) (p : Path) (hn : IsName n) (hm : IsPiece m) (followLast : Bool) :
    d.locate followLast ((p / n).withFileName m) = d.locate followLast (p / m) := by
  obtain ⟨q, hq, hmoves, habs⟩ := parent?_join p hn.toIsPiece
  have hname : (p / n).fileName = some n := fileName_of_steps
    (by rw [steps_join p hn.toIsPiece, List.getLast?_concat]) hn.ne_dot hn.ne_up
  have hrenamed : (p / n).withFileName m = q / m := by
    unfold withFileName
    rw [hname, hq]
    rfl
  rw [hrenamed]
  exact d.locate_join_of_moves hmoves habs hm followLast

end Stowage.Path
