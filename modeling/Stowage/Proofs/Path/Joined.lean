/-
Names that are made up of pieces: they are spelled without anything that leads nowhere, so they are put
together and taken from paths piece by piece.
-/
import Stowage.Proofs.Path.Trimmed

namespace Stowage.Path

section
variable {ps qs : List String} (hp : ∀ s ∈ ps, IsPiece s)

/-! ## Spelling -/

theorem toList_joined (ps : List String) :
    (joined ps).toList = ['/'].intercalate (ps.map String.toList) := by
  unfold joined
  rw [String.toList_intercalate]; rfl

theorem joined_append (hps : ps ≠ []) (hqs : qs ≠ []) : joined (ps ++ qs) = joined ps ++ "/" ++ joined qs := by
  unfold joined
  rw [String.intercalate_append_of_ne_nil hps hqs]

theorem joined_concat (ps : List String) (s : String) : (joined (ps ++ [s])).toList =
    if ps = [] then s.toList else (joined ps).toList ++ '/' :: s.toList := by
  have hone : joined [s] = s := String.intercalate_singleton
  split
  · rename_i h
    rw [h, List.nil_append, hone]
  · rename_i h
    rw [joined_append h (List.cons_ne_nil _ _), hone]
    simp

theorem joined_cons (s : String) (ps : List String) : (joined (s :: ps)).toList =
    s.toList ++ if ps = [] then [] else '/' :: (joined ps).toList := by
  rcases ps with _ | ⟨t, ps⟩
  · simp [joined, String.intercalate_singleton]
  · rw [if_neg (by simp), toList_joined, List.map_cons, List.map_cons, List.intercalate_cons_cons,
      ← List.map_cons, ← toList_joined]
    simp

include hp

theorem joined_eq_nil : (joined ps).toList = [] ↔ ps = [] := by
  constructor
  · intro h
    rcases ps with _ | ⟨s, ps⟩
    · rfl
    · rw [joined_cons] at h
      exact absurd (List.append_eq_nil_iff.1 h).1 (hp s (by simp)).ne_nil
  · rintro rfl; rfl

theorem head_joined : (joined ps).toList.head? ≠ some '/' := by
  rcases ps with _ | ⟨s, ps⟩
  · simp [joined]
  · have hs := hp s (by simp)
    rw [joined_cons, List.head?_append_of_ne_nil _ hs.ne_nil]
    exact fun h => hs.no_slash (List.mem_of_mem_head? h)

theorem segments_joined (hne : ps ≠ []) : segments (joined ps).toList = ps.map String.toList := by
  rw [toList_joined, segments_intercalate (by simpa using hne)]
  intro l hl
  obtain ⟨s, hs, rfl⟩ := List.mem_map.1 hl
  exact (hp s hs).no_slash

theorem moves_joined : (⟨joined ps⟩ : Path).moves = ps := by
  rw [moves_eq]
  by_cases hne : ps = []
  · subst hne; rfl
  · unfold movesOf
    rw [segments_joined hp hne, List.filter_eq_self.2, List.map_map]
    · simp
    · intro l hl
      obtain ⟨s, hs, rfl⟩ := List.mem_map.1 hl
      have hdot : s.toList ≠ ['.'] := fun h => (hp s hs).ne_dot (by
        rw [← String.toList_inj, h]; rfl)
      simpa using ⟨by simpa using (hp s hs).ne_nil, hdot⟩

theorem components_joined : (⟨joined ps⟩ : Path).components = ps.map Component.ofMove := by
  have hmoves := moves_joined hp
  rw [moves_eq] at hmoves
  rw [components_relative (by simpa using head_joined hp)]
  split
  · rename_i r heq
    by_cases hne : ps = []
    · subst hne; cases heq
    · rw [segments_joined hp hne] at heq
      rcases ps with _ | ⟨s, ps⟩
      · exact absurd rfl hne
      · have hdot : s = "." := by
          rw [← String.toList_inj]; exact (List.cons.inj heq).1
        exact absurd hdot (hp s (by simp)).ne_dot
  · rw [filterMap_ofSegment]
    unfold movesOf at hmoves
    rw [hmoves]

/-! ## Joining -/

theorem getLast?_joined : (joined ps).toList.getLast? ≠ some '/' := by
  rcases List.eq_nil_or_concat ps with rfl | ⟨ts, s, rfl⟩
  · simp [joined]
  · rw [List.concat_eq_append] at hp ⊢
    have hs := hp s (by simp)
    have hlast : s.toList.getLast? ≠ some '/' := fun h => hs.no_slash (List.mem_of_getLast? h)
    obtain ⟨x, hx⟩ : ∃ x, s.toList.getLast? = some x := ⟨_, List.getLast?_eq_some_getLast hs.ne_nil⟩
    rw [joined_concat]
    split
    · exact hlast
    · rw [hx] at hlast
      rw [List.getLast?_append, List.getLast?_cons, hx]
      exact hlast

theorem isTrimmed_joined : IsTrimmed (joined ps) := by
  refine ⟨?_, getLast?_joined hp⟩
  rintro ⟨r, heq⟩
  rcases ps with _ | ⟨s, ps⟩
  · cases heq
  · have hs := hp s (by simp)
    rw [joined_cons] at heq
    rcases hc : s.toList with _ | ⟨c, _ | ⟨x, cs⟩⟩
    · exact absurd hc hs.ne_nil
    · rw [hc] at heq
      have hdot : s = "." := by rw [← String.toList_inj, hc, ← (List.cons.inj heq).1]; rfl
      exact absurd hdot hs.ne_dot
    · rw [hc] at heq
      have hx : '/' = x := (List.cons.inj (List.cons.inj heq).2).1
      exact absurd (by rw [hc, hx]; simp) hs.no_slash

theorem bareText_joined : bareText (joined ps) = joined ps := (isTrimmed_joined hp).bareText

theorem isEmpty_joined : (joined ps).isEmpty = ps.isEmpty := by
  rw [Bool.eq_iff_iff, String.isEmpty_iff, List.isEmpty_iff, ← joined_eq_nil hp, ← String.toList_inj]
  rfl

theorem slashJoin_joined (hq : ∀ s ∈ qs, IsPiece s) :
    slashJoin (joined ps) (joined qs) = joined (ps ++ qs) := by
  unfold slashJoin
  dsimp only
  rw [bareText_joined hp, isEmpty_joined hp, isEmpty_joined hq]
  rcases ps with _ | ⟨s, ps⟩
  · rfl
  · rcases qs with _ | ⟨t, qs⟩
    · simp
    · rw [joined_append (List.cons_ne_nil _ _) (List.cons_ne_nil _ _)]
      simp

omit hp in
theorem ne_slash_of_mem_reverse {s : String} (hs : IsPiece s) : ∀ c ∈ s.toList.reverse, c ≠ '/' :=
  fun c hc he => hs.no_slash (by rw [← List.mem_reverse]; exact he ▸ hc)

omit hp in
/-- Read from its end a name is its last piece, a separator and the pieces before it. -/
theorem reverse_joined_concat (ps : List String) (s : String) :
    (joined (ps ++ [s])).toList.reverse =
      s.toList.reverse ++ (if ps = [] then [] else '/' :: (joined ps).toList.reverse) := by
  rw [joined_concat]
  split <;> simp

omit hp in
theorem dropTail_joined_concat (ps : List String) {s : String} (hs : IsPiece s) :
    dropTail (joined (ps ++ [s])).toList.reverse = (joined (ps ++ [s])).toList.reverse := by
  rw [reverse_joined_concat]
  split
  · have hslash := ne_slash_of_mem_reverse hs
    rw [List.append_nil]
    rcases hr : s.toList.reverse with _ | ⟨c, r⟩
    · rfl
    · rw [hr] at hslash
      refine dropTail_of_plain (hslash c (by simp)) ?_
      rintro ⟨-, h⟩
      exact hslash '/' (List.mem_cons_of_mem _ (List.mem_of_mem_head? h)) rfl
  · exact dropTail_piece hs _

theorem dropTail_up_joined_concat {s : String} (hs : IsPiece s) :
    (dropTail ((joined (ps ++ [s])).toList.reverse.dropWhile (· ≠ '/'))).reverse =
      (joined ps).toList := by
  rw [reverse_joined_concat, List.dropWhile_append_of_pos fun c hc => by
    simpa using ne_slash_of_mem_reverse hs c hc]
  rcases List.eq_nil_or_concat ps with rfl | ⟨ts, t, rfl⟩
  · rfl
  · rw [List.concat_eq_append] at hp ⊢
    rw [if_neg (by simp), List.dropWhile_cons_of_neg (by simp), dropTail_slash, if_neg,
      dropTail_joined_concat ts (hp t (by simp)), List.reverse_reverse]
    rw [List.reverse_eq_nil_iff, joined_eq_nil hp]
    simp

theorem parent?_joined_concat {s : String} (hs : IsPiece s) :
    (⟨joined (ps ++ [s])⟩ : Path).parent? = some ⟨joined ps⟩ := by
  obtain ⟨c, r, hr⟩ := List.exists_cons_of_ne_nil (mt List.reverse_eq_nil_iff.1 hs.ne_nil)
  have hstem : (⟨joined (ps ++ [s])⟩ : Path).stem = (joined (ps ++ [s])).toList.reverse :=
    dropTail_joined_concat ps hs
  have hhead : (joined (ps ++ [s])).toList.reverse.head? = some c := by
    rw [reverse_joined_concat, hr]; rfl
  unfold parent?
  rw [hstem]
  split
  · rename_i h
    rw [h] at hhead
    cases hhead
  · rename_i h
    rw [h] at hhead
    cases hhead
    exact absurd rfl (ne_slash_of_mem_reverse hs '/' (by rw [hr]; simp))
  · rw [dropTail_up_joined_concat hp hs, String.ofList_toList]

end

/-! ## Paths of locations -/

theorem toList_ofLocation_joined (names : List String) :
    (ofLocation names).text.toList = '/' :: (joined names).toList := by
  rw [toList_ofLocation, toList_joined]

theorem ofLocation_concat {names : List String} (h : ∀ m ∈ names, IsPiece m) {n : String}
    (hn : IsPiece n) : ofLocation names / n = ofLocation (names ++ [n]) := by
  have htext : (ofLocation names / n).text = (ofLocation (names ++ [n])).text := by
    rw [← String.toList_inj, join_name _ hn, toList_ofLocation_joined, toList_ofLocation_joined,
      joined_concat]
    by_cases hnames : names = []
    · subst hnames; rfl
    · obtain ⟨c, hc⟩ : ∃ c, (joined names).toList.getLast? = some c := by
        rw [← Option.ne_none_iff_exists', ne_eq, List.getLast?_eq_none_iff, joined_eq_nil h]
        exact hnames
      have hlast := getLast?_joined h
      rw [hc] at hlast
      rw [if_neg hnames, if_neg, List.cons_append]
      rw [List.getLast?_cons, hc]
      simpa using hlast
  exact congrArg Path.mk htext

theorem ofLocation_eq_extend {names : List String} (h : ∀ n ∈ names, IsPiece n) :
    ofLocation names = (ofLocation []).extend names := by
  induction names using List.reverseRecOn with
  | nil => rfl
  | append_singleton names n ih =>
    have hnames : ∀ m ∈ names, IsPiece m := fun m hm => h m (List.mem_append_left _ hm)
    rw [extend_concat, ← ih hnames, ofLocation_concat hnames (h n (by simp))]

/-! ## Taking names from paths -/

theorem movesOf_dropLead (cs : List Char) : movesOf (dropLead cs) = movesOf cs := by
  fun_induction dropLead cs with
  | case1 r ih => rw [ih, movesOf_slash]
  | case2 => rfl
  | case3 r ih => rw [ih, movesOf_dot]
  | case4 => rfl

/-- What is left starts with a piece. -/
theorem dropLead_plain (cs : List Char) :
    dropLead cs = [] ∨ ∃ s r, dropLead cs = s ++ r ∧ s ≠ [] ∧ s ≠ ['.'] ∧ '/' ∉ s ∧
      (dropLead cs).dropWhile (· ≠ '/') = r ∧ (r = [] ∨ r.head? = some '/') := by
  fun_induction dropLead cs with
  | case1 r ih => exact ih
  | case2 => exact .inl rfl
  | case3 r ih => exact ih
  | case4 cs h1 h2 h3 =>
    rcases cs with _ | ⟨c, cs⟩
    · exact .inl rfl
    · right
      have hc : c ≠ '/' := fun h => h1 cs (by rw [h])
      refine ⟨(c :: cs).takeWhile (· ≠ '/'), (c :: cs).dropWhile (· ≠ '/'),
        List.takeWhile_append_dropWhile.symm, ?_, ?_, ?_, rfl, ?_⟩
      · rw [List.takeWhile_cons_of_pos (by simpa using hc)]; simp
      · intro h
        have hsplit := List.takeWhile_append_dropWhile (p := fun x => decide (x ≠ '/')) (l := c :: cs)
        rw [h] at hsplit
        rcases hr : (c :: cs).dropWhile (· ≠ '/') with _ | ⟨x, r⟩
        · rw [hr] at hsplit
          exact h2 hsplit.symm
        · have hx : x = '/' := by
            have := List.head?_dropWhile_not (fun x => decide (x ≠ '/')) (c :: cs)
            rw [hr] at this
            simpa using this
          rw [hr, hx] at hsplit
          exact h3 r hsplit.symm
      · intro h
        have := List.mem_takeWhile_imp h
        simp at this
      · rcases hr : (c :: cs).dropWhile (· ≠ '/') with _ | ⟨x, r⟩
        · exact .inl rfl
        · right
          have := List.head?_dropWhile_not (fun x => decide (x ≠ '/')) (c :: cs)
          rw [hr] at this
          simpa using this

theorem movesOf_dropSteps (n : Nat) (cs : List Char) :
    movesOf (dropSteps n cs) = (movesOf cs).drop n := by
  induction n generalizing cs with
  | zero => rfl
  | succ n ih =>
    have hone : movesOf ((dropLead cs).dropWhile (· ≠ '/')) = (movesOf cs).drop 1 := by
      rw [← movesOf_dropLead cs]
      rcases dropLead_plain cs with h | ⟨s, r, h, hne, hdot, hslash, hr, hend⟩
      · rw [h]; rfl
      · rw [hr, h]
        have hs : movesOf s = [String.ofList s] := by
          rw [movesOf_segment hslash, if_neg (by simp [hne, hdot])]
        rcases hend with rfl | hend
        · rw [List.append_nil, hs]; rfl
        · obtain ⟨r, rfl⟩ := List.head?_eq_some_iff.1 hend
          rw [movesOf_append, movesOf_slash, hs]; rfl
    unfold dropSteps
    rw [ih, hone, List.drop_drop, Nat.add_comm]

theorem movesOf_dropTail (cs : List Char) : movesOf (dropTail cs).reverse = movesOf cs.reverse := by
  fun_induction dropTail cs with
  | case1 => rfl
  | case2 => rfl
  | case3 r h ih => rw [ih, List.reverse_cons, movesOf_concat_slash]
  | case4 => rfl
  | case5 r h ih =>
    have hdot : movesOf (r.reverse ++ '/' :: ['.']) = movesOf r.reverse := by
      rw [movesOf_append]; simp [movesOf, segments]
    rw [ih, List.reverse_cons, List.reverse_cons, List.append_assoc]
    exact hdot.symm
  | case6 => rfl

theorem moves_rest (n : Nat) (cs : List Char) :
    (⟨String.ofList (dropTail (dropLead (dropSteps n cs)).reverse).reverse⟩ : Path).moves =
      (movesOf cs).drop n := by
  rw [moves_eq, String.toList_ofList, movesOf_dropTail, List.reverse_reverse, movesOf_dropLead,
    movesOf_dropSteps]

/-- Past the `.` that a path starts with there are the same pieces. -/
theorem movesOf_drop_here {p : Path} (h : p.lead = [.here]) :
    movesOf (p.text.toList.drop 1) = p.moves := by
  have hhead : (segments p.text.toList).head? = some ['.'] := by
    unfold lead at h
    split at h
    · cases h
    · split at h
      · assumption
      · cases h
  rw [moves_eq]
  rcases hp : p.text.toList with _ | ⟨c, cs⟩
  · rfl
  · rw [hp] at hhead
    by_cases hc : c = '/'
    · rw [hc, segments_slash] at hhead
      cases hhead
    · obtain ⟨s, ss, hs, hsegments⟩ := segments_cons hc cs
      rw [hsegments] at hhead
      obtain ⟨rfl, rfl⟩ := List.cons.inj (Option.some.inj hhead)
      unfold movesOf
      rw [hsegments, List.drop_one, List.tail_cons, hs]
      rfl

theorem moves_stripPrefix {p root : Path} (h : p.startsWith root = true) :
    ∃ q, p.stripPrefix? root = some q ∧ q.moves = p.below root := by
  have hroot := components_eq root
  unfold stripPrefix?
  rw [if_pos h]
  refine ⟨_, rfl, ?_⟩
  unfold below
  rcases lead_cases root with hl | hl | hl
  · rw [hroot, hl, List.singleton_append]
    dsimp only
    rw [moves_rest, List.length_map, ← moves_eq]
  · have hp : p.lead = [.here] := hl ▸ lead_of_startsWith h (by rw [hl]; simp)
    rw [hroot, hl, List.singleton_append]
    dsimp only
    rw [moves_rest, List.length_map, movesOf_drop_here hp]
  · rw [hl, List.nil_append] at hroot
    rcases hm : root.moves with _ | ⟨s, ss⟩
    · rw [hroot, hm, moves_eq, String.toList_ofList, movesOf_dropTail, List.reverse_reverse]
      exact (moves_eq p).symm
    · have hne := Component.ofMove_ne s
      have hlength : (Component.ofMove s :: ss.map Component.ofMove).length = (s :: ss).length := by simp
      rw [hroot, hm, List.map_cons, ← hlength]
      split
      · rename_i heq; cases heq
      · rename_i heq; exact absurd (List.cons.inj heq).1 hne.1
      · rename_i heq; exact absurd (List.cons.inj heq).1 hne.2
      · rw [moves_rest, ← moves_eq]

theorem dropLead_of_plain {c : Char} {r : List Char} (hc : c ≠ '/')
    (hr : c = '.' → r ≠ [] ∧ r.head? ≠ some '/') : dropLead (c :: r) = c :: r := by
  unfold dropLead
  split
  · rename_i h; cases h; exact absurd rfl hc
  · rename_i h; cases h; exact absurd rfl (hr rfl).1
  · rename_i h; cases h; exact absurd rfl (hr rfl).2
  · rfl

theorem dropLead_joined {ps : List String} (hp : ∀ s ∈ ps, IsPiece s) :
    dropLead (joined ps).toList = (joined ps).toList := by
  rcases ps with _ | ⟨s, ps⟩
  · rfl
  · have hs := hp s List.mem_cons_self
    obtain ⟨c, r, hr⟩ := List.exists_cons_of_ne_nil hs.ne_nil
    have hslash : c ≠ '/' ∧ '/' ∉ r := by simpa [hr, eq_comm] using hs.no_slash
    rw [joined_cons, hr, List.cons_append]
    refine dropLead_of_plain hslash.1 fun hdot => ?_
    -- a piece goes on after a dot, and not with a separator
    rcases r with _ | ⟨x, r⟩
    · refine absurd ?_ hs.ne_dot
      rw [← String.toList_inj, hr, hdot]
      rfl
    · refine ⟨List.cons_ne_nil _ _, fun hx => hslash.2 ?_⟩
      exact List.mem_cons.2 (.inl (Option.some.inj hx).symm)

theorem dropLead_dropSteps_joined {top names : List String} (h : ∀ n ∈ top ++ names, IsPiece n) :
    dropLead (dropSteps top.length ('/' :: (joined (top ++ names)).toList)) = (joined names).toList := by
  induction top with
  | nil => exact dropLead_joined h
  | cons s top ih =>
    have hs := h s List.mem_cons_self
    have hrest : ∀ n ∈ top ++ names, IsPiece n := fun n hn => h n (List.mem_cons_of_mem _ hn)
    have hlead : dropLead ('/' :: (joined (s :: (top ++ names))).toList) = (joined (s :: (top ++ names))).toList :=
      dropLead_joined h
    have hpass : ∀ c ∈ s.toList, decide (c ≠ '/') = true :=
      fun c hc => decide_eq_true fun he => hs.no_slash (he ▸ hc)
    rw [List.length_cons, List.cons_append, dropSteps, hlead, joined_cons, List.dropWhile_append_of_pos hpass]
    split
    · rename_i hnil
      obtain ⟨rfl, rfl⟩ := List.append_eq_nil_iff.1 hnil
      rfl
    · rw [List.dropWhile_cons_of_neg (by simp)]
      exact ih hrest

/-- What is stored below a directory is spelled there with its names. -/
theorem stripPrefix_ofLocation {top names : List String} (h : ∀ n ∈ top ++ names, IsPiece n) :
    (ofLocation (top ++ names)).stripPrefix? (ofLocation top) = some ⟨joined names⟩ := by
  have htop : (ofLocation top).moves = top := moves_ofLocation fun n hn => h n (List.mem_append_left _ hn)
  have hbelow : (ofLocation (top ++ names)).startsWith (ofLocation top) = true := by
    rw [startsWith_iff (isAbsolute_ofLocation _) (isAbsolute_ofLocation _), htop, moves_ofLocation h]
    exact List.prefix_append _ _
  have hend : (dropTail (joined names).toList.reverse).reverse = (joined names).toList := by
    rcases List.eq_nil_or_concat' names with rfl | ⟨before, n, rfl⟩
    · rfl
    · rw [dropTail_joined_concat before (h n (by simp)), List.reverse_reverse]
  unfold stripPrefix?
  rw [if_pos hbelow, components_of_absolute (isAbsolute_ofLocation top), htop]
  dsimp only
  rw [List.length_map, toList_ofLocation_joined, dropLead_dropSteps_joined h, hend, String.ofList_toList]

theorem slashText_eq (p : Path) : p.slashText = joined p.moves := by
  unfold slashText joined
  rw [filterMap_components]

/-! ## Clean names -/

/-- The name is made up of pieces, as the name of a path below a root is. -/
def IsClean (n : String) : Prop := ∃ pieces, (∀ s ∈ pieces, IsPiece s) ∧ n = joined pieces

theorem IsClean.bareText {n : String} (h : IsClean n) : bareText n = n := by
  obtain ⟨pieces, hpieces, rfl⟩ := h
  exact bareText_joined hpieces

/-- The name of a path below a root is spelled with the last pieces of the path. -/
theorem suffix_of_nameBelow {p root : Path} {n : String} (h : nameBelow p root = .ok n) :
    ∃ pieces, n = joined pieces ∧ pieces <:+ p.moves := by
  refine ⟨_, (nameBelow_eq_ok.1 h).2, ?_⟩
  rw [← filterMap_components]
  exact (List.drop_suffix _ _).filterMap _

theorem isClean_of_nameBelow {p root : Path} {n : String} (h : nameBelow p root = .ok n) : IsClean n := by
  obtain ⟨pieces, hn, hsuffix⟩ := suffix_of_nameBelow h
  exact ⟨pieces, fun s hs => isPiece_of_mem_moves (hsuffix.subset hs), hn⟩

/-- The name of a path below a root ends in its file name. -/
theorem fileName_of_nameBelow {p root : Path} {n file : String} (h : nameBelow p root = .ok n)
    (hfile : (⟨n⟩ : Path).fileName = some file) : p.fileName = some file := by
  obtain ⟨pieces, rfl, before, hmoves⟩ := suffix_of_nameBelow h
  have hpieces : ∀ s ∈ pieces, IsPiece s := fun s hs =>
    isPiece_of_mem_moves (p := p) (hmoves ▸ List.mem_append_right _ hs)
  rw [fileName_eq_some, moves_joined hpieces] at hfile
  rw [fileName_eq_some, ← hmoves, List.getLast?_append, hfile.1]
  exact ⟨rfl, hfile.2⟩

theorem IsClean.slashJoin {n m : String} (hn : IsClean n) (hm : IsClean m) : IsClean (slashJoin n m) := by
  obtain ⟨ps, hps, rfl⟩ := hn
  obtain ⟨qs, hqs, rfl⟩ := hm
  rw [slashJoin_joined hps hqs]
  exact ⟨ps ++ qs, fun s hs => (List.mem_append.1 hs).elim (hps s) (hqs s), rfl⟩

theorem IsClean.slashJoin_empty {n : String} (hn : IsClean n) : Path.slashJoin n "" = n := by
  obtain ⟨ps, hps, rfl⟩ := hn
  have h : Path.slashJoin (joined ps) (joined []) = joined (ps ++ []) :=
    slashJoin_joined hps fun s hs => absurd hs List.not_mem_nil
  rwa [List.append_nil] at h

theorem joined_injective {ps qs : List String} (hps : ∀ s ∈ ps, IsPiece s) (hqs : ∀ s ∈ qs, IsPiece s)
    (h : joined ps = joined qs) : ps = qs := by
  rw [← moves_joined hps, h, moves_joined hqs]

theorem IsClean.slashJoin_injective {n : String} (hn : IsClean n) {ps qs : List String}
    (hps : ∀ s ∈ ps, IsPiece s) (hqs : ∀ s ∈ qs, IsPiece s)
    (h : Path.slashJoin n (joined ps) = Path.slashJoin n (joined qs)) : ps = qs := by
  obtain ⟨ns, hns, rfl⟩ := hn
  rw [slashJoin_joined hns hps, slashJoin_joined hns hqs] at h
  exact List.append_cancel_left (joined_injective
    (fun s hs => (List.mem_append.1 hs).elim (hns s) (hps s))
    (fun s hs => (List.mem_append.1 hs).elim (hns s) (hqs s)) h)

theorem lead_joined {ps : List String} (hps : ∀ s ∈ ps, IsPiece s) : (⟨joined ps⟩ : Path).lead = [] := by
  have h := components_eq ⟨joined ps⟩
  rw [components_joined hps, moves_joined hps] at h
  simpa using h

theorem components_join_joined (root : Path) {ps : List String} (hps : ∀ s ∈ ps, IsPiece s) :
    (root / joined ps).components = root.components ++ ps.map Component.ofMove := by
  have hrelative : (⟨joined ps⟩ : Path).isAbsolute = false := by
    unfold isAbsolute
    rw [beq_eq_false_iff_ne]
    exact head_joined hps
  have hmoves : (root / joined ps).moves = root.moves ++ ps :=
    (moves_join_path root ⟨joined ps⟩ hrelative).trans (by rw [moves_joined hps])
  rw [components_eq, components_eq root, hmoves, show (root / joined ps).lead = root.lead from
    lead_join root (lead_joined hps), List.map_append, List.append_assoc]

/-- A clean name is the name of the path that it leads to from a root. -/
theorem IsClean.nameBelow_join {n : String} (hn : IsClean n) (root : Path) :
    nameBelow (root / n) root = .ok n := by
  obtain ⟨ps, hps, rfl⟩ := hn
  have hcomponents := components_join_joined root hps
  have hstarts : (root / joined ps).startsWith root = true := by
    unfold startsWith
    rw [hcomponents, List.isPrefixOf_iff_prefix]
    exact List.prefix_append _ _
  have hstep : Component.step? ∘ Component.ofMove = some := funext step?_ofMove
  unfold nameBelow nameBelow?
  rw [if_pos hstarts, hcomponents, List.drop_left, List.filterMap_map, hstep, List.filterMap_some]
  rfl

/-- The name of a path below a root leads from the root to the path. -/
theorem same_join_of_nameBelow {p root : Path} {n : String} (hroot : root.isAbsolute = true)
    (h : nameBelow p root = .ok n) : (root / n).same p = true := by
  have hp : p.isAbsolute = true := isAbsolute_of_startsWith (nameBelow_eq_ok.1 h).1 hroot
  obtain ⟨hstarts, rfl⟩ := (nameBelow_ok hp hroot).1 h
  rw [same_iff, components_join_joined root fun s hs => isPiece_of_mem_below hs, components_of_absolute hroot,
    components_of_absolute hp, moves_eq_of_startsWith hp hroot hstarts, List.map_append]
  rfl

end Stowage.Path
