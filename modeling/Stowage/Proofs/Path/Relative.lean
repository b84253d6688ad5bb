/-
Names below a root and the paths that they stand for correspond one to one. A name is spelled without separators at its
ends, without two in a row and without a `.` component; each such text is the name of exactly one path, however that is
spelled, and names follow each other as the paths do.
-/
import Stowage.Proofs.Path.Joined

namespace Stowage.Path

/-! ## Spelling of names -/

/-- A text without separators at its ends, without two of them in a row and without a `.` component. -/
structure IsBare (n : String) : Prop where
  no_leading : n.toList.head? ≠ some '/'
  no_trailing : n.toList.getLast? ≠ some '/'
  no_doubled : ¬ ['/', '/'] <:+: n.toList
  no_dot : ['.'] ∉ segments n.toList

theorem intercalate_segments (cs : List Char) : ['/'].intercalate (segments cs) = cs := by
  induction cs with
  | nil => rfl
  | cons c r ih =>
    by_cases hc : c = '/'
    · obtain ⟨s, ss, hs⟩ := List.exists_cons_of_ne_nil (segments_ne_nil r)
      rw [hc, segments_slash, hs, List.intercalate_cons_cons, ← hs, ih]
      rfl
    · obtain ⟨s, ss, hs, hcons⟩ := segments_cons hc r
      rw [hcons]
      rw [hs] at ih
      rcases ss with _ | ⟨t, ss⟩
      · rw [List.intercalate_singleton] at ih ⊢
        rw [ih]
      · rw [List.intercalate_cons_cons] at ih ⊢
        rw [List.cons_append, List.cons_append, ih]

/-- An empty segment past the first one follows a separator, and then comes the end or another separator. -/
theorem nil_mem_tail_segments {cs : List Char} (h : [] ∈ (segments cs).tail) :
    cs.getLast? = some '/' ∨ ['/', '/'] <:+: cs := by
  induction cs with
  | nil => cases h
  | cons c r ih =>
    -- what the rest of the text has, the whole has
    have hgrow : r.getLast? = some '/' ∨ ['/', '/'] <:+: r →
        (c :: r).getLast? = some '/' ∨ ['/', '/'] <:+: c :: r := by
      rintro (hlast | hinfix)
      · rw [List.getLast?_cons, hlast]
        exact .inl rfl
      · exact .inr (List.infix_cons hinfix)
    by_cases hc : c = '/'
    · subst hc
      rw [segments_slash, List.tail_cons] at h
      rcases r with _ | ⟨x, r⟩
      · exact .inl rfl
      · by_cases hx : x = '/'
        · exact .inr ⟨[], r, by rw [hx]; rfl⟩
        · obtain ⟨s, ss, -, hcons⟩ := segments_cons hx r
          rw [hcons] at h ih
          exact hgrow (ih ((List.mem_cons.1 h).resolve_left (List.cons_ne_nil _ _).symm))
    · obtain ⟨s, ss, hs, hcons⟩ := segments_cons hc r
      rw [hcons, List.tail_cons] at h
      rw [hs] at ih
      exact hgrow (ih h)

theorem IsBare.nil_notMem {n : String} (h : IsBare n) (hne : n ≠ "") : [] ∉ segments n.toList := by
  intro hmem
  rcases hn : n.toList with _ | ⟨c, r⟩
  · exact hne (String.toList_inj.1 hn)
  · have hc : c ≠ '/' := fun he => h.no_leading (by rw [hn, he]; rfl)
    obtain ⟨s, ss, -, hcons⟩ := segments_cons hc r
    have htail : [] ∈ (segments n.toList).tail := by
      rw [hn, hcons] at hmem ⊢
      exact (List.mem_cons.1 hmem).resolve_left (List.cons_ne_nil _ _).symm
    exact (nil_mem_tail_segments htail).elim h.no_trailing h.no_doubled

/-- What is made up of pieces is spelled so, and nothing else is. -/
theorem isClean_iff {n : String} : IsClean n ↔ IsBare n := by
  constructor
  · rintro ⟨pieces, hpieces, rfl⟩
    have hsegments : ∀ s ∈ segments (joined pieces).toList, pieces ≠ [] → s ≠ [] ∧ s ≠ ['.'] := by
      intro s hs hne
      rw [segments_joined hpieces hne] at hs
      obtain ⟨piece, hpiece, rfl⟩ := List.mem_map.1 hs
      refine ⟨(hpieces piece hpiece).ne_nil, fun hdot => (hpieces piece hpiece).ne_dot ?_⟩
      rw [← String.toList_inj, hdot]
      rfl
    refine ⟨head_joined hpieces, getLast?_joined hpieces, ?_, fun hdot => ?_⟩
    · rintro ⟨before, after, hjoined⟩
      have hne : pieces ≠ [] := by
        rintro rfl
        simp [joined] at hjoined
      refine (hsegments [] ?_ hne).1 rfl
      rw [← hjoined, List.append_assoc, List.cons_append, List.singleton_append, segments_append, segments_slash]
      simp
    · rcases List.eq_nil_or_concat' pieces with rfl | ⟨front, last, rfl⟩
      · revert hdot
        decide
      · exact (hsegments _ hdot (by simp)).2 rfl
  · intro h
    by_cases hne : n = ""
    · exact ⟨[], fun _ hs => absurd hs List.not_mem_nil, hne⟩
    -- the segments of a bare text are its pieces
    · refine ⟨(segments n.toList).map String.ofList, fun s hs => ?_, ?_⟩
      · obtain ⟨t, ht, rfl⟩ := List.mem_map.1 hs
        refine ⟨?_, fun hdot => h.no_dot (ofList_eq_dot.1 hdot ▸ ht), ?_⟩
        · rw [String.toList_ofList]
          exact fun hnil => h.nil_notMem hne (hnil ▸ ht)
        · rw [String.toList_ofList]
          exact slash_notMem_segment ht
      · have hid : String.toList ∘ String.ofList = id := funext fun _ => String.toList_ofList
        rw [← String.toList_inj, toList_joined, List.map_map, hid, List.map_id, intercalate_segments]

/-! ## Names that follow each other -/

theorem intercalate_joined {ps qs : List String} (hp : ∀ s ∈ ps, IsPiece s) (hq : ∀ s ∈ qs, IsPiece s) :
    "/".intercalate ([joined ps, joined qs].filter (· ≠ "")) = joined (ps ++ qs) := by
  have hfilter : ∀ names : List String, (∀ s ∈ names, IsPiece s) →
      [joined names].filter (· ≠ "") = if names = [] then [] else [joined names] := by
    intro names hnames
    have hempty : joined names = "" ↔ names = [] := by
      rw [← joined_eq_nil hnames, ← String.toList_inj]
      rfl
    split
    · rename_i hnil
      rw [hempty.2 hnil]
      rfl
    · rename_i hne
      exact List.filter_cons_of_pos (decide_eq_true (mt hempty.1 hne))
  rw [← List.singleton_append, List.filter_append, hfilter ps hp, hfilter qs hq]
  rcases ps with _ | ⟨s, ps⟩
  · rcases qs with _ | ⟨t, qs⟩
    · rfl
    · exact String.intercalate_singleton
  · rcases qs with _ | ⟨t, qs⟩
    · rw [List.append_nil]
      exact String.intercalate_singleton
    · rw [joined_append (List.cons_ne_nil _ _) (List.cons_ne_nil _ _)]
      rfl

section
variable {p q root : Path}

theorem exists_nameBelow_iff : (∃ n, nameBelow p root = .ok n) ↔ root.components <+: p.components := by
  rw [← List.isPrefixOf_iff_prefix]
  exact ⟨fun ⟨n, hn⟩ => (nameBelow_eq_ok.1 hn).1, fun h => ⟨_, nameBelow_eq_ok.2 ⟨h, rfl⟩⟩⟩

theorem nameBelow_of_not_prefix (h : ¬ root.components <+: p.components) :
    nameBelow p root = .error (.outsideWorkspace p root) := by
  have hno : ¬ p.startsWith root = true := fun hstarts => h (List.isPrefixOf_iff_prefix.1 hstarts)
  unfold nameBelow nameBelow?
  rw [if_neg hno]

/-- The name below a root is the name of a path between them, and the name below that path. -/
theorem nameBelow_trans (hroot : root.isAbsolute = true) (hq : root.components <+: q.components)
    (hp : q.components <+: p.components) : ∃ n m, nameBelow q root = .ok n ∧ nameBelow p q = .ok m ∧
      nameBelow p root = .ok ("/".intercalate ([n, m].filter (· ≠ ""))) := by
  rw [← List.isPrefixOf_iff_prefix] at hq hp
  have hqabs : q.isAbsolute = true := isAbsolute_of_startsWith hq hroot
  have hpabs : p.isAbsolute = true := isAbsolute_of_startsWith hp hqabs
  have hbelow : p.startsWith root = true :=
    List.isPrefixOf_iff_prefix.2 ((List.isPrefixOf_iff_prefix.1 hq).trans (List.isPrefixOf_iff_prefix.1 hp))
  refine ⟨_, _, (nameBelow_ok hqabs hroot).2 ⟨hq, rfl⟩, (nameBelow_ok hpabs hqabs).2 ⟨hp, rfl⟩,
    (nameBelow_ok hpabs hroot).2 ⟨hbelow, ?_⟩⟩
  have hmoves := moves_eq_of_startsWith hpabs hqabs hp
  rw [moves_eq_of_startsWith hqabs hroot hq, moves_eq_of_startsWith hpabs hroot hbelow, List.append_assoc,
    List.append_cancel_left_eq] at hmoves
  rw [intercalate_joined (fun _ => isPiece_of_mem_below) fun _ => isPiece_of_mem_below, hmoves]

end

/-! ## Names and paths -/

/-- The paths below an absolute root, however they are spelled, and the bare texts correspond one to one: a path has a name
exactly if the components of the root come first in it, its name is bare and leads from the root to it and to no other path,
and every bare text is the name of the path that it leads to. A path that is no path below the root is told to be outside.
From a path to one further below names go on. -/
theorem nameBelow_corresponds {root : Path} (hroot : root.isAbsolute = true) :
    (∀ p, (∃ n, nameBelow p root = .ok n) ↔ root.components <+: p.components) ∧
    (∀ p, ¬ root.components <+: p.components → nameBelow p root = .error (.outsideWorkspace p root)) ∧
    (∀ p n, nameBelow p root = .ok n → IsBare n ∧ (root / n).components = p.components) ∧
    (∀ p q n, nameBelow p root = .ok n → nameBelow q root = .ok n → p.components = q.components) ∧
    (∀ n, IsBare n → nameBelow (root / n) root = .ok n) ∧
    ∀ p q, root.components <+: q.components → q.components <+: p.components →
      ∃ n m, nameBelow q root = .ok n ∧ nameBelow p q = .ok m ∧
        nameBelow p root = .ok ("/".intercalate ([n, m].filter (· ≠ ""))) := by
  have hleads : ∀ {p n}, nameBelow p root = .ok n → (root / n).components = p.components := fun h =>
    same_iff.1 (same_join_of_nameBelow hroot h)
  refine ⟨fun p => exists_nameBelow_iff, fun p => nameBelow_of_not_prefix, fun p n h => ?_, fun p q n hp hq => ?_,
    fun n hn => (isClean_iff.2 hn).nameBelow_join root, fun p q => nameBelow_trans hroot⟩
  · exact ⟨isClean_iff.1 (isClean_of_nameBelow h), hleads h⟩
  · rw [← hleads hp, hleads hq]

/-- A path and a root that are not spelled plainly, and a path that only starts with the text of the root. -/
theorem nameBelow_corresponds_spelled :
    nameBelow ⟨"//ws/./lib//a.js/."⟩ ⟨"/ws/./"⟩ = .ok "lib/a.js" ∧
    ((⟨"/ws/./"⟩ : Path) / "lib/a.js").components = components ⟨"//ws/./lib//a.js/."⟩ ∧
    nameBelow ⟨"/ws-other/a.js"⟩ ⟨"/ws/./"⟩ = .error (.outsideWorkspace ⟨"/ws-other/a.js"⟩ ⟨"/ws/./"⟩) := by
  obtain ⟨-, houtside, hleads, -⟩ := @nameBelow_corresponds ⟨"/ws/./"⟩ (by decide)
  have hname : nameBelow ⟨"//ws/./lib//a.js/."⟩ ⟨"/ws/./"⟩ = .ok "lib/a.js" := by
    rw [nameBelow_eq_ok]
    decide +kernel
  exact ⟨hname, (hleads _ _ hname).2, houtside _ (by decide +kernel)⟩

end Stowage.Path
