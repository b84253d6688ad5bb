/-
What the paths are made of that a pattern below a root expands to. Each step of such a path is a name that is
stored in a directory or comes from one component of the pattern. So the path leads up only where a component
matches the parent entry, and it starts with the root where letters have to match as they are.
-/
import Stowage.Proofs.Disk.WellNamed
import Stowage.Proofs.Glob.Literal

open Stowage.Path

namespace Stowage.Glob

/-- The component matches the parent entry of a directory. -/
def Pattern.LeadsUp (o : Options) (c : Pattern) : Prop := ".." ∈ Expansion.dots o c

/-- Some component of the pattern matches the parent entry of a directory. -/
def Climbs (o : Options) (text : String) : Prop :=
  ∃ s ∈ segments text.toList, ∃ c, compile (String.ofList s) = .ok c ∧ c.LeadsUp o

namespace Expansion

variable {d : Disk} {o : Options} {onlyDirectories : Bool}

theorem mem_result {p q : Path} (h : p ∈ result d onlyDirectories q) : p = q := by
  unfold result at h
  split at h
  · cases h
  · exact List.mem_singleton.1 h

/-- The match lies where some components lead from a directory, or is the directory if there are none. -/
def Onward (d : Disk) (o : Options) (onlyDirectories : Bool) (fuel : Nat) (rest : List Pattern)
    (next p : Path) : Prop :=
  (rest = [] ∧ p = next) ∨ p ∈ search d o onlyDirectories fuel rest next

theorem onward_of_mem {fuel : Nat} {rest : List Pattern} {next p : Path}
    (h : p ∈ if rest.isEmpty then result d onlyDirectories next
      else search d o onlyDirectories fuel rest next) :
    Onward d o onlyDirectories fuel rest next p := by
  split at h
  · rename_i hr
    exact .inl ⟨List.isEmpty_iff.1 hr, mem_result h⟩
  · exact .inr h

/-- The ways on which a directory is searched: for what a component without wildcards stands for, for the
entries that it matches by its dots, and for names. -/
theorem mem_search {fuel : Nat} {c : Pattern} {rest : List Pattern} {dir p : Path}
    (h : p ∈ search d o onlyDirectories (fuel + 1) (c :: rest) dir) :
    (∃ cs, literal? c.tokens = some cs ∧
      Onward d o onlyDirectories fuel rest (dir / String.ofList cs) p) ∨
    literal? c.tokens = none ∧ ((∃ s ∈ dots o c, Onward d o onlyDirectories fuel rest (dir / s) p) ∨
      ∃ name ∈ namesIn d dir, p ∈ visit d o onlyDirectories fuel (c :: rest) (dir / name)) := by
  rw [search] at h
  unfold inDirectory at h
  dsimp only at h
  split at h
  · rename_i cs hcs
    exact .inl ⟨cs, hcs, onward_of_mem (List.mem_ite_nil_right.1 h).2⟩
  · rename_i hnone
    refine .inr ⟨hnone, ?_⟩
    rcases List.mem_append.1 (List.mem_ite_nil_right.1 h).2 with h | h
    · obtain ⟨s, hs, hp⟩ := List.mem_flatMap.1 h
      exact .inl ⟨s, hs, onward_of_mem hp⟩
    · obtain ⟨name, hname, hp⟩ := List.mem_flatMap.1 h
      exact .inr ⟨name, hname, hp⟩

theorem mem_byName {fuel : Nat} {ps : List Pattern} {path p : Path}
    (h : p ∈ byName d o onlyDirectories (search d o onlyDirectories fuel) ps path) :
    ∃ c rest name, ps = c :: rest ∧ path.fileName = some name ∧ c.accepts o name = true ∧
      Onward d o onlyDirectories fuel rest path p := by
  unfold byName at h
  split at h
  · rename_i c rest name hname
    split at h
    · rename_i ha
      exact ⟨c, rest, name, rfl, hname, ha, onward_of_mem h⟩
    · cases h
  · cases h

theorem skipDeep_suffix (ps : List Pattern) : skipDeep ps <:+ ps := by
  fun_induction skipDeep ps with
  | case1 p q rest _ ih => exact ih.trans (List.suffix_cons _ _)
  | case2 => exact List.suffix_rfl
  | case3 => exact List.suffix_rfl

/-- A path that was found by its name is a match, or components that are left lead on from it. -/
theorem mem_visit {fuel : Nat} {ps : List Pattern} {path p : Path}
    (h : p ∈ visit d o onlyDirectories (fuel + 1) ps path) :
    p = path ∨ ∃ rest ⊆ ps, p ∈ search d o onlyDirectories fuel rest path := by
  have hname : ∀ qs ⊆ ps, p ∈ byName d o onlyDirectories (search d o onlyDirectories fuel) qs path →
      p = path ∨ ∃ rest ⊆ ps, p ∈ search d o onlyDirectories fuel rest path := by
    intro qs hqs hp
    obtain ⟨c, rest, -, rfl, -, -, ⟨-, rfl⟩ | hrest⟩ := mem_byName hp
    · exact .inl rfl
    · exact .inr ⟨rest, List.Subset.trans (List.subset_cons_self c rest) hqs, hrest⟩
  have hsub := (skipDeep_suffix ps).subset
  rw [visit] at h
  split at h
  · cases h
  · rename_i c rest hskip
    rw [hskip] at hsub
    split at h
    · rcases List.mem_append.1 h with h | h
      · split at h
        · split at h
          · exact .inl (List.mem_singleton.1 h)
          · cases h
        · exact hname rest (List.Subset.trans (List.subset_cons_self c rest) hsub) h
      · split at h
        · exact .inr ⟨c :: rest, hsub, h⟩
        · cases h
    · exact hname _ hsub h

/-! ## Steps -/

/-- The components stand for single steps. -/
def Single (ps : List Pattern) : Prop := ∀ c ∈ ps, ∀ cs, literal? c.tokens = some cs → '/' ∉ cs

/-- The path lies below a directory, and leads up only where a component does. -/
def Leads (o : Options) (ps : List Pattern) (dir p : Path) : Prop :=
  p.isAbsolute = true ∧
    ∃ steps, p.moves = dir.moves ++ steps ∧ (".." ∈ steps → ∃ c ∈ ps, c.LeadsUp o)

theorem Leads.step {ps : List Pattern} {dir p : Path} {s : String} (hs : '/' ∉ s.toList)
    (hup : s = ".." → ∃ c ∈ ps, c.LeadsUp o) (h : Leads o ps (dir / s) p) : Leads o ps dir p := by
  obtain ⟨habs, steps, hsteps, hlead⟩ := h
  rw [moves_join_segment hs, List.append_assoc] at hsteps
  refine ⟨habs, _, hsteps, fun h => ?_⟩
  rcases List.mem_append.1 h with h | h
  · rw [moves_segment hs] at h
    split at h
    · cases h
    · exact hup (List.mem_singleton.1 h).symm
  · exact hlead h

theorem Leads.mono {ps qs : List Pattern} {dir p : Path} (hsub : ps ⊆ qs) (h : Leads o ps dir p) :
    Leads o qs dir p := by
  obtain ⟨habs, steps, hsteps, hlead⟩ := h
  refine ⟨habs, steps, hsteps, fun h => ?_⟩
  obtain ⟨c, hc, hl⟩ := hlead h
  exact ⟨c, hsub hc, hl⟩

theorem leads_refl {ps : List Pattern} {p : Path} (h : p.isAbsolute = true) : Leads o ps p p :=
  ⟨h, [], (List.append_nil _).symm, fun h => absurd h List.not_mem_nil⟩

theorem leadsUp_of_literal {c : Pattern} (h : literal? c.tokens = some "..".toList) : c.LeadsUp o := by
  have hdot : charEq o '.' '.' = true := by unfold charEq; split <;> decide
  have haccepts : c.accepts o ".." = true := by
    unfold Pattern.accepts
    rw [tokens_of_literal? h]
    simp [matchTokens, Token.accepts, hdot]
  unfold Pattern.LeadsUp dots
  rw [tokens_of_literal? h]
  exact List.mem_filter.2 ⟨List.mem_cons_self, haccepts⟩

theorem mem_dots {c : Pattern} {s : String} (h : s ∈ dots o c) : s = ".." ∨ s = "." := by
  unfold dots at h
  split at h
  · simpa using (List.mem_filter.1 h).1
  · cases h

theorem mem_namesIn (hn : d.WellNamed) {dir : Path} {name : String} (h : name ∈ namesIn d dir) :
    IsName name := by
  unfold namesIn at h
  split at h
  · exact (hn.mem_names h).toIsName
  · cases h

/-- What a search finds lies below the directory, and leads up only where a component does. -/
theorem leads_of_mem_search (hn : d.WellNamed) {fuel : Nat} {ps : List Pattern} {dir p : Path}
    (hps : Single ps) (hdir : dir.isAbsolute = true)
    (h : p ∈ search d o onlyDirectories fuel ps dir) : Leads o ps dir p := by
  -- a name that is compared in a directory takes two levels, what a component stands for takes one
  induction fuel using Nat.strong_induction_on generalizing ps dir with
  | _ fuel ih =>
  rcases fuel with _ | fuel
  · rw [search] at h; cases h
  rcases ps with _ | ⟨c, rest⟩
  · rw [search] at h; cases h
  have honward : ∀ s, '/' ∉ s.toList → (s = ".." → c.LeadsUp o) →
      Onward d o onlyDirectories fuel rest (dir / s) p → Leads o (c :: rest) dir p := by
    intro s hs hup hp
    have habs : (dir / s).isAbsolute = true := isAbsolute_join_name _ _ hdir
    refine Leads.step hs (fun h => ⟨c, List.mem_cons_self, hup h⟩) ?_
    rcases hp with ⟨-, rfl⟩ | hp
    · exact leads_refl habs
    · exact (ih fuel (Nat.lt_succ_self _) (fun c hc => hps c (List.mem_cons_of_mem _ hc)) habs hp).mono
        (List.subset_cons_self _ _)
  rcases mem_search h with ⟨cs, hcs, hp⟩ | ⟨-, ⟨s, hs, hp⟩ | ⟨name, hname, hp⟩⟩
  · refine honward _ ?_ ?_ hp
    · rw [String.toList_ofList]
      exact hps c List.mem_cons_self cs hcs
    · intro hup
      refine leadsUp_of_literal ?_
      rw [hcs, ← hup, String.toList_ofList]
  · refine honward s ?_ (fun hup => by rw [hup] at hs; exact hs) hp
    rcases mem_dots hs with rfl | rfl <;> decide
  · have hname := mem_namesIn hn hname
    have habs : (dir / name).isAbsolute = true := isAbsolute_join_name _ _ hdir
    refine Leads.step hname.no_slash (fun h => absurd h hname.ne_up) ?_
    rcases fuel with _ | fuel
    · rw [visit] at hp; cases hp
    rcases mem_visit hp with rfl | ⟨qs, hqs, hp⟩
    · exact leads_refl habs
    · exact (ih fuel (by omega) (fun c hc => hps c (hqs hc)) habs hp).mono hqs

/-! ## Steps of a root -/

theorem fileName_join (dir : Path) {name : String} (h : IsName name) : (dir / name).fileName = some name := by
  rw [fileName_eq_some, moves_join dir h.toIsPiece, List.getLast?_concat]
  exact ⟨rfl, h.ne_up⟩

theorem isDeep_exactly (n : String) : (exactly n).isDeep = false := by
  unfold Pattern.isDeep exactly
  rw [decide_eq_false_iff_not]
  intro h
  obtain ⟨c, -, -, hc, -⟩ := List.map_eq_cons_iff.1 h
  unfold exactlyChar at hc
  split at hc <;> cases hc

theorem skipDeep_exactly (n : String) (rest : List Pattern) :
    skipDeep (exactly n :: rest) = exactly n :: rest := by
  unfold skipDeep
  split
  · rename_i heq
    cases heq
    rw [isDeep_exactly]; rfl
  · rfl

/-- A quoted name leads to one step, which is the name where letters have to match as they are. -/
theorem mem_search_exactly (hn : d.WellNamed) {fuel : Nat} {n : String} (hname : n = "" ∨ IsName n)
    {rest : List Pattern} {dir p : Path} (h : p ∈ search d o onlyDirectories fuel (exactly n :: rest) dir) :
    ∃ m left, '/' ∉ m.toList ∧ (o.caseSensitive = true → m = n) ∧
      (⟨m⟩ : Path).moves.length = (⟨n⟩ : Path).moves.length ∧
      Onward d o onlyDirectories left rest (dir / m) p := by
  have hslash : '/' ∉ n.toList := by
    rcases hname with rfl | hname
    · decide
    · exact hname.no_slash
  rcases fuel with _ | fuel
  · rw [search] at h; cases h
  rcases mem_search h with ⟨cs, hcs, hp⟩ | ⟨hnone, ⟨s, hs, -⟩ | ⟨m, hm, hp⟩⟩
  · have he : String.ofList cs = n := by
      rw [literal?_exactly hcs, String.ofList_toList]
    rw [he] at hp
    exact ⟨n, fuel, hslash, fun _ => rfl, rfl, hp⟩
  · -- a quoted text that has to be compared has wildcard characters, and no dots match these
    have hdots : ∀ b ∈ s.toList, b = '.' := by
      rcases mem_dots hs with rfl | rfl <;> simp
    have ha := not_accepts_dots (o := o) hdots hnone
    unfold dots at hs
    split at hs
    · rw [(List.mem_filter.1 hs).2] at ha
      cases ha
    · cases hs
  · have hm := mem_namesIn hn hm
    have hname := hname.resolve_left (by rintro rfl; cases hnone)
    rcases fuel with _ | fuel
    · rw [visit] at hp; cases hp
    rw [visit, skipDeep_exactly] at hp
    dsimp only at hp
    rw [isDeep_exactly, if_neg (by simp)] at hp
    obtain ⟨c, qs, name, he, hfile, ha, hon⟩ := mem_byName hp
    cases he
    rw [fileName_join _ hm] at hfile
    cases hfile
    refine ⟨m, fuel, hm.no_slash, fun ho => eq_of_accepts ho ha, ?_, hon⟩
    rw [moves_piece hm.toIsPiece, moves_piece hname.toIsPiece]; rfl

/-- The path goes as many steps as some names below a directory, and then leads up only where a component
does. -/
def LeadsBelow (o : Options) (names : List String) (ps : List Pattern) (dir p : Path) : Prop :=
  p.isAbsolute = true ∧ ∃ first steps, p.moves = dir.moves ++ first ++ steps ∧
    first.length = (names.flatMap fun n => (⟨n⟩ : Path).moves).length ∧
    (o.caseSensitive = true → first = names.flatMap fun n => (⟨n⟩ : Path).moves) ∧
    (".." ∈ steps → ∃ c ∈ ps, c.LeadsUp o)

theorem leadsBelow_of_onward (hn : d.WellNamed) {fuel : Nat} {names : List String}
    (hnames : ∀ n ∈ names, n = "" ∨ IsName n) {ps : List Pattern} (hps : Single ps) {dir p : Path}
    (hdir : dir.isAbsolute = true)
    (h : Onward d o onlyDirectories fuel (names.map exactly ++ ps) dir p) :
    LeadsBelow o names ps dir p := by
  induction names generalizing fuel dir with
  | nil =>
    have hlead : Leads o ps dir p := by
      rcases h with ⟨-, rfl⟩ | h
      · exact leads_refl hdir
      · exact leads_of_mem_search hn hps hdir h
    obtain ⟨habs, steps, hsteps, hup⟩ := hlead
    exact ⟨habs, [], steps, by rw [hsteps, List.append_nil], rfl, fun _ => rfl, hup⟩
  | cons n names ih =>
    rw [List.forall_mem_cons] at hnames
    rcases h with ⟨h, -⟩ | h
    · cases h
    · obtain ⟨m, left, hslash, hcase, hlength, hon⟩ := mem_search_exactly hn hnames.1 h
      obtain ⟨habs, first, steps, hmoves, hfirst, hsame, hup⟩ :=
        ih hnames.2 (isAbsolute_join_name _ _ hdir) hon
      refine ⟨habs, (⟨m⟩ : Path).moves ++ first, steps, ?_, ?_, fun ho => ?_, hup⟩
      · rw [hmoves, moves_join_segment hslash, List.append_assoc dir.moves]
      · rw [List.length_append, List.flatMap_cons, List.length_append, hlength, hfirst]
      · rw [List.flatMap_cons, hcase ho, hsame ho]

end Expansion

/-! ## Below a root -/

/-- A text with a step up climbs. -/
theorem climbs_of_up {o : Options} {text : String} (h : ".." ∈ (⟨text⟩ : Path).moves) : Climbs o text := by
  rw [moves_eq] at h
  obtain ⟨s, hs, he⟩ := List.mem_map.1 h
  have hcompile : compile ".." = .ok (exactly "..") := compile_literal ".."
  refine ⟨s, List.mem_of_mem_filter hs, exactly "..", by rw [he]; exact hcompile,
    Expansion.leadsUp_of_literal ?_⟩
  decide

/-- The names of a root as the components of a pattern below it; a separator stands before the first one. -/
def rootNames (ns : List String) : List String := if ns = [] then [""] else ns

theorem isName_rootNames {ns : List String} (h : ∀ n ∈ ns, IsName n) :
    ∀ n ∈ rootNames ns, n = "" ∨ IsName n := by
  intro n hn
  unfold rootNames at hn
  split at hn
  · exact .inl (List.mem_singleton.1 hn)
  · exact .inr (h n hn)

theorem flatMap_rootNames {ns : List String} (h : ∀ n ∈ ns, IsPiece n) :
    ((rootNames ns).flatMap fun n => (⟨n⟩ : Path).moves) = ns := by
  unfold rootNames
  split
  · rename_i hns
    rw [hns]; rfl
  · clear * - h
    induction ns with
    | nil => rfl
    | cons n ns ih =>
      rw [List.forall_mem_cons] at h
      rw [List.flatMap_cons, ih h.2, moves_piece h.1]; rfl

theorem slash_notMem_quoted {cs : List Char} (h : '/' ∉ cs) : '/' ∉ cs.flatMap quoted := by
  rw [List.mem_flatMap]
  rintro ⟨c, hc, hq⟩
  unfold quoted at hq
  split at hq
  · have : '/' = c := by simpa using hq
    exact h (this ▸ hc)
  · exact h (List.mem_singleton.1 hq ▸ hc)

theorem flatMap_intercalate (ls : List (List Char)) :
    (['/'].intercalate ls).flatMap quoted = ['/'].intercalate (ls.map (·.flatMap quoted)) := by
  rcases ls with _ | ⟨l, ls⟩
  · rfl
  · induction ls generalizing l with
    | nil => simp
    | cons l' ls ih =>
      rw [List.intercalate_cons_cons, List.flatMap_append, List.flatMap_append, ih, List.map_cons,
        List.map_cons, List.map_cons, List.intercalate_cons_cons]
      rfl

theorem segments_root {ns : List String} (h : ∀ n ∈ ns, IsPiece n) :
    segments ((['/'].intercalate (ns.map String.toList)).flatMap quoted) =
      (rootNames ns).map fun n => (literal n).toList := by
  unfold rootNames
  rw [flatMap_intercalate]
  split
  · rename_i hns
    rw [hns]; rfl
  · rename_i hns
    rw [segments_intercalate (by simpa using hns)]
    · rw [List.map_map]
      exact List.map_congr_left fun n _ => (toList_literal n).symm
    · intro l hl
      obtain ⟨_, hm, rfl⟩ := List.mem_map.1 hl
      obtain ⟨n, hn, rfl⟩ := List.mem_map.1 hm
      exact slash_notMem_quoted (h n hn).no_slash

theorem componentTexts_below {ns : List String} (h : ∀ n ∈ ns, IsPiece n) (t : String) :
    ∃ ts, componentTexts (literal (ofLocation ns).text ++ "/" ++ t) =
        (rootNames ns).map literal ++ ts ∧ ∀ s ∈ ts, s.toList ∈ segments t.toList := by
  have htext : (literal (ofLocation ns).text ++ "/" ++ t).toList.drop 1 =
      (['/'].intercalate (ns.map String.toList)).flatMap quoted ++ '/' :: t.toList := by
    rw [String.toList_append, String.toList_append, toList_literal, toList_ofLocation]
    simp [quoted, IsSpecial]
  unfold componentTexts
  rw [htext, segments_append, segments_root h]
  have hroot : ((rootNames ns).map fun n => (literal n).toList).map String.ofList =
      (rootNames ns).map literal := by
    rw [List.map_map]
    exact List.map_congr_left fun n _ => String.ofList_toList
  dsimp only
  -- a separator at the end starts no component
  split
  · rw [List.dropLast_append_of_ne_nil (segments_ne_nil _), List.map_append, hroot]
    refine ⟨_, rfl, fun s hs => ?_⟩
    obtain ⟨l, hl, rfl⟩ := List.mem_map.1 hs
    rw [String.toList_ofList]
    exact List.dropLast_subset _ hl
  · rw [List.map_append, hroot]
    refine ⟨_, rfl, fun s hs => ?_⟩
    obtain ⟨l, hl, rfl⟩ := List.mem_map.1 hs
    rwa [String.toList_ofList]

section
variable {α β ε : Type} {f : α → Except ε β}

theorem forall₂_of_mapM {l : List α} {bs : List β} (h : l.mapM f = .ok bs) :
    List.Forall₂ (fun a b => f a = .ok b) l bs := by
  induction l generalizing bs with
  | nil => cases h; exact .nil
  | cons a l ih =>
    rw [List.mapM_cons] at h
    rcases ha : f a with e | b
    · rw [ha] at h; cases h
    · rcases hl : l.mapM f with e | bs'
      · rw [ha, hl] at h; cases h
      · rw [ha, hl] at h
        cases h
        exact .cons ha (ih hl)

end

theorem compiled_below {names ts : List String} {cs : List Pattern}
    (h : List.Forall₂ (fun s c => compile s = .ok c) (names.map literal ++ ts) cs) :
    ∃ ps, cs = names.map exactly ++ ps ∧ ∀ c ∈ ps, ∃ s ∈ ts, compile s = .ok c := by
  induction names generalizing cs with
  | nil =>
    refine ⟨cs, rfl, ?_⟩
    change List.Forall₂ _ ts cs at h
    induction h with
    | nil => exact fun c hc => absurd hc List.not_mem_nil
    | @cons s c ts cs hc _ ih =>
      rw [List.forall_mem_cons]
      refine ⟨⟨s, List.mem_cons_self, hc⟩, fun c' hc' => ?_⟩
      obtain ⟨s', hs', he⟩ := ih c' hc'
      exact ⟨s', List.mem_cons_of_mem _ hs', he⟩
  | cons n names ih =>
    rw [List.map_cons, List.cons_append, List.forall₂_cons_left_iff] at h
    obtain ⟨c, cs', hc, hrest, rfl⟩ := h
    obtain ⟨ps, rfl, hps⟩ := ih hrest
    rw [compile_literal] at hc
    cases hc
    exact ⟨ps, rfl, hps⟩

/-- A pattern below a root matches paths with as many steps as the root before their own ones, among which is
one that leads up only if the pattern climbs. Where letters have to match as they are, these steps are those
of the root. -/
theorem mem_expand {d : Disk} {o : Options} (hn : d.WellNamed) {ns : List String}
    (hns : ∀ n ∈ ns, IsName n) {t : String} {paths : List Path}
    (h : expand d o (literal (ofLocation ns).text ++ "/" ++ t) = .ok paths) {p : Path} (hp : p ∈ paths) :
    p.isAbsolute = true ∧ (o.caseSensitive = true → p.startsWith (ofLocation ns) = true) ∧
      (".." ∈ p.below (ofLocation ns) → Climbs o t) := by
  have hpieces : ∀ n ∈ ns, IsPiece n := fun n hm => (hns n hm).toIsPiece
  obtain ⟨ts, hts, hmem⟩ := componentTexts_below hpieces t
  unfold expand at h
  rw [hts] at h
  rcases hc : compile (literal (ofLocation ns).text ++ "/" ++ t) with f | c
  · rw [hc] at h; cases h
  rcases hm : ((rootNames ns).map literal ++ ts).mapM compile with f | cs
  · rw [hc, hm] at h; cases h
  rw [hc, hm] at h
  obtain ⟨ps, rfl, hps⟩ := compiled_below (forall₂_of_mapM hm)
  cases h
  have hsingle : Expansion.Single ps := by
    intro c hc cs hl
    obtain ⟨s, hs, hcompile⟩ := hps c hc
    rw [compile_literal? hcompile hl]
    exact slash_notMem_segment (hmem s hs)
  obtain ⟨habs, first, steps, hmoves, hlength, hsame, hup⟩ :=
    Expansion.leadsBelow_of_onward hn (isName_rootNames hns) hsingle (by decide) (.inr hp)
  rw [flatMap_rootNames hpieces] at hlength hsame
  have htop : (⟨"/"⟩ : Path).moves = [] := by decide
  rw [htop, List.nil_append] at hmoves
  refine ⟨habs, fun ho => ?_, fun h => ?_⟩
  · rw [startsWith_iff habs (isAbsolute_ofLocation ns), moves_ofLocation hpieces, hmoves, hsame ho]
    exact List.prefix_append _ _
  · unfold below at h
    rw [moves_ofLocation hpieces, hmoves, ← hlength, List.drop_left] at h
    obtain ⟨c, hc, hlead⟩ := hup h
    obtain ⟨s, hs, hcompile⟩ := hps c hc
    exact ⟨s.toList, hmem s hs, c, by rwa [String.ofList_toList], hlead⟩

end Stowage.Glob
