/-
Ways between paths, told by their components alone. The way from one path to another one that starts alike goes up from
where they part and then down. Between names it ends at the other name wherever it is walked without a look at the disk.
-/
import Stowage.Proofs.Path.Joined

namespace Stowage.Path

/-- Where some steps lead from a place, told by the names alone: a step up takes the last name away. Nothing is above
the top. -/
def lexically : List String → List String → Option (List String)
  | place, [] => some place
  | place, s :: rest =>
    if s = ".." then if place = [] then none else lexically place.dropLast rest
    else lexically (place ++ [s]) rest

theorem lexically_append {names : List String} (place : List String) (h : ".." ∉ names) (rest : List String) :
    lexically place (names ++ rest) = lexically (place ++ names) rest := by
  induction names generalizing place with
  | nil => rw [List.nil_append, List.append_nil]
  | cons s names ih =>
    rw [List.mem_cons, not_or] at h
    rw [List.cons_append, lexically, if_neg (Ne.symm h.1), ih _ h.2, List.append_assoc, List.singleton_append]

theorem lexically_names {names : List String} (place : List String) (h : ".." ∉ names) :
    lexically place names = some (place ++ names) := by
  have happend := lexically_append place h []
  rwa [List.append_nil] at happend

/-- Steps up take the names away that stand at the end, and the others go on from what is left. -/
theorem lexically_up (place up rest : List String) :
    lexically (place ++ up) (List.replicate up.length ".." ++ rest) = lexically place rest := by
  induction up using List.reverseRecOn with
  | nil => simp
  | append_singleton up s ih =>
    rw [List.length_append, List.length_singleton, List.replicate_succ, List.cons_append, lexically,
      if_pos rfl, if_neg (by simp), ← List.append_assoc, List.dropLast_concat, ih]

/-! ## The way between names -/

theorem text_ofMove (s : String) : (Component.ofMove s).text = s := by
  unfold Component.ofMove
  split
  · rename_i h; rw [h]; rfl
  · rfl

/-- The longest start that two lists share. -/
structure IsCommon (common as bs : List Component) : Prop where
  left : common <+: as
  right : common <+: bs
  longest : ∀ start, start <+: as → start <+: bs → start.length ≤ common.length

/-- What is left of two lists follows their common start. -/
theorem exists_common (as bs : List Component) : ∃ common, IsCommon common as bs ∧
    as = common ++ (dropCommon as bs).1 ∧ bs = common ++ (dropCommon as bs).2 := by
  fun_induction dropCommon as bs with
  | case1 as b bs ih =>
    obtain ⟨common, hcommon, ha, hb⟩ := ih
    refine ⟨b :: common, ⟨List.prefix_cons_inj b |>.2 hcommon.left, List.prefix_cons_inj b |>.2 hcommon.right, ?_⟩,
      congrArg _ ha, congrArg _ hb⟩
    rintro (_ | ⟨c, start⟩) hleft hright
    · exact Nat.zero_le _
    · have hle := hcommon.longest start (List.cons_prefix_cons.1 hleft).2 (List.cons_prefix_cons.1 hright).2
      exact Nat.succ_le_succ hle
  | case2 a as b bs h =>
    refine ⟨[], ⟨List.nil_prefix, List.nil_prefix, ?_⟩, rfl, rfl⟩
    rintro (_ | ⟨c, start⟩) hleft hright
    · exact Nat.zero_le _
    · exact absurd ((List.cons_prefix_cons.1 hleft).1.symm.trans (List.cons_prefix_cons.1 hright).1) h
  | case3 as bs h =>
    refine ⟨[], ⟨List.nil_prefix, List.nil_prefix, ?_⟩, rfl, rfl⟩
    rintro (_ | ⟨c, start⟩) ⟨as', rfl⟩ ⟨bs', rfl⟩
    · exact Nat.zero_le _
    · exact absurd rfl (h c (start ++ as') c (start ++ bs') rfl)

/-- Two lists part where their common start ends. -/
theorem IsCommon.eq_nil {common down up : List Component} (h : IsCommon common (common ++ down) (common ++ up))
    (heq : down = up) : down = [] := by
  subst heq
  have hle := h.longest _ List.prefix_rfl List.prefix_rfl
  rw [List.length_append] at hle
  exact List.eq_nil_of_length_eq_zero (by omega)

theorem dropCommon_append (common as bs : List Component) :
    dropCommon (common ++ as) (common ++ bs) = dropCommon as bs := by
  induction common with
  | nil => rfl
  | cons c common ih =>
    rw [List.cons_append, List.cons_append, dropCommon, if_pos rfl]
    exact ih

/-- The way from a base to a path that starts like it is spelled with its steps: up to where they part, and down from
there. -/
theorem exists_steps {p base : Path} (h : p.lead = base.lead) : ∃ names, (∀ n ∈ names, IsPiece n) ∧
    diff p base = (⟨""⟩ : Path).extend names ∧
    names.map Component.ofMove = List.replicate (dropCommon p.components base.components).2.length .up ++
      (dropCommon p.components base.components).1 := by
  have hmoves : dropCommon p.components base.components =
      dropCommon (p.moves.map Component.ofMove) (base.moves.map Component.ofMove) := by
    rw [components_eq p, components_eq base, h, dropCommon_append]
  obtain ⟨common, -, hdown, -⟩ := exists_common (p.moves.map Component.ofMove) (base.moves.map Component.ofMove)
  unfold diff
  rw [hmoves]
  generalize dropCommon (p.moves.map Component.ofMove) (base.moves.map Component.ofMove) = way at hdown
  obtain ⟨down, up⟩ := way
  obtain ⟨_, names, hsplit, -, rfl⟩ := List.map_eq_append_iff.1 hdown
  have hmove : Component.ofMove ".." = .up := rfl
  refine ⟨List.replicate up.length ".." ++ names, fun s hs => ?_, ?_, ?_⟩
  · rcases List.mem_append.1 hs with hs | hs
    · exact List.eq_of_mem_replicate hs ▸ ⟨by decide, by decide, by decide⟩
    · exact isPiece_of_mem_moves (p := p) (hsplit ▸ List.mem_append_right _ hs)
  · have htexts : (up.map (fun _ => Component.up) ++ names.map Component.ofMove).map Component.text =
        List.replicate up.length ".." ++ names := by
      have htext : Component.text ∘ Component.ofMove = id := funext text_ofMove
      rw [List.map_append, List.map_const', List.map_replicate, List.map_map, htext, List.map_id]
      rfl
    unfold extend
    rw [← htexts, List.foldl_map]
  · rw [List.map_append, List.map_replicate, hmove]

theorem components_diff {p base : Path} (h : p.lead = base.lead) : (diff p base).components =
    List.replicate (dropCommon p.components base.components).2.length .up ++
      (dropCommon p.components base.components).1 := by
  obtain ⟨names, hnames, hdiff, hsteps⟩ := exists_steps h
  have hempty : (⟨""⟩ : Path).components = [] := rfl
  rw [hdiff, components_extend _ hnames, hempty, List.nil_append, hsteps]

theorem isAbsolute_diff {p base : Path} (h : p.lead = base.lead) : (diff p base).isAbsolute = false := by
  obtain ⟨names, hnames, hdiff, -⟩ := exists_steps h
  rw [hdiff, isAbsolute_extend_eq _ hnames]
  rfl

/-- The way between two names goes up to where they part, and down from there. -/
theorem moves_diff_joined {ps qs : List String} (hp : ∀ s ∈ ps, IsPiece s) (hq : ∀ s ∈ qs, IsPiece s) :
    ∃ common down up, ps = common ++ down ∧ qs = common ++ up ∧ (down = up → down = []) ∧
      (diff ⟨joined ps⟩ ⟨joined qs⟩).moves = List.replicate up.length ".." ++ down := by
  have hlead : lead ⟨joined ps⟩ = lead ⟨joined qs⟩ := by rw [lead_joined hp, lead_joined hq]
  have hway := components_diff hlead
  rw [components_joined hp, components_joined hq] at hway
  obtain ⟨common, hcommon, hps, hqs⟩ := exists_common (ps.map Component.ofMove) (qs.map Component.ofMove)
  generalize dropCommon (ps.map Component.ofMove) (qs.map Component.ofMove) = way at hps hqs hway
  obtain ⟨down, up⟩ := way
  obtain ⟨c, l, rfl, hc, rfl⟩ := List.map_eq_append_iff.1 hps
  obtain ⟨c', l', rfl, hc', rfl⟩ := List.map_eq_append_iff.1 hqs
  obtain rfl : c = c' := List.map_injective_iff.2 Component.ofMove_injective (hc.trans hc'.symm)
  rw [hps, hqs] at hcommon
  refine ⟨c, l, l', rfl, rfl, fun heq => List.map_eq_nil_iff.1 (hcommon.eq_nil (congrArg _ heq)), ?_⟩
  have hstep : Component.step? ∘ Component.ofMove = some := funext step?_ofMove
  have hup : Component.step? .up = some ".." := rfl
  rw [← filterMap_components, hway, List.filterMap_append, List.filterMap_replicate_of_some hup, List.filterMap_map,
    hstep, List.filterMap_some, List.length_map]

/-- There is nothing between two names exactly if they are the same. -/
theorem moves_diff_joined_eq_nil {ps qs : List String} (hp : ∀ s ∈ ps, IsPiece s) (hq : ∀ s ∈ qs, IsPiece s) :
    (diff ⟨joined ps⟩ ⟨joined qs⟩).moves = [] ↔ ps = qs := by
  obtain ⟨common, down, up, rfl, rfl, hpart, hway⟩ := moves_diff_joined hp hq
  rw [hway, List.append_eq_nil_iff, List.replicate_eq_nil_iff, List.length_eq_zero_iff, List.append_cancel_left_eq]
  constructor
  · rintro ⟨rfl, rfl⟩
    rfl
  · intro heq
    exact ⟨heq ▸ hpart heq, hpart heq⟩

/-- The way from one name to another one ends there. -/
theorem lexically_diff_joined {ps qs : List String} (hp : ∀ s ∈ ps, IsName s) (hq : ∀ s ∈ qs, IsPiece s) :
    lexically qs (diff ⟨joined ps⟩ ⟨joined qs⟩).moves = some ps := by
  obtain ⟨common, down, up, rfl, rfl, -, hway⟩ := moves_diff_joined (fun s hs => (hp s hs).toIsPiece) hq
  have hdown : ".." ∉ down := fun h => (hp _ (List.mem_append_right _ h)).ne_up rfl
  rw [hway, lexically_up, lexically_names _ hdown]

end Stowage.Path
