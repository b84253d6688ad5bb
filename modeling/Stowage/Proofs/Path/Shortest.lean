/-
The way from a base to a path is a shortest one. How far two places are apart is what they do not share, and no step of a
way changes that by more than one.
-/
import Stowage.Proofs.Path.Ways

namespace Stowage.Path

variable {p base : Path}

/-! ## Resolving ways -/

/-- Where a way leads from a place, told by the components alone: a step up drops the last one, any other is added. -/
def resolved : List Component → List Component → List Component
  | place, [] => place
  | place, .here :: way => resolved place way
  | place, .up :: way => resolved place.dropLast way
  | place, c :: way => resolved (place ++ [c]) way

theorem resolved_up (place up way : List Component) :
    resolved (place ++ up) (List.replicate up.length .up ++ way) = resolved place way := by
  induction up using List.reverseRecOn with
  | nil => rw [List.append_nil]; rfl
  | append_singleton up c ih =>
    rw [List.length_append, List.length_singleton, List.replicate_succ, List.cons_append, resolved,
      ← List.append_assoc, List.dropLast_concat, ih]

theorem resolved_down {way : List Component} (hhere : .here ∉ way) (hup : .up ∉ way) (place : List Component) :
    resolved place way = place ++ way := by
  induction way generalizing place with
  | nil => exact (List.append_nil place).symm
  | cons c way ih =>
    rw [List.mem_cons, not_or] at hhere hup
    rw [resolved, ih hhere.2 hup.2, List.append_assoc, List.singleton_append]
    · exact Ne.symm hhere.1
    · exact Ne.symm hup.1

/-! ## How far places are apart -/

/-- The number of components that two places do not share. -/
def apart (as bs : List Component) : Nat := (dropCommon as bs).1.length + (dropCommon as bs).2.length

theorem dropCommon_nil (as : List Component) : dropCommon as [] = (as, []) := by
  rw [dropCommon]
  rintro _ _ _ _ - ⟨⟩

theorem apart_self (as : List Component) : apart as as = 0 := by
  have h := dropCommon_append as [] []
  rw [List.append_nil] at h
  unfold apart
  rw [h]
  rfl

/-- One component more at the end changes by one at most how far a place is from another one. -/
theorem apart_concat (as bs : List Component) (c : Component) :
    apart as bs ≤ apart as (bs ++ [c]) + 1 ∧ apart as (bs ++ [c]) ≤ apart as bs + 1 := by
  unfold apart
  fun_induction dropCommon as bs with
  | case1 as b bs ih =>
    rw [List.cons_append, dropCommon, if_pos rfl]
    exact ih
  | case2 a as b bs h =>
    rw [List.cons_append, dropCommon, if_neg h]
    simp only [List.length_cons, List.length_append, List.length_nil]
    omega
  | case3 as bs h =>
    rcases as with _ | ⟨a, as⟩
    · have hnil : dropCommon [] (bs ++ [c]) = ([], bs ++ [c]) := by
        rw [dropCommon]
        rintro a _ _ _ ⟨⟩
      rw [hnil]
      simp only [List.length_nil, List.length_append, List.length_cons]
      omega
    · obtain rfl : bs = [] := List.eq_nil_iff_forall_not_mem.2 fun b hb => by
        obtain ⟨b, bs, rfl⟩ := List.exists_cons_of_ne_nil (List.ne_nil_of_mem hb)
        exact h a as b bs rfl rfl
      -- the new component is the first one, shared or not
      rw [List.nil_append, dropCommon]
      split
      · rw [dropCommon_nil]
        simp only [List.length_cons, List.length_nil]
        omega
      · simp only [List.length_cons, List.length_nil]
        omega

theorem apart_dropLast (as bs : List Component) : apart as bs ≤ apart as bs.dropLast + 1 := by
  rcases List.eq_nil_or_concat' bs with rfl | ⟨bs, c, rfl⟩
  · exact Nat.le_succ _
  · rw [List.dropLast_concat]
    exact (apart_concat as bs c).2

/-- A way has at least as many steps as its ends are apart. -/
theorem apart_le (target place way : List Component) :
    apart target place ≤ apart target (resolved place way) + way.length := by
  fun_induction resolved place way with
  | case1 place => exact Nat.le_refl _
  | case2 place way ih => exact ih.trans (Nat.le_succ _)
  | case3 place way ih => exact (apart_dropLast target place).trans (Nat.succ_le_succ ih)
  | case4 place c way _ _ ih => exact (apart_concat target place c).1.trans (Nat.succ_le_succ ih)

/-! ## The way from a base -/

theorem lead_eq (hp : .here ∉ p.components) (hbase : .here ∉ base.components) (h : p.isAbsolute = base.isAbsolute) :
    p.lead = base.lead := by
  have hlead : ∀ q : Path, .here ∉ q.components → q.lead = if q.isAbsolute then [.root] else [] := by
    intro q hq
    rw [components_eq, List.mem_append, not_or] at hq
    unfold lead at hq ⊢
    split
    · rfl
    · rename_i hrelative
      rw [if_neg hrelative] at hq
      split
      · rename_i hhere
        rw [if_pos hhere] at hq
        exact absurd (List.mem_singleton_self _) hq.1
      · rfl
  rw [hlead p hp, hlead base hbase, h]

/-- The way from a base to a path, neither with `.` or `..` components and both absolute or both relative, goes up as often
as the base has components past their longest common start, and down with the components of the path past it. It leads to the
path, and no relative path that leads there has fewer components. -/
theorem diff_shortest (hp : .here ∉ p.components ∧ .up ∉ p.components)
    (hbase : .here ∉ base.components ∧ .up ∉ base.components) (h : p.isAbsolute = base.isAbsolute) :
    (diff p base).isAbsolute = false ∧
    (∃ common, IsCommon common p.components base.components ∧ (diff p base).components =
      List.replicate (base.components.length - common.length) .up ++ p.components.drop common.length) ∧
    resolved base.components (diff p base).components = p.components ∧
    ∀ way : Path, way.isAbsolute = false → resolved base.components way.components = p.components →
      (diff p base).components.length ≤ way.components.length := by
  have hlead := lead_eq hp.1 hbase.1 h
  have hdiff := components_diff hlead
  obtain ⟨common, hcommon, hdown, hup⟩ := exists_common p.components base.components
  have hlength : (diff p base).components.length = apart p.components base.components := by
    rw [hdiff, List.length_append, List.length_replicate, Nat.add_comm]
    rfl
  generalize dropCommon p.components base.components = rest at hdiff hdown hup
  obtain ⟨down, up⟩ := rest
  refine ⟨isAbsolute_diff hlead, ⟨common, hcommon, ?_⟩, ?_, fun way _ hway => ?_⟩
  · rw [hdiff, hup, hdown, List.length_append, Nat.add_sub_cancel_left, List.drop_left]
  · have hnames : ∀ c ∈ down, c ∈ p.components := fun c hc => hdown ▸ List.mem_append_right _ hc
    rw [hdiff, hup, resolved_up, resolved_down (fun hc => hp.1 (hnames _ hc)) fun hc => hp.2 (hnames _ hc), hdown]
  -- the way from the base has as many steps as its ends are apart, and no way has fewer
  · have hle := apart_le p.components base.components way.components
    rw [hway, apart_self, Nat.zero_add] at hle
    exact hlength ▸ hle

/-- The way from one directory to another one beside it and below. -/
theorem diff_shortest_scoped :
    diff ⟨"/ws/packages/lib"⟩ ⟨"/ws/node_modules/@scope"⟩ = ⟨"../../packages/lib"⟩ ∧
    resolved (components ⟨"/ws/node_modules/@scope"⟩) (components ⟨"../../packages/lib"⟩) =
      components ⟨"/ws/packages/lib"⟩ ∧
    ∀ way : Path, way.isAbsolute = false → resolved (components ⟨"/ws/node_modules/@scope"⟩) way.components =
      components ⟨"/ws/packages/lib"⟩ → 4 ≤ way.components.length := by
  have hway : diff ⟨"/ws/packages/lib"⟩ ⟨"/ws/node_modules/@scope"⟩ = ⟨"../../packages/lib"⟩ := by decide +kernel
  obtain ⟨-, -, hleads, hshortest⟩ := @diff_shortest ⟨"/ws/packages/lib"⟩ ⟨"/ws/node_modules/@scope"⟩
    (by decide +kernel) (by decide +kernel) (by decide +kernel)
  rw [hway] at hleads hshortest
  exact ⟨hway, hleads, hshortest⟩

end Stowage.Path
