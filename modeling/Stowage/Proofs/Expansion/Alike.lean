/-
Expansions and the manifests that were read before. An expander asks for manifests that earlier steps may have read
already. As long as the disk stays as it is, nothing depends on that: steps that start from the same expansion fail
alike, or succeed and end in the same expansion, whatever was read before each of them.
-/
import Stowage.Proofs.Expansion.Failures

open Stowage.Path

namespace Stowage.Expand

open Manifests

variable {d : Disk} {known : Manifests} {α β γ δ : Type} {R : α → β → Prop} {S : γ → δ → Prop}

/-- Two steps have come to the same expansion, with related results. -/
structure Meets (d : Disk) (known : Manifests) (R : α → β → Prop) (end_ : Except Error α × Expansion.State)
    (end' : Except Error β × Expansion.State) : Prop where
  results : Matches R end_.1 end'.1
  expansions : end_.2.expansion = end'.2.expansion
  left : Proper d known end_.2
  right : Proper d known end'.2

/-- Two steps that start from the same expansion come to the same one, whatever was read before. -/
def Alike (d : Disk) (known : Manifests) (R : α → β → Prop) (x : Expand α) (y : Expand β) : Prop :=
  ∀ ⦃st st'⦄, Proper d known st → Proper d known st' → st.expansion = st'.expansion →
    Meets d known R (x.run.run st) (y.run.run st')

/-! ## Steps -/

theorem alike_pure {a : α} {b : β} (h : R a b) : Alike d known R (pure a) (pure b) :=
  fun _ _ hst hst' heq => ⟨.ok h, heq, hst, hst'⟩

theorem alike_throw (e : Error) : Alike d known R (throw e) (throw e) :=
  fun _ _ hst hst' heq => ⟨.error e, heq, hst, hst'⟩

theorem alike_get : Alike d known (fun st st' => st.expansion = st'.expansion) get get :=
  fun _ _ hst hst' heq => ⟨.ok heq, heq, hst, hst'⟩

theorem alike_ask {q : Query α} {q' : Query β} (h : Agree d known R q q') : Alike d known R (ask q) (ask q') :=
  fun _ _ hst hst' heq => ⟨h.answers hst.manifests hst'.manifests, heq, ⟨h.left hst.manifests, hst.plain⟩,
    ⟨h.right hst'.manifests, hst'.plain⟩⟩

theorem alike_counted {root : Path} (hroot : root.IsPlain) :
    Alike d known Eq (change fun x => counted x root) (change fun x => counted x root) :=
  fun _ _ hst hst' heq => ⟨.ok rfl, congrArg (counted · root) heq, hst.of_visit hst.manifests hroot rfl,
    hst'.of_visit hst'.manifests hroot rfl⟩

theorem alike_warn (message : String) : Alike d known Eq (warn message) (warn message) :=
  fun _ _ hst hst' heq => ⟨.ok rfl, congrArg (fun x => { x with warnings := x.warnings ++ [message] }) heq,
    ⟨hst.manifests, hst.plain⟩, ⟨hst'.manifests, hst'.plain⟩⟩

theorem Regular.selfAlike {x : Expand α} (hx : Regular d known x) : Alike d known Eq x x := by
  intro st st' hst hst' heq
  exact ⟨matches_eq.2 (hx.same hst.manifests hst'.manifests), hx.alike hst.manifests hst'.manifests heq,
    ⟨hx.left hst.manifests, by rw [hx.visited]; exact hst.plain⟩,
    ⟨hx.left hst'.manifests, by rw [hx.visited]; exact hst'.plain⟩⟩

theorem alike_bind {x : Expand α} {y : Expand β} {k : α → Expand γ} {l : β → Expand δ} (h : Alike d known R x y)
    (hk : ∀ a b, R a b → Alike d known S (k a) (l b)) : Alike d known S (x >>= k) (y >>= l) := by
  intro st st' hst hst' heq
  have hmeets := h hst hst' heq
  rw [run_bind, run_bind]
  rcases hx : x.run.run st with ⟨r, st₁⟩
  rcases hy : y.run.run st' with ⟨r', st₁'⟩
  rw [hx, hy] at hmeets
  obtain ⟨hresults, hexpansions, hleft, hright⟩ := hmeets
  obtain ⟨a, b, rfl, rfl, hab⟩ | ⟨e, rfl, rfl⟩ := hresults.cases
  · exact hk a b hab hleft hright hexpansions
  · exact ⟨.error e, hexpansions, hleft, hright⟩

theorem alike_forM {f g : α → Expand Unit} {l : List α} (h : ∀ a ∈ l, Alike d known Eq (f a) (g a)) :
    Alike d known Eq (l.forM f) (l.forM g) := by
  induction l with
  | nil => exact alike_pure rfl
  | cons a l ih =>
    exact alike_bind (h a (List.mem_cons_self ..)) fun _ _ _ => ih fun b hb => h b (List.mem_cons_of_mem _ hb)

/-! ## Calls -/

section
variable {project : Project} {settings : ExpansionSettings} {base : Path} (hs : Fixed d known project.resolver)
include hs

theorem alike_visit (from_ : Path) {root : Path} (hroot : root.IsPlain) (name : String) :
    Alike d known (fun m m' => ∃ p, m' = { m with path := p }) (visit project d from_ root name)
      (visit project d from_ root name) := by
  refine alike_bind (alike_counted hroot) fun _ _ _ => alike_bind (alike_ask (agree_require (.inl hroot))) ?_
  rintro m _ ⟨p, rfl⟩
  refine alike_bind (regular_addListed hs root m).selfAlike fun _ _ _ => ?_
  exact alike_bind (regular_addPlace name from_).selfAlike fun _ _ _ => alike_pure ⟨p, rfl⟩

/-- The modules that need another one have the same root, and it may be missing for both or for neither. -/
structure SameNeed (settings : ExpansionSettings) (needing needing' : Option Needing) : Prop where
  root : needing.map (·.root) = needing'.map (·.root)
  mayMiss : ∀ name, mayMiss settings name (needing.map (·.manifest)) = mayMiss settings name (needing'.map (·.manifest))

omit hs in
theorem alike_passOver {needing needing' : Option Needing} (h : SameNeed settings needing needing') (name : String)
    (parents : List String) (e : Error) :
    Alike d known Eq (passOver settings name needing parents e) (passOver settings name needing' parents e) := by
  unfold passOver
  rw [h.mayMiss]
  split
  · split
    · exact alike_warn _
    · exact alike_throw _
  · exact alike_throw e

theorem alike_module (levels : Nat) {name : String} {needing needing' : Option Needing}
    (h : SameNeed settings needing needing') (parents : List String) :
    Alike d known Eq (module project settings d (throw (.file .other)) base levels name needing parents)
      (module project settings d (throw (.file .other)) base levels name needing' parents) := by
  induction levels generalizing name needing needing' parents with
  | zero => exact alike_throw _
  | succ levels ih =>
    unfold module
    split
    · exact alike_pure rfl
    rw [h.root]
    refine alike_bind (alike_ask (agree_outcome (Project.settled_packageRoot hs name base _))) fun r r' hr => ?_
    obtain ⟨a, _, rfl, rfl, rfl, hplain⟩ | ⟨e, rfl, rfl⟩ := hr.cases
    · rcases a with n | root
      · exact alike_pure rfl
      refine alike_bind alike_get fun st st' heq => ?_
      rw [heq]
      split
      · exact alike_pure rfl
      refine alike_bind (alike_visit hs _ (hplain root rfl) name) ?_
      rintro m _ ⟨p, rfl⟩
      have hsame : SameNeed settings (some ⟨root, m⟩) (some ⟨root, { m with path := p }⟩) := ⟨rfl, fun _ => rfl⟩
      exact alike_forM fun dependency _ => ih hsame _
    · exact alike_passOver h name parents e

/-- Modules that are expanded one after another bring in the same whatever manifests were read before. -/
theorem alike_expandWithin (levels : Nat) (requests : List (String × List String)) :
    Alike d known Eq (expandWithin project settings d (throw (.file .other)) levels base requests)
      (expandWithin project settings d (throw (.file .other)) levels base requests) :=
  alike_forM fun r _ => alike_module hs levels ⟨rfl, fun _ => rfl⟩ r.2

theorem alike_expandAll (requests : List (String × List String)) :
    Alike d known Eq (expandAll project settings d base requests) (expandAll project settings d base requests) :=
  alike_expandWithin hs _ requests

end

/-! ## Going on -/

/-- What comes of a step is the same when it is taken again with other manifests read. -/
theorem Alike.gives {x : Expand α} {st st₁ st' : Expansion.State} {a : α} (h : Alike d known Eq x x)
    (hst : Proper d known st) (hst' : Proper d known st') (heq : st.expansion = st'.expansion) (hx : Gives x st a st₁) :
    ∃ st₁', Gives x st' a st₁' ∧ st₁'.expansion = st₁.expansion ∧ Proper d known st₁' := by
  have hmeets := h hst hst' heq
  unfold Gives at hx ⊢
  rw [hx] at hmeets
  obtain ⟨hresults, hexpansions, -, hright⟩ := hmeets
  rcases hy : x.run.run st' with ⟨r, st₁'⟩
  rw [hy] at hresults hexpansions hright
  obtain rfl := matches_eq.1 hresults
  exact ⟨st₁', rfl, hexpansions.symm, hright⟩

section
variable {project : Project} {settings : ExpansionSettings} {base : Path} (stop : Expand Unit) (levels : Nat)
  {name : String} (needing : Option Needing) (parents : List String) {st : Expansion.State} {x : Expansion}
  (hs : Fixed d known project.resolver) (hst : Proper d known st) (hx : st.expansion = x)
  (hin : name ∉ settings.exclude)
include hs hst hx hin

section
variable {n : String} {p : Path}
  (h : (project.packageRoot d name base (needing.map (·.root))).answer known = .error (.moduleNotFound n p))
include h

theorem run_module_of_missing : ∃ ms, Proper d known ⟨ms, x⟩ ∧
    (module project settings d stop base (levels + 1) name needing parents).run.run st =
      (passOver settings name needing parents (.moduleNotFound n p)).run.run ⟨ms, x⟩ := by
  subst hx
  have he := (Project.settled_packageRoot hs name base (needing.map (·.root))).steady.left hst.manifests
  refine ⟨_, ⟨he, hst.plain⟩, ?_⟩
  rw [run_module_succ hs stop levels parents hst hin]
  dsimp only
  rw [h]
  rfl

/-- A module that is missing and may be is passed over with a warning. -/
theorem gives_module_of_missing (hmay : mayMiss settings name (needing.map (·.manifest)) = true) :
    ∃ st', Proper d known st' ∧
      st'.expansion = { x with warnings := x.warnings ++ ["skip missing module " ++ route parents name] } ∧
      Gives (module project settings d stop base (levels + 1) name needing parents) st ⟨⟩ st' := by
  obtain ⟨ms, hms, hrun⟩ := run_module_of_missing stop levels needing parents hs hst hx hin h
  unfold passOver at hrun
  rw [if_pos (show (Error.moduleNotFound n p).isMissing = true from rfl), if_pos hmay] at hrun
  exact ⟨⟨ms, { x with warnings := x.warnings ++ ["skip missing module " ++ route parents name] }⟩,
    ⟨hms.manifests, hms.plain⟩, rfl, hrun⟩

/-- A module that is missing and must not be lets the call fail. -/
theorem module_fails_of_missing (hmay : ¬ mayMiss settings name (needing.map (·.manifest)) = true) :
    ∃ ms, (module project settings d stop base (levels + 1) name needing parents).run.run st =
      (.error (.missingDependency name (route parents name)), ⟨ms, x⟩) := by
  obtain ⟨ms, -, hrun⟩ := run_module_of_missing stop levels needing parents hs hst hx hin h
  unfold passOver at hrun
  rw [if_pos (show (Error.moduleNotFound n p).isMissing = true from rfl), if_neg hmay] at hrun
  exact ⟨ms, hrun⟩

end

section
variable {root : Path}
  (h : (project.packageRoot d name base (needing.map (·.root))).answer known = .ok (.directory root))
include h

/-- A module whose root was visited brings in nothing more. -/
theorem gives_module_of_seen (hseen : (x.visited.any fun r => r.same root) = true) :
    ∃ st', Proper d known st' ∧ st'.expansion = x ∧
      Gives (module project settings d stop base (levels + 1) name needing parents) st ⟨⟩ st' := by
  subst hx
  have he := (Project.settled_packageRoot hs name base (needing.map (·.root))).steady.left hst.manifests
  refine ⟨⟨_, st.expansion⟩, ⟨he, hst.plain⟩, rfl, ?_⟩
  unfold Gives
  rw [run_module_succ hs stop levels parents hst hin]
  dsimp only
  rw [h]
  exact if_pos hseen

/-- A module whose root is new and can be visited goes on with what its manifest depends on. -/
theorem run_module_of_visit (hnew : (x.visited.any fun r => r.same root) = false) {m : Manifest}
    {st₀ : Expansion.State}
    (hvisit : Gives (visit project d ((needing.map (·.root)).getD base) root name) ⟨known, x⟩ m st₀) :
    ∃ p st', Proper d known st' ∧ st'.expansion = st₀.expansion ∧
      (module project settings d stop base (levels + 1) name needing parents).run.run st =
        (m.dependedOn.forM fun dependency => module project settings d stop base levels dependency
          (some ⟨root, { m with path := p }⟩) (parents ++ [name])).run.run st' := by
  subst hx
  have hq := Project.settled_packageRoot hs name base (needing.map (·.root))
  have hagain : Proper d known ⟨known, st.expansion⟩ := ⟨extends_refl known, hst.plain⟩
  have hst₁ : Proper d known ⟨(project.packageRoot d name base (needing.map (·.root))).after st.manifests,
    st.expansion⟩ := ⟨hq.steady.left hst.manifests, hst.plain⟩
  have hmeets := alike_visit hs ((needing.map (·.root)).getD base) (hq.holds h root rfl) name hagain hst₁ rfl
  unfold Gives at hvisit
  rw [hvisit] at hmeets
  obtain ⟨hresults, hexpansions, -, hright⟩ := hmeets
  rcases hr : (visit project d ((needing.map (·.root)).getD base) root name).run.run
    ⟨(project.packageRoot d name base (needing.map (·.root))).after st.manifests, st.expansion⟩ with ⟨r, st'⟩
  rw [hr] at hresults hexpansions hright
  obtain ⟨_, _, hm, rfl, p, rfl⟩ | ⟨e, he, -⟩ := hresults.cases
  · cases hm
    refine ⟨p, st', hright, hexpansions.symm, ?_⟩
    rw [run_module_succ hs stop levels parents hst hin]
    dsimp only
    rw [h]
    dsimp only
    rw [if_neg (by rw [hnew]; exact Bool.false_ne_true), run_bind, hr]
    rfl
  · cases he

end

end

/-- Some modules after others bring in what they bring in on top of these. -/
theorem shown_expandAll_append {project : Project} {settings : ExpansionSettings} {base : Path}
    (hs : Fixed d known project.resolver) {before after : List (String × List String)} {x y : Expansion}
    (hx : ∀ root ∈ x.visited, root.IsPlain) {g : Expansion → β} {b : β}
    (hbefore : shown (expandAll project settings d base before) ⟨known, x⟩ (fun _ st => st.expansion) = some y)
    (hafter : shown (expandAll project settings d base after) ⟨known, y⟩ (fun _ st => g st.expansion) = some b) :
    shown (expandAll project settings d base (before ++ after)) ⟨known, x⟩ (fun _ st => g st.expansion) = some b := by
  obtain ⟨_, st₁, h₁, rfl⟩ := exists_gives hbefore
  obtain ⟨_, st₂, h₂, rfl⟩ := exists_gives hafter
  have hproper : Proper d known ⟨known, x⟩ := ⟨extends_refl known, hx⟩
  have hsame : Alike d known Eq (expandAll project settings d base before) (expandAll project settings d base before) :=
    alike_expandAll hs before
  have hleft := (hsame hproper hproper rfl).left
  unfold Gives at h₁
  rw [h₁] at hleft
  have hagain : Proper d known ⟨known, st₁.expansion⟩ := ⟨extends_refl known, hleft.plain⟩
  obtain ⟨st₂', h₂', heq, -⟩ := (alike_expandAll hs after).gives hagain hleft rfl h₂
  have hall : Gives (expandAll project settings d base (before ++ after)) ⟨known, x⟩ _ st₂' :=
    (run_forM_append h₁ after).trans h₂'
  exact (shown_of_gives hall _).trans (congrArg (fun z => some (g z)) heq)

end Stowage.Expand
