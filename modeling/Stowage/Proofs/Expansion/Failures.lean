/-
Expanding after a failure. A root counts as visited before its files and dependencies are done, and a call that fails
leaves it so: from the root of the module that was asked for down to where it went wrong the roots are left open. Later
calls pass over them. A call that succeeds has done all that it came to, and an open root is where it may be wrong.
-/
import Stowage.Proofs.Expansion.Closure

open Stowage.Path

namespace Stowage.Expand

open Manifests

/-! ## Steps that read and add -/

/-- The expansion only grows. -/
structure Grown (x x' : Expansion) : Prop where
  visited : ∀ r ∈ x.visited, r ∈ x'.visited
  files : ∀ n ∈ x.files, n ∈ x'.files
  warnings : ∀ w ∈ x.warnings, w ∈ x'.warnings

theorem Grown.refl (x : Expansion) : Grown x x := ⟨fun _ h => h, fun _ h => h, fun _ h => h⟩

theorem Grown.trans {x x' x'' : Expansion} (h : Grown x x') (h' : Grown x' x'') : Grown x x'' :=
  ⟨fun r hr => h'.visited r (h.visited r hr), fun n hn => h'.files n (h.files n hn),
    fun w hw => h'.warnings w (h.warnings w hw)⟩

/-- The step ends the same way whatever was expanded before. It visits nothing, warns of nothing and only adds, and what
it adds does not depend on the manifests that were read before. -/
structure Regular (d : Disk) (known : Manifests) {α : Type} (x : Expand α) : Prop where
  same : ∀ {st st'}, Extends d known st.manifests → Extends d known st'.manifests →
    (x.run.run st).1 = (x.run.run st').1
  alike : ∀ {st st'}, Extends d known st.manifests → Extends d known st'.manifests →
    st.expansion = st'.expansion → (x.run.run st).2.expansion = (x.run.run st').2.expansion
  left : ∀ {st}, Extends d known st.manifests → Extends d known (x.run.run st).2.manifests
  visited : ∀ st, (x.run.run st).2.expansion.visited = st.expansion.visited
  warnings : ∀ st, (x.run.run st).2.expansion.warnings = st.expansion.warnings
  grown : ∀ st, Grown st.expansion (x.run.run st).2.expansion

section
variable {d : Disk} {known : Manifests} {α β : Type}

theorem regular_pure (a : α) : Regular d known (pure a : Expand α) :=
  ⟨fun _ _ => rfl, fun _ _ h => h, fun h => h, fun _ => rfl, fun _ => rfl, fun _ => .refl _⟩

theorem regular_ask {q : Query α} (hq : Steady d known q) : Regular d known (ask q) :=
  ⟨fun h h' => (hq.answer_eq h).trans (hq.answer_eq h').symm, fun _ _ h => h, fun h => hq.left h, fun _ => rfl,
    fun _ => rfl, fun _ => .refl _⟩

theorem regular_change {f : Expansion → Expansion} (hvisited : ∀ x, (f x).visited = x.visited)
    (hwarnings : ∀ x, (f x).warnings = x.warnings) (hgrown : ∀ x, Grown x (f x)) : Regular d known (change f) :=
  ⟨fun _ _ => rfl, fun _ _ h => congrArg f h, fun h => h, fun _ => hvisited _, fun _ => hwarnings _, fun _ => hgrown _⟩

theorem regular_bind {x : Expand α} {k : α → Expand β} (hx : Regular d known x)
    (hk : ∀ a, Regular d known (k a)) : Regular d known (x >>= k) := by
  refine ⟨fun {st st'} he he' => ?_, fun {st st'} he he' heq => ?_, fun {st} he => ?_, fun st => ?_, fun st => ?_,
    fun st => ?_⟩
  · have hsame := hx.same he he'
    have hleft := hx.left he
    have hleft' := hx.left he'
    rw [run_bind, run_bind]
    rcases hr : x.run.run st with ⟨r, st₁⟩
    rcases hr' : x.run.run st' with ⟨r', st₁'⟩
    rw [hr, hr'] at hsame
    rw [hr] at hleft
    rw [hr'] at hleft'
    obtain rfl : r = r' := hsame
    rcases r with e | a
    · rfl
    · exact (hk a).same hleft hleft'
  · have hsame := hx.same he he'
    have halike := hx.alike he he' heq
    have hleft := hx.left he
    have hleft' := hx.left he'
    rw [run_bind, run_bind]
    rcases hr : x.run.run st with ⟨r, st₁⟩
    rcases hr' : x.run.run st' with ⟨r', st₁'⟩
    rw [hr, hr'] at hsame halike
    rw [hr] at hleft
    rw [hr'] at hleft'
    obtain rfl : r = r' := hsame
    rcases r with e | a
    · exact halike
    · exact (hk a).alike hleft hleft' halike
  · have hleft := hx.left he
    rw [run_bind]
    rcases hr : x.run.run st with ⟨e | a, st₁⟩
    · rwa [hr] at hleft
    · rw [hr] at hleft
      exact (hk a).left hleft
  · have hvisited := hx.visited st
    rw [run_bind]
    rcases hr : x.run.run st with ⟨e | a, st₁⟩
    · rwa [hr] at hvisited
    · rw [hr] at hvisited
      exact ((hk a).visited st₁).trans hvisited
  · have hwarnings := hx.warnings st
    rw [run_bind]
    rcases hr : x.run.run st with ⟨e | a, st₁⟩
    · rwa [hr] at hwarnings
    · rw [hr] at hwarnings
      exact ((hk a).warnings st₁).trans hwarnings
  · have hgrown := hx.grown st
    rw [run_bind]
    rcases hr : x.run.run st with ⟨e | a, st₁⟩
    · rwa [hr] at hgrown
    · rw [hr] at hgrown
      exact hgrown.trans ((hk a).grown st₁)

theorem regular_forM {f : α → Expand Unit} (hf : ∀ a, Regular d known (f a)) (l : List α) :
    Regular d known (l.forM f) := by
  induction l with
  | nil => exact regular_pure _
  | cons a l ih => exact regular_bind (hf a) fun _ => ih

variable {project : Project}

theorem regular_addFile (path : Path) : Regular d known (addFile project path) :=
  regular_bind (regular_ask (steady_ofExcept _)) fun _ => regular_change (fun _ => rfl) (fun _ => rfl) fun _ =>
    ⟨fun _ h => h, fun _ h => Names.mem_insert.2 (.inr h), fun _ h => h⟩

theorem regular_addLink (path : Path) : Regular d known (addLink project path) :=
  regular_bind (regular_ask (steady_ofExcept _)) fun _ => regular_change (fun _ => rfl) (fun _ => rfl) fun _ =>
    ⟨fun _ h => h, fun _ h => h, fun _ h => h⟩

theorem regular_addAt (root : Path) (negated : List Glob.Pattern) (path : Path) :
    Regular d known (addAt project d root negated path) := by
  refine regular_bind (regular_ask (steady_ofDisk _)) fun entries => regular_forM (fun entry => ?_) _
  unfold addEntry
  split
  · exact regular_pure _
  · split
    · exact regular_addLink _
    · exact regular_addFile _
    · exact regular_pure _

theorem regular_addListed (hs : Fixed d known project.resolver) (root : Path) (m : Manifest) :
    Regular d known (addListed project d root m) := by
  refine regular_bind ?_ fun _ => regular_bind (regular_addFile _) fun _ =>
    regular_bind (regular_ask (steady_outcome (Project.settled_resolve hs _ _).steady)) fun outcome => ?_
  · unfold addAll
    split
    · exact regular_bind (regular_ask (steady_ofExcept _)) fun found =>
        regular_forM (fun path => regular_addAt root _ path) _
    · exact regular_addAt root [] root
  · split
    · split
      · exact regular_addFile _
      · exact regular_pure _
    · exact regular_pure _

theorem regular_addPlace (name : String) (base : Path) : Regular d known (addPlace project d name base) := by
  unfold addPlace
  split
  · split
    · exact regular_addLink _
    · exact regular_pure _
  · exact regular_pure _

end

/-! ## Visits that fail -/

section
variable (project : Project) (d : Disk) (known : Manifests)

/-- Visiting the root fails, whatever was expanded before. -/
def Unvisitable (from_ root : Path) (name : String) (e : Error) : Prop :=
  ∀ st, Extends d known st.manifests → ((visit project d from_ root name).run.run st).1 = .error e

variable {project d known} {from_ root : Path} {name : String}

/-- The manifest that a root has to have is read the same way whatever was read before. -/
theorem agree_require (hroot : Loadable d root) :
    Agree d known (fun m m' => ∃ p, m' = { m with path := p }) (require d root) (require d root) := by
  refine agree_bind (agree_load hroot) fun m m' h => ?_
  obtain ⟨rfl, rfl⟩ | ⟨x, p, rfl, rfl⟩ := h.cases
  · exact agree_throw _
  · exact agree_pure ⟨p, rfl⟩

/-- The expansion with one root more that counts as visited. -/
def counted (x : Expansion) (root : Path) : Expansion := { x with visited := x.visited ++ [root] }

theorem grown_counted (x : Expansion) (root : Path) : Grown x (counted x root) :=
  ⟨fun _ hr => List.mem_append_left _ hr, fun _ h => h, fun _ h => h⟩

theorem Adds.grown {x x' : Expansion} {F L : Path → Prop} (h : Adds project (counted x root) x' F L) :
    Grown x x' :=
  (grown_counted x root).trans
    ⟨fun _ hr => h.visited ▸ hr, fun n hn => (h.files n).2 (.inl hn), fun _ hw => h.warnings ▸ hw⟩

/-- What a visit adds for a manifest. -/
def fill (project : Project) (d : Disk) (from_ root : Path) (name : String) (m : Manifest) : Expand Unit := do
  addListed project d root m
  addPlace project d name from_

theorem regular_fill (hs : Fixed d known project.resolver) (m : Manifest) :
    Regular d known (fill project d from_ root name m) :=
  regular_bind (regular_addListed hs root m) fun _ => regular_addPlace name from_

theorem run_visit (st : Expansion.State) : (visit project d from_ root name).run.run st =
    match (require d root).answer st.manifests with
      | .ok m => (fill project d from_ root name m >>= fun _ => pure m).run.run
          ⟨(require d root).after st.manifests, counted st.expansion root⟩
      | .error e => (.error e, ⟨(require d root).after st.manifests, counted st.expansion root⟩) := by
  have heq : visit project d from_ root name = change (fun x => counted x root) >>= fun _ =>
      ask (require d root) >>= fun m => fill project d from_ root name m >>= fun _ => pure m := by
    unfold visit fill
    simp only [bind_assoc]
    rfl
  have hcount : (change fun x => counted x root).run.run st = (.ok (), ⟨st.manifests, counted st.expansion root⟩) :=
    rfl
  rw [heq, run_bind, hcount]
  dsimp only
  rw [run_bind, run_ask]
  rcases (require d root).answer st.manifests with e | m <;> rfl

/-- A visit that fails does so for every expansion. The root counts as visited all the same. -/
theorem visit_fails (hs : Fixed d known project.resolver) (hroot : root.IsPlain) {st st' : Expansion.State}
    {e : Error} (he : Extends d known st.manifests)
    (h : (visit project d from_ root name).run.run st = (.error e, st')) :
    Unvisitable project d known from_ root name e ∧ Extends d known st'.manifests ∧
      st'.expansion.visited = st.expansion.visited ++ [root] ∧ st'.expansion.warnings = st.expansion.warnings ∧
      Grown st.expansion st'.expansion := by
  have hrequire : Agree d known _ (require d root) (require d root) := agree_require (.inl hroot)
  have hleft : Extends d known (Expansion.State.mk ((require d root).after st.manifests)
    (counted st.expansion root)).manifests := hrequire.left he
  rw [run_visit] at h
  rcases hm : (require d root).answer st.manifests with e' | m
  · rw [hm] at h
    cases h
    refine ⟨fun st₁ he₁ => ?_, hleft, rfl, rfl, grown_counted _ _⟩
    rw [run_visit]
    obtain ⟨_, _, hm', -⟩ | ⟨_, hm', hm₁⟩ := (hrequire.answers he he₁).cases
    · rw [hm] at hm'
      cases hm'
    · rw [hm] at hm'
      cases hm'
      rw [hm₁]
  · rw [hm] at h
    dsimp only at h
    rw [run_bind] at h
    have hfill : Regular d known (fill project d from_ root name m) := regular_fill hs m
    have hkept := hfill.left hleft
    have hvisited := hfill.visited ⟨(require d root).after st.manifests, counted st.expansion root⟩
    have hwarnings := hfill.warnings ⟨(require d root).after st.manifests, counted st.expansion root⟩
    have hgrown := hfill.grown ⟨(require d root).after st.manifests, counted st.expansion root⟩
    rcases hr : (fill project d from_ root name m).run.run
      ⟨(require d root).after st.manifests, counted st.expansion root⟩ with ⟨e' | _, st₁⟩
    · rw [hr] at h hkept hvisited hwarnings hgrown
      cases h
      refine ⟨fun st₂ he₂ => ?_, hkept, hvisited, hwarnings, (grown_counted _ _).trans hgrown⟩
      rw [run_visit]
      obtain ⟨_, _, hm', hm₂, p, rfl⟩ | ⟨_, hm', -⟩ := (hrequire.answers he he₂).cases
      · rw [hm] at hm'
        cases hm'
        rw [hm₂]
        dsimp only
        have hleft₂ : Extends d known (Expansion.State.mk ((require d root).after st₂.manifests)
          (counted st₂.expansion root)).manifests := hrequire.left he₂
        have hsame := hfill.same hleft hleft₂
        -- what is added does not depend on where the manifest was read
        rw [show fill project d from_ root name { m with path := p } = fill project d from_ root name m from rfl,
          run_bind]
        rcases hr₂ : (fill project d from_ root name m).run.run
          ⟨(require d root).after st₂.manifests, counted st₂.expansion root⟩ with ⟨r, st₃⟩
        rw [hr, hr₂] at hsame
        cases hsame
        rfl
      · rw [hm] at hm'
        cases hm'
    · rw [hr] at h
      cases h

end

/-! ## Calls that fail -/

section
variable (project : Project) (settings : ExpansionSettings) (d : Disk) (known : Manifests) (base : Path)

/-- The error for a module whose root cannot be told. -/
def reported (name : String) (parents : List String) (e : Error) : Error :=
  if e.isMissing then .missingDependency name (route parents name) else e

/-- Why the module `name` cannot be expanded as seen from `base`, and the roots on the way to where it goes wrong. -/
inductive Breaks : String → Option Path → List String → Error → List Path → Prop
  | unresolved {name : String} {needing : Option Path} {parents : List String} {e : Error}
      (hx : name ∉ settings.exclude)
      (h : (project.packageRoot d name base needing).answer known = .error e)
      (hm : e.isMissing = true → ¬ MayMiss settings d known name needing) :
      Breaks name needing parents (reported name parents e) []
  | unvisitable {name : String} {needing : Option Path} {parents : List String} {e : Error} {root : Path}
      (h : LeadsTo project settings d known base name needing root)
      (hv : Unvisitable project d known (needing.getD base) root name e) :
      Breaks name needing parents e [root]
  | needed {name dependency : String} {needing : Option Path} {parents : List String} {e : Error} {root : Path}
      {chain : List Path} (h : LeadsTo project settings d known base name needing root)
      (hn : Needs d known root dependency)
      (hb : Breaks dependency (some root) (parents ++ [name]) e chain) :
      Breaks name needing parents e (root :: chain)

/-- The root is visited, its files are there, and all that it needs is dealt with. -/
structure Finished (x : Expansion) (root : Path) : Prop where
  visited : root ∈ x.visited
  described : ∃ m, manifestAt d known root = .ok (some m)
  files : ∀ n, HoldsName project d known root n → n ∈ x.files
  needed : ∀ name, Needs d known root name → Dealt project settings d known base x name (some root)

/-- A call goes on from `x` to `x'`, deals with its module and finishes what it visits. -/
structure Completes (name : String) (x x' : Expansion) : Prop where
  grown : Grown x x'
  dealt : Dealt project settings d known base x' name none
  finished : ∀ root ∈ x'.visited, root ∈ x.visited ∨ Finished project settings d known base x' root

/-- A call goes on from `x` to `x'` and fails with `e`. It leaves the roots of the chain open and finishes the others
that it visits. -/
structure BreaksOff (name : String) (needing : Option Path) (parents : List String) (e : Error)
    (chain : List Path) (x x' : Expansion) : Prop where
  grown : Grown x x'
  breaks : Breaks project settings d known base name needing parents e chain
  started : ∀ root ∈ chain, root ∈ x'.visited ∧ root ∉ x.visited
  finished : ∀ root ∈ x'.visited, root ∈ x.visited ∨ root ∈ chain ∨
    Finished project settings d known base x' root

end

section
variable {project : Project} {settings : ExpansionSettings} {d : Disk} {known : Manifests} {base : Path}
  {x x' : Expansion} {root : Path}

/-- Something is left open unless the root of the module itself cannot be told. -/
theorem Breaks.ne_nil {name : String} {needing : Option Path} {parents : List String} {e : Error} {chain : List Path}
    {found : PackageRoot} (h : Breaks project settings d known base name needing parents e chain)
    (hfound : (project.packageRoot d name base needing).answer known = .ok found) : chain ≠ [] := by
  cases h with
  | unresolved _ h =>
    rw [hfound] at h
    cases h
  | unvisitable | needed => exact List.cons_ne_nil _ _

theorem Finished.mono (h : Finished project settings d known base x root) (hx : Grown x x') :
    Finished project settings d known base x' root :=
  ⟨hx.visited _ h.visited, h.described, fun n hn => hx.files n (h.files n hn),
    fun name hn => (h.needed name hn).mono hx.visited hx.warnings⟩

theorem Walked.grown {E : String → Option Path → Prop} {visits : List Visit}
    (h : Walked project settings d known base E x x' visits) : Grown x x' :=
  ⟨h.mem_visited, fun n hn => (h.files n).2 (.inl hn), h.mem_warnings⟩

/-- A call that succeeds finishes all roots that it visits. -/
theorem Walked.finished (hs : Fixed d known project.resolver) {E : String → Option Path → Prop} {visits : List Visit}
    (h : Walked project settings d known base E x x' visits) :
    ∀ root ∈ x'.visited, root ∈ x.visited ∨ Finished project settings d known base x' root := by
  intro root hroot
  rw [h.visited] at hroot
  rcases List.mem_append.1 hroot with hroot | hroot
  · exact .inl hroot
  · obtain ⟨v, hv, rfl⟩ := List.mem_map.1 hroot
    refine .inr ⟨?_, Project.manifest_of_packageRoot hs (h.leads v hv).2, fun n hn => ?_, h.dealt v hv⟩
    · rw [h.visited]
      exact List.mem_append_right _ (List.mem_map_of_mem hv)
    · exact (h.files n).2 (.inr ⟨v, hv, hn⟩)

section
variable {name : String} {needing : Option Path} {parents : List String} {e : Error}
  (hlead : LeadsTo project settings d known base name needing root) (hnew : root ∉ x.visited)
include hlead hnew

/-- A call breaks off with the visit of its root. -/
theorem breaksOff_visit (hv : Unvisitable project d known (needing.getD base) root name e)
    (hvisited : x'.visited = x.visited ++ [root]) (hgrown : Grown x x') :
    BreaksOff project settings d known base name needing parents e [root] x x' := by
  refine ⟨hgrown, .unvisitable hlead hv, fun r hr => ?_, fun r hr => ?_⟩
  · obtain rfl := List.mem_singleton.1 hr
    exact ⟨hvisited ▸ List.mem_append_right _ hr, hnew⟩
  · rw [hvisited] at hr
    exact (List.mem_append.1 hr).imp id .inl

/-- A call breaks off with a dependency, once its root is visited and other dependencies are dealt with. -/
theorem breaksOff_needed (hs : Fixed d known project.resolver) {x₁ x₂ : Expansion}
    {E : String → Option Path → Prop} {visits : List Visit} {dependency : String} {chain : List Path}
    (hn : Needs d known root dependency) (hvisited : x₁.visited = x.visited ++ [root]) (hgrown : Grown x x₁)
    (hw : Walked project settings d known base E x₁ x₂ visits)
    (h : BreaksOff project settings d known base dependency (some root) (parents ++ [name]) e chain x₂ x') :
    BreaksOff project settings d known base name needing parents e (root :: chain) x x' := by
  have hroot : root ∈ x₁.visited := hvisited ▸ List.mem_append_right _ (List.mem_singleton_self _)
  have hbefore := hgrown.trans hw.grown
  refine ⟨hbefore.trans h.grown, .needed hlead hn h.breaks, fun r hr => ?_, fun r hr => ?_⟩
  · rcases List.mem_cons.1 hr with rfl | hr
    · exact ⟨(hw.grown.trans h.grown).visited _ hroot, hnew⟩
    · obtain ⟨hin, hno⟩ := h.started r hr
      exact ⟨hin, fun hx => hno (hbefore.visited r hx)⟩
  · rcases h.finished r hr with hr | hr | hr
    · rcases hw.finished hs r hr with hr | hr
      · rw [hvisited] at hr
        rcases List.mem_append.1 hr with hr | hr
        · exact .inl hr
        · exact .inr (.inl (List.mem_singleton.1 hr ▸ List.mem_cons_self ..))
      · exact .inr (.inr (hr.mono h.grown))
    · exact .inr (.inl (List.mem_cons_of_mem _ hr))
    · exact .inr (.inr hr)

end

theorem passOver_fails {name : String} {needing : Option Needing} {parents : List String} {e e' : Error}
    {st st' : Expansion.State}
    (h : (passOver settings name needing parents e').run.run st = (.error e, st')) :
    st' = st ∧ e = reported name parents e' ∧
      (e'.isMissing = true → mayMiss settings name (needing.map (·.manifest)) = false) := by
  unfold passOver at h
  unfold reported
  split at h
  · rename_i hmiss
    rw [if_pos hmiss]
    split at h
    · cases h
    · rename_i hmay
      cases h
      exact ⟨rfl, rfl, fun _ => Bool.eq_false_of_not_eq_true hmay⟩
  · rename_i hmiss
    rw [if_neg hmiss]
    cases h
    exact ⟨rfl, rfl, fun hm => absurd hm hmiss⟩

/-- A call that fails breaks off: the roots from the module that was asked for down to where it goes wrong are left
open. -/
theorem module_fails (hs : Fixed d known project.resolver) {requested : List String} {roots : List Path}
    (hroots : ∀ r, Expandable project settings d known base requested r → r ∈ roots)
    {levels : Nat} {name : String} {needing : Option Needing} {parents : List String}
    {st st' : Expansion.State} {e : Error} (hst : Proper d known st) (hk : Known d known needing)
    (hedge : ComesUp project settings d known base requested name (needing.map (·.root)))
    (hl : unvisited roots st < levels)
    (h : (module project settings d (throw (.file .other)) base levels name needing parents).run.run st =
      (.error e, st')) :
    Proper d known st' ∧ ∃ chain, BreaksOff project settings d known base name (needing.map (·.root)) parents e
      chain st.expansion st'.expansion := by
  -- the bound is not what fails: every level visits a root more, and there are more levels than roots to visit
  induction levels generalizing name needing parents st st' e with
  | zero => omega
  | succ levels ih =>
    by_cases hex : name ∈ settings.exclude
    · rw [run_module_excluded st hex] at h
      cases h
    have hq := Project.settled_packageRoot hs name base (needing.map (·.root))
    have hst₁ : Proper d known ⟨(project.packageRoot d name base (needing.map (·.root))).after st.manifests,
        st.expansion⟩ := ⟨hq.steady.left hst.manifests, hst.plain⟩
    rw [run_module_succ hs _ levels parents hst hex] at h
    dsimp only at h
    rcases hr : (project.packageRoot d name base (needing.map (·.root))).answer known with e' | _ | root
    · -- the root cannot be told
      rw [hr] at h
      obtain ⟨rfl, rfl, hmay⟩ := passOver_fails h
      refine ⟨hst₁, [], .refl _, .unresolved hex hr (fun hm hmiss => ?_), fun _ h => absurd h List.not_mem_nil,
        fun _ h => .inl h⟩
      exact absurd ((mayMiss_of_known hk).2 hmiss) (by rw [hmay hm]; exact Bool.false_ne_true)
    · rw [hr] at h
      cases h
    · rw [hr] at h
      dsimp only at h
      have hlead : LeadsTo project settings d known base name (needing.map (·.root)) root := ⟨hex, hr⟩
      have hroot : root.IsPlain := hq.holds hr root rfl
      have hexp : Expandable project settings d known base requested root := hedge.expandable hlead
      split at h
      · cases h
      · rename_i hseen
        have hnew : root ∉ st.expansion.visited := not_mem_of_any_same hseen
        rw [run_bind] at h
        rcases hv : (visit project d ((needing.map (·.root)).getD base) root name).run.run
          ⟨(project.packageRoot d name base (needing.map (·.root))).after st.manifests, st.expansion⟩ with
          ⟨e' | m', st₂⟩
        · -- the visit fails
          rw [hv] at h
          cases h
          obtain ⟨hun, he, hvisited, -, hgrown⟩ := visit_fails hs hroot hst₁.manifests hv
          exact ⟨hst.of_visit he hroot hvisited, [root], breaksOff_visit hlead hnew hun hvisited hgrown⟩
        · rw [hv] at h
          obtain ⟨m, q, hm, rfl, he₂, hadds⟩ := visit_ok hs hroot hst₁.manifests hv
          have hst₂ := hst.of_visit he₂ hroot hadds.visited
          have hgrown : Grown st.expansion st₂.expansion := Adds.grown hadds
          have hk' : Known d known (some ⟨root, { m with path := q }⟩) := known_found hm q
          -- one of the dependencies fails, once those before it are dealt with
          obtain ⟨before, dependency, after, st₃, hsplit, hbefore, hfails⟩ := forM_fails h
          obtain ⟨hst₃, ⟨visits, hw⟩, -⟩ :=
            walked_forM (fun dep _ => deals_module hs levels (parents ++ [name]) hk') hst₂ hbefore
          have hdep : dependency ∈ m.dependedOn := by
            show dependency ∈ Manifest.dependedOn { m with path := q }
            rw [hsplit]
            simp
          have hlt : unvisited roots st₃ < levels := by
            have h₁ : unvisited roots st₂ < unvisited roots st :=
              unvisited_lt_of_visit (hroots root hexp) hseen hadds.visited
            have h₂ : unvisited roots st₃ ≤ unvisited roots st₂ := unvisited_mono hw.mem_visited
            omega
          obtain ⟨hst', chain, hbreaks⟩ := ih hst₃ hk' (.needed hexp ⟨m, hm, hdep⟩) hlt hfails
          exact ⟨hst', root :: chain, breaksOff_needed hlead hnew hs ⟨m, hm, hdep⟩ hadds.visited hgrown hw hbreaks⟩

end

end Stowage.Expand
