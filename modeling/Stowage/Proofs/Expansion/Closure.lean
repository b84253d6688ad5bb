/-
An expansion visits exactly the module roots that can be come to from what is asked for, each once, and
holds exactly the files of these roots; whatever else a visited root depends on is left out, part of the
runtime, or missing with a warning. The recursion comes to its end on every finite set of roots.

What a call did is told by its visits in order: every visit but the first comes from an earlier one, and
all that the visited roots depend on is dealt with once the call is over. The measure of the recursion is
the number of roots that are not visited yet.
-/
import Stowage.Proofs.Expansion.Listed

open Stowage.Path

namespace Stowage.Expand

open Manifests

variable (project : Project) (settings : ExpansionSettings) (d : Disk) (known : Manifests) (base : Path)

/-! ## What is expanded -/

/-- The manifest in `root` declares a dependency. -/
def Needs (root : Path) (name : String) : Prop :=
  ∃ m, manifestAt d known root = .ok (some m) ∧ name ∈ m.dependedOn

/-- The module `name`, needed by the module in `needing` or asked for, is found in `root`. -/
def LeadsTo (name : String) (needing : Option Path) (root : Path) : Prop :=
  name ∉ settings.exclude ∧
    (project.packageRoot d name base needing).answer known = .ok (.directory root)

/-- The least set of roots that holds those of the modules asked for and is closed under the dependencies
that can be found. -/
inductive Expandable (requested : List String) : Path → Prop
  | requested {name : String} {root : Path} (hr : name ∈ requested)
      (h : LeadsTo project settings d known base name none root) : Expandable requested root
  | needed {needing root : Path} {name : String} (hr : Expandable requested needing)
      (hn : Needs d known needing name)
      (h : LeadsTo project settings d known base name (some needing) root) : Expandable requested root

/-- The root of a module holds a file called `n`. -/
def HoldsName (root : Path) (n : String) : Prop :=
  ∃ m path, manifestAt d known root = .ok (some m) ∧ Holds project d known root m path ∧
    project.relative path = .ok n

/-- The manifest of a root lists a link called `n`. -/
def ListsLink (root : Path) (n : String) : Prop :=
  ∃ m path, manifestAt d known root = .ok (some m) ∧ Lists d root m .link path ∧
    project.relative path = .ok n

/-- The way on which a module root was come to first. -/
structure Visit where
  root : Path
  name : String
  needing : Option Path

/-- The place called `n`, where the module of a visit is installed for the one that needs it, is a
link. -/
def Placed (v : Visit) (n : String) : Prop :=
  ∃ place, IsPlace d v.name (v.needing.getD base) place ∧ project.relative place = .ok n

/-- A module may be missing for the module in `needing`. -/
def MayMiss (name : String) : Option Path → Prop
  | none => mayMiss settings name none = true
  | some root => ∃ m, manifestAt d known root = .ok (some m) ∧ mayMiss settings name (some m) = true

/-- What became of a module that is asked for or needed. -/
inductive Dealt (x : Expansion) (name : String) (needing : Option Path) : Prop
  | excluded (h : name ∈ settings.exclude)
  | builtin {n : String}
      (h : (project.packageRoot d name base needing).answer known = .ok (.builtin n))
  | visited {root : Path} (h : LeadsTo project settings d known base name needing root)
      (hv : root ∈ x.visited)
  | missing {e : Error} {way : List String}
      (h : (project.packageRoot d name base needing).answer known = .error e)
      (he : e.isMissing = true) (hm : MayMiss settings d known name needing)
      (hw : "skip missing module " ++ route way name ∈ x.warnings)

/-- An expansion holds exactly what the modules asked for bring in. -/
structure Exact (requested : List String) (x : Expansion) : Prop where
  visited : ∀ root, root ∈ x.visited ↔ Expandable project settings d known base requested root
  nodup : x.visited.Nodup
  files : ∀ n, n ∈ x.files ↔ ∃ root, Expandable project settings d known base requested root ∧
    HoldsName project d known root n
  /-- What is asked for or needed by a visited root is dealt with. -/
  asked : ∀ name ∈ requested, Dealt project settings d known base x name none
  needed : ∀ root ∈ x.visited, ∀ name, Needs d known root name →
    Dealt project settings d known base x name (some root)

/-! ## What a call does -/

/-- An expansion goes on from `x` to `x'` by some visits. Where a visit does not come from an earlier one,
it comes from outside, as `E` says. -/
structure Walked (E : String → Option Path → Prop) (x x' : Expansion) (visits : List Visit) : Prop where
  visited : x'.visited = x.visited ++ visits.map (·.root)
  nodup : x.visited.Nodup → x'.visited.Nodup
  warnings : ∃ ws, x'.warnings = x.warnings ++ ws
  files : ∀ n, n ∈ x'.files ↔ n ∈ x.files ∨ ∃ v ∈ visits, HoldsName project d known v.root n
  extras : ∀ n, n ∈ x'.extras ↔ n ∈ x.extras ∨
    ∃ v ∈ visits, ListsLink project d known v.root n ∨ Placed project d base v n
  /-- What a visited root brings in has a name. -/
  named : ∀ v ∈ visits, ∀ m path, manifestAt d known v.root = .ok (some m) →
    Holds project d known v.root m path ∨ Lists d v.root m .link path → ∃ n, project.relative path = .ok n
  leads : ∀ v ∈ visits, LeadsTo project settings d known base v.name v.needing v.root
  sourced : ∀ before v after, visits = before ++ v :: after →
    E v.name v.needing ∨ ∃ u ∈ before, v.needing = some u.root ∧ Needs d known u.root v.name
  dealt : ∀ v ∈ visits, ∀ name, Needs d known v.root name →
    Dealt project settings d known base x' name (some v.root)

variable {project settings d known base}
variable {E E' : String → Option Path → Prop} {x x' x'' : Expansion} {visits visits' : List Visit}

theorem Dealt.mono {name : String} {needing : Option Path}
    (h : Dealt project settings d known base x name needing)
    (hv : ∀ root ∈ x.visited, root ∈ x'.visited) (hw : ∀ w ∈ x.warnings, w ∈ x'.warnings) :
    Dealt project settings d known base x' name needing := by
  cases h with
  | excluded h => exact .excluded h
  | builtin h => exact .builtin h
  | visited h hr => exact .visited h (hv _ hr)
  | missing h he hm hmem => exact .missing h he hm (hw _ hmem)

theorem Walked.mem_visited (h : Walked project settings d known base E x x' visits) :
    ∀ root ∈ x.visited, root ∈ x'.visited := fun root hr => by
  rw [h.visited]; exact List.mem_append_left _ hr

theorem Walked.mem_warnings (h : Walked project settings d known base E x x' visits) :
    ∀ w ∈ x.warnings, w ∈ x'.warnings := fun w hw => by
  obtain ⟨ws, he⟩ := h.warnings
  rw [he]
  exact List.mem_append_left _ hw

theorem walked_of_eq (hv : x'.visited = x.visited) (hf : x'.files = x.files)
    (he : x'.extras = x.extras) (hw : ∃ ws, x'.warnings = x.warnings ++ ws) :
    Walked project settings d known base E x x' [] :=
  ⟨by simp [hv], fun h => hv ▸ h, hw, by simp [hf], by simp [he], fun _ h => (nomatch h), fun _ h => (nomatch h),
    fun before v after h => by simp at h, fun _ h => (nomatch h)⟩

theorem walked_refl (x : Expansion) : Walked project settings d known base E x x [] :=
  walked_of_eq rfl rfl rfl ⟨[], by simp⟩

/-- One call after another. -/
theorem Walked.trans (h : Walked project settings d known base E x x' visits)
    (h' : Walked project settings d known base E' x' x'' visits') :
    Walked project settings d known base (fun name needing => E name needing ∨ E' name needing)
      x x'' (visits ++ visits') := by
  obtain ⟨ws, hws⟩ := h.warnings
  obtain ⟨ws', hws'⟩ := h'.warnings
  refine ⟨?_, fun hn => h'.nodup (h.nodup hn), ⟨ws ++ ws', ?_⟩, fun n => ?_, fun n => ?_,
    fun v hv => ?_, fun v hv => ?_, fun before v after hsplit => ?_, fun v hv name hn => ?_⟩
  · rw [h'.visited, h.visited, List.map_append, List.append_assoc]
  · rw [hws', hws, List.append_assoc]
  · rw [h'.files, h.files]
    simp only [List.mem_append, or_and_right, exists_or, or_assoc]
  · rw [h'.extras, h.extras]
    simp only [List.mem_append, or_and_right, exists_or, or_assoc]
  · exact (List.mem_append.1 hv).elim (h.named v) (h'.named v)
  · exact (List.mem_append.1 hv).elim (h.leads v) (h'.leads v)
  · rcases List.append_eq_append_iff.1 hsplit with ⟨t, rfl, ht⟩ | ⟨t, rfl, ht⟩
    · rcases h'.sourced t v after ht with hE | ⟨u, hu, hrest⟩
      · exact .inl (.inr hE)
      · exact .inr ⟨u, List.mem_append_right _ hu, hrest⟩
    · rcases t with _ | ⟨w, t⟩
      · rcases h'.sourced [] v after (by simpa using ht.symm) with hE | ⟨u, hu, -⟩
        · exact .inl (.inr hE)
        · cases hu
      · cases ht
        rcases h.sourced before v t rfl with hE | hrest
        · exact .inl (.inl hE)
        · exact .inr hrest
  · rcases List.mem_append.1 hv with hv | hv
    · exact (h.dealt v hv name hn).mono h'.mem_visited h'.mem_warnings
    · exact h'.dealt v hv name hn

theorem Walked.congr (h : Walked project settings d known base E x x' visits)
    (hE : ∀ name needing, E name needing → E' name needing) :
    Walked project settings d known base E' x x' visits :=
  ⟨h.visited, h.nodup, h.warnings, h.files, h.extras, h.named, h.leads,
    fun before v after hs => (h.sourced before v after hs).imp (hE _ _) id, h.dealt⟩

/-! ## One module -/

theorem visit_ok (hs : Fixed d known project.resolver) {root from_ : Path} (hroot : root.IsPlain)
    {name : String} {st st' : Expansion.State} {m' : Manifest}
    (he : Extends d known st.manifests) (h : Gives (visit project d from_ root name) st m' st') :
    ∃ m q, manifestAt d known root = .ok (some m) ∧ m' = { m with path := q } ∧
      Extends d known st'.manifests ∧
      Adds project { st.expansion with visited := st.expansion.visited ++ [root] } st'.expansion
        (Holds project d known root m)
        (fun path => Lists d root m .link path ∨ IsPlace d name from_ path) := by
  unfold visit at h
  obtain ⟨_, st₁, h₁, h⟩ := gives_bind.1 h
  obtain ⟨m₁, st₂, h₂, h⟩ := gives_bind.1 h
  obtain ⟨_, st₃, h₃, h⟩ := gives_bind.1 h
  obtain ⟨_, st₄, h₄, h⟩ := gives_bind.1 h
  obtain ⟨rfl, rfl⟩ := gives_pure.1 h
  rw [gives_change.1 h₁] at h₂
  obtain ⟨hm, rfl⟩ := gives_ask.1 h₂
  obtain ⟨⟨m, q, hfound, rfl⟩, he₂⟩ := require_ok he (.inl hroot) hm
  obtain ⟨he₃, hx₃⟩ := adding_addListed hs root _ _ _ st₃ he₂ h₃
  obtain ⟨he₄, hx₄⟩ := adding_addPlace name from_ _ _ _ he₃ h₄
  refine ⟨m, q, hfound, rfl, he₄, ?_⟩
  have hx := hx₃.trans hx₄
  have hF : (fun path => Holds project d known root { m with path := q } path ∨ NoPath path) =
      Holds project d known root m := by
    funext path
    simp only [or_false]
    refine propext ⟨?_, ?_⟩
    · rintro (h | _ | ⟨h, hin⟩)
      · exact .listed h
      · exact .manifest
      · exact .main h hin
    · rintro (h | _ | ⟨h, hin⟩)
      · exact .listed h
      · exact .manifest
      · exact .main h hin
  rw [hF] at hx
  exact hx

/-- The visit of a root as the only one. -/
theorem walked_visit {root : Path} {name : String} {needing : Option Path} {m : Manifest}
    (hm : manifestAt d known root = .ok (some m)) (hnew : root ∉ x.visited)
    (h : Adds project { x with visited := x.visited ++ [root] } x' (Holds project d known root m)
      (fun path => Lists d root m .link path ∨ IsPlace d name (needing.getD base) path)) :
    x'.visited = x.visited ++ [root] ∧ (x.visited.Nodup → x'.visited.Nodup) ∧
      x'.warnings = x.warnings ∧
      (∀ n, n ∈ x'.files ↔ n ∈ x.files ∨ HoldsName project d known root n) ∧
      ∀ n, n ∈ x'.extras ↔ n ∈ x.extras ∨
        ListsLink project d known root n ∨ Placed project d base ⟨root, name, needing⟩ n := by
  have hone : ∀ {m'}, manifestAt d known root = .ok (some m') ↔ m' = m := by
    intro m'
    rw [hm]
    simp [eq_comm]
  refine ⟨h.visited, fun hn => ?_, h.warnings, fun n => ?_, fun n => ?_⟩
  · rw [h.visited]
    refine List.nodup_append.2 ⟨hn, List.nodup_singleton _, fun a ha b hb hab => ?_⟩
    rw [List.mem_singleton] at hb
    exact hnew (hb ▸ hab ▸ ha)
  · rw [h.files]
    unfold HoldsName
    simp only [hone]
    constructor
    · rintro (hx | ⟨p, hp, hn⟩)
      · exact .inl hx
      · exact .inr ⟨m, p, rfl, hp, hn⟩
    · rintro (hx | ⟨_, p, rfl, hp, hn⟩)
      · exact .inl hx
      · exact .inr ⟨p, hp, hn⟩
  · rw [h.extras]
    unfold ListsLink Placed
    simp only [hone]
    constructor
    · rintro (hx | ⟨p, hp | hp, hn⟩)
      · exact .inl hx
      · exact .inr (.inl ⟨m, p, rfl, hp, hn⟩)
      · exact .inr (.inr ⟨p, hp, hn⟩)
    · rintro (hx | ⟨_, p, rfl, hp, hn⟩ | ⟨p, hp, hn⟩)
      · exact .inl hx
      · exact .inr ⟨p, .inl hp, hn⟩
      · exact .inr ⟨p, .inr hp, hn⟩

/-- The visit of a root, and then those of what it depends on. -/
theorem walked_root {root : Path} {name : String} {needing : Option Path} {m : Manifest}
    (hlead : LeadsTo project settings d known base name needing root)
    (hm : manifestAt d known root = .ok (some m)) (hnew : root ∉ x.visited)
    (h : Adds project { x with visited := x.visited ++ [root] } x' (Holds project d known root m)
      (fun path => Lists d root m .link path ∨ IsPlace d name (needing.getD base) path))
    (hw : Walked project settings d known base
      (fun n from_ => n ∈ m.dependedOn ∧ from_ = some root) x' x'' visits)
    (hdealt : ∀ n ∈ m.dependedOn, Dealt project settings d known base x'' n (some root)) :
    Walked project settings d known base (fun n from_ => n = name ∧ from_ = needing) x x''
      (⟨root, name, needing⟩ :: visits) := by
  obtain ⟨hv, hnd, hwarn, hf, he⟩ := walked_visit hm hnew h
  refine ⟨?_, fun hn => hw.nodup (hnd hn), ?_, fun n => ?_, fun n => ?_, fun v hv' => ?_, fun v hv' => ?_,
    fun before v after hsplit => ?_, fun v hv' n hn => ?_⟩
  · rw [hw.visited, hv, List.append_assoc]; rfl
  · obtain ⟨ws, hws⟩ := hw.warnings
    exact ⟨ws, hwarn ▸ hws⟩
  · rw [hw.files, hf, or_assoc]
    simp only [List.mem_cons, exists_eq_or_imp]
  · rw [hw.extras, he, or_assoc]
    simp only [List.mem_cons, exists_eq_or_imp]
  · rcases List.mem_cons.1 hv' with rfl | hv'
    · intro m' path hm' hpath
      rw [hm] at hm'
      cases hm'
      exact h.named path (hpath.imp_right .inl)
    · exact hw.named v hv'
  · rcases List.mem_cons.1 hv' with rfl | hv'
    · exact hlead
    · exact hw.leads v hv'
  · rcases before with _ | ⟨u, before⟩
    · cases hsplit
      exact .inl ⟨rfl, rfl⟩
    · cases hsplit
      rcases hw.sourced before v after rfl with ⟨hdep, hfrom⟩ | ⟨u, hu, hrest⟩
      · exact .inr ⟨_, List.mem_cons_self .., hfrom, m, hm, hdep⟩
      · exact .inr ⟨u, List.mem_cons_of_mem _ hu, hrest⟩
  · rcases List.mem_cons.1 hv' with rfl | hv'
    · obtain ⟨m', hm', hdep⟩ := hn
      rw [hm] at hm'
      cases hm'
      exact hdealt n hdep
    · exact hw.dealt v hv' n hn

/-- A state in which what was read is right and the roots that were visited are plain. -/
structure Proper (d : Disk) (known : Manifests) (st : Expansion.State) : Prop where
  manifests : Extends d known st.manifests
  plain : ∀ root ∈ st.expansion.visited, root.IsPlain

theorem Proper.of_visit {st st' : Expansion.State} {root : Path} (h : Proper d known st)
    (he : Extends d known st'.manifests) (hroot : root.IsPlain)
    (hvisited : st'.expansion.visited = st.expansion.visited ++ [root]) : Proper d known st' := by
  refine ⟨he, fun r hr => ?_⟩
  rw [hvisited] at hr
  rcases List.mem_append.1 hr with hr | hr
  · exact h.plain r hr
  · rw [List.mem_singleton.1 hr]
    exact hroot

theorem not_mem_of_any_same {visited : List Path} {root : Path}
    (h : ¬ (visited.any fun r => r.same root) = true) : root ∉ visited := fun hr =>
  h (List.any_eq_true.2 ⟨root, hr, same_refl root⟩)

/-- The step deals with one module, by visits from it. -/
def Deals (project : Project) (settings : ExpansionSettings) (d : Disk) (known : Manifests)
    (base : Path) (f : Expand Unit) (name : String) (needing : Option Path) : Prop :=
  ∀ st st', Proper d known st → Gives f st () st' → Proper d known st' ∧
    (∃ visits, Walked project settings d known base (fun n from_ => n = name ∧ from_ = needing)
      st.expansion st'.expansion visits) ∧
    Dealt project settings d known base st'.expansion name needing

/-- Calls in a row. -/
theorem walked_forM {α : Type} {f : α → Expand Unit} {l : List α} {st st' : Expansion.State}
    {name : α → String} {needing : Option Path}
    (hf : ∀ a ∈ l, Deals project settings d known base (f a) (name a) needing)
    (hst : Proper d known st) (h : Gives (l.forM f) st () st') :
    Proper d known st' ∧ (∃ visits, Walked project settings d known base
      (fun n from_ => n ∈ l.map name ∧ from_ = needing) st.expansion st'.expansion visits) ∧
    ∀ n ∈ l.map name, Dealt project settings d known base st'.expansion n needing := by
  induction l generalizing st with
  | nil =>
    obtain ⟨-, rfl⟩ := gives_pure.1 h
    exact ⟨hst, ⟨[], walked_refl _⟩, fun _ h => (nomatch h)⟩
  | cons a l ih =>
    obtain ⟨_, st₁, h₁, h⟩ := gives_bind.1 h
    obtain ⟨hst₁, ⟨visits, hw⟩, hd⟩ := hf a (List.mem_cons_self ..) st st₁ hst h₁
    obtain ⟨hst', ⟨visits', hw'⟩, hd'⟩ :=
      ih (fun b hb => hf b (List.mem_cons_of_mem _ hb)) hst₁ h
    refine ⟨hst', ⟨visits ++ visits', (hw.trans hw').congr ?_⟩, fun n hn => ?_⟩
    · rintro n from_ (⟨rfl, hE⟩ | ⟨hn, hE⟩)
      · exact ⟨List.mem_cons_self .., hE⟩
      · exact ⟨List.mem_cons_of_mem _ hn, hE⟩
    · rcases List.mem_cons.1 hn with rfl | hn
      · exact hd.mono hw'.mem_visited hw'.mem_warnings
      · exact hd' n hn

/-- The module that needs another one has the manifest that is found in its root. -/
def Known (d : Disk) (known : Manifests) (needing : Option Needing) : Prop :=
  ∀ x, needing = some x →
    ∃ m q, manifestAt d known x.root = .ok (some m) ∧ x.manifest = { m with path := q }

theorem known_found {root : Path} {m : Manifest} (hm : manifestAt d known root = .ok (some m)) (q : Path) :
    Known d known (some ⟨root, { m with path := q }⟩) := fun x hx => by
  cases hx
  exact ⟨m, q, hm, rfl⟩

theorem mayMiss_of_known {needing : Option Needing} (hk : Known d known needing) {name : String} :
    mayMiss settings name (needing.map (·.manifest)) = true ↔
      MayMiss settings d known name (needing.map (·.root)) := by
  rcases needing with _ | x
  · exact Iff.rfl
  · obtain ⟨m, q, hm, hx⟩ := hk x rfl
    simp only [Option.map_some, MayMiss, hm, hx]
    constructor
    · exact fun h => ⟨m, rfl, h⟩
    · rintro ⟨_, hm', h⟩
      cases hm'
      exact h

/-- What one level of a call does, once the root of the module is looked up. -/
theorem run_module_succ (hs : Fixed d known project.resolver) (stop : Expand Unit) (levels : Nat) {name : String}
    {needing : Option Needing} (parents : List String) {st : Expansion.State} (hst : Proper d known st)
    (hx : name ∉ settings.exclude) :
    (module project settings d stop base (levels + 1) name needing parents).run.run st =
      (let q := project.packageRoot d name base (needing.map (·.root))
      let st₁ : Expansion.State := ⟨q.after st.manifests, st.expansion⟩
      match q.answer known with
      | .error e => (passOver settings name needing parents e).run.run st₁
      | .ok (.builtin _) => (.ok (), st₁)
      | .ok (.directory root) =>
        if st.expansion.visited.any (·.same root) then (.ok (), st₁)
        else (visit project d ((needing.map (·.root)).getD base) root name >>= fun m =>
          m.dependedOn.forM fun dependency =>
            module project settings d stop base levels dependency (some ⟨root, m⟩) (parents ++ [name])).run.run st₁) := by
  have hq := Project.settled_packageRoot hs name base (needing.map (·.root))
  have hx' : ¬ settings.exclude.contains name = true := fun h => hx (List.contains_iff_mem.1 h)
  conv_lhs => unfold module
  rw [if_neg hx', run_bind, run_ask, Query.answer_outcome, Query.after_outcome, hq.steady.answer_eq hst.manifests]
  dsimp only
  rcases hr : (project.packageRoot d name base (needing.map (·.root))).answer known with e | _ | root
  · rw [hr]
  · rw [hr]
    rfl
  · rw [hr]
    dsimp only
    rw [run_bind]
    change (if (st.expansion.visited.any fun r => r.same root) = true then _ else _ : Expand Unit).run.run _ = _
    split <;> rfl

theorem run_module_excluded {stop : Expand Unit} {levels : Nat} {name : String} {needing : Option Needing}
    {parents : List String} (st : Expansion.State) (hx : name ∈ settings.exclude) :
    (module project settings d stop base (levels + 1) name needing parents).run.run st = (.ok (), st) := by
  unfold module
  rw [if_pos (List.contains_iff_mem.2 hx)]
  rfl

/-- A call that succeeds goes on by visits from what it was called for, and deals with it. -/
theorem deals_module (hs : Fixed d known project.resolver) (levels : Nat) {name : String}
    {needing : Option Needing} (parents : List String) (hk : Known d known needing) :
    Deals project settings d known base
      (module project settings d (throw (.file .other)) base levels name needing parents) name
      (needing.map (·.root)) := by
  induction levels generalizing name needing parents with
  | zero => exact fun st st' _ h => absurd h gives_throw
  | succ levels ih =>
    intro st st' hst h
    unfold Gives at h
    by_cases hex : name ∈ settings.exclude
    · rw [run_module_excluded st hex] at h
      cases h
      exact ⟨hst, ⟨[], walked_refl _⟩, .excluded hex⟩
    have hq := Project.settled_packageRoot hs name base (needing.map (·.root))
    have hst₁ : Proper d known ⟨(project.packageRoot d name base (needing.map (·.root))).after st.manifests,
        st.expansion⟩ := ⟨hq.steady.left hst.manifests, hst.plain⟩
    rw [run_module_succ hs _ levels parents hst hex] at h
    dsimp only at h
    rcases hr : (project.packageRoot d name base (needing.map (·.root))).answer known with e | n | root
    · rw [hr] at h
      dsimp only at h
      unfold passOver at h
      split at h
      · rename_i hmiss
        split at h
        · rename_i hmay
          rw [gives_change.1 h]
          have hwarn : ∀ ws, "skip missing module " ++ route parents name ∈
              ws ++ ["skip missing module " ++ route parents name] := fun ws =>
            List.mem_append_right _ (List.mem_singleton_self _)
          exact ⟨⟨hst₁.manifests, hst₁.plain⟩, ⟨[], walked_of_eq rfl rfl rfl ⟨_, rfl⟩⟩,
            .missing hr hmiss ((mayMiss_of_known hk).1 hmay) (hwarn _)⟩
        · exact absurd h gives_throw
      · exact absurd h gives_throw
    · rw [hr] at h
      cases h
      exact ⟨hst₁, ⟨[], walked_refl _⟩, .builtin hr⟩
    · rw [hr] at h
      dsimp only at h
      have hlead : LeadsTo project settings d known base name (needing.map (·.root)) root := ⟨hex, hr⟩
      have hroot : root.IsPlain := hq.holds hr root rfl
      split at h
      · -- plain roots that are the same path have the same spelling
        rename_i hseen
        cases h
        obtain ⟨r, hin, hsame⟩ := List.any_eq_true.1 hseen
        have := eq_of_same_of_isPlain (hst.plain r hin) hroot hsame
        exact ⟨hst₁, ⟨[], walked_refl _⟩, .visited hlead (this ▸ hin)⟩
      · rename_i hseen
        obtain ⟨m', st₂, h₂, h⟩ := gives_bind.1 h
        obtain ⟨m, q, hm, rfl, he₂, hadds⟩ := visit_ok hs hroot hst₁.manifests h₂
        have hst₂ : Proper d known st₂ := hst.of_visit he₂ hroot hadds.visited
        obtain ⟨hst', ⟨visits, hw⟩, hd⟩ :=
          walked_forM (fun dep _ => ih (parents ++ [name]) (known_found hm q)) hst₂ h
        rw [List.map_id'] at hd hw
        have hall := walked_root hlead hm (not_mem_of_any_same hseen) hadds hw hd
        refine ⟨hst', ⟨_, hall⟩, .visited hlead ?_⟩
        rw [hall.visited]
        simp

/-! ## Some modules -/

theorem proper_start (known : Manifests) : Proper d known ⟨known, .empty⟩ :=
  ⟨extends_refl known, fun _ h => nomatch h⟩

theorem walked_expandWithin (hs : Fixed d known project.resolver) {levels : Nat}
    {requests : List (String × List String)} {st st' : Expansion.State} (hst : Proper d known st)
    (h : Gives (expandWithin project settings d (throw (.file .other)) levels base requests)
      st () st') :
    Proper d known st' ∧ (∃ visits, Walked project settings d known base
      (fun n from_ => n ∈ requests.map Prod.fst ∧ from_ = none) st.expansion st'.expansion visits) ∧
    ∀ n ∈ requests.map Prod.fst, Dealt project settings d known base st'.expansion n none := by
  have hk : Known d known none := fun _ h => nomatch h
  exact walked_forM (fun r _ => deals_module hs levels r.2 hk) hst h

theorem Walked.expandable {requested : List String}
    (h : Walked project settings d known base (fun n from_ => n ∈ requested ∧ from_ = none)
      x x' visits) :
    ∀ v ∈ visits, Expandable project settings d known base requested v.root := by
  -- along the visits, each comes from an earlier one or from outside
  have key : ∀ before after, visits = before ++ after →
      ∀ v ∈ before, Expandable project settings d known base requested v.root := by
    intro before
    induction before using List.reverseRecOn with
    | nil => exact fun _ _ _ h => nomatch h
    | append_singleton before u ih =>
      intro after hsplit v hv
      rw [List.append_assoc] at hsplit
      have hbefore := ih _ hsplit
      rcases List.mem_append.1 hv with hv | hv
      · exact hbefore v hv
      · rw [List.mem_singleton] at hv
        subst hv
        have hlead := h.leads v (by rw [hsplit]; simp)
        rcases h.sourced before v after hsplit with ⟨hr, hfrom⟩ | ⟨w, hw, hfrom, hneeds⟩
        · rw [hfrom] at hlead
          exact .requested hr hlead
        · rw [hfrom] at hlead
          exact .needed (hbefore w hw) hneeds hlead
  exact key visits [] (by simp)

/-- What leads to a root and is dealt with leads to a visited root. -/
theorem Dealt.mem_visited {name : String} {needing : Option Path} {root : Path}
    (h : Dealt project settings d known base x name needing)
    (hlead : LeadsTo project settings d known base name needing root) : root ∈ x.visited := by
  have hroot := hlead.2
  cases h with
  | excluded h => exact absurd h hlead.1
  | builtin h => rw [hroot] at h; cases h
  | visited h hv =>
    have h := h.2
    rw [hroot] at h
    cases h
    exact hv
  | missing h => rw [hroot] at h; cases h

theorem Walked.exact {requested : List String}
    (h : Walked project settings d known base (fun n from_ => n ∈ requested ∧ from_ = none)
      .empty x visits)
    (hd : ∀ n ∈ requested, Dealt project settings d known base x n none) :
    Exact project settings d known base requested x := by
  have hvisited : x.visited = visits.map (·.root) := h.visited
  have hdealt : ∀ root ∈ x.visited, ∀ name, Needs d known root name →
      Dealt project settings d known base x name (some root) := by
    intro root hr name hn
    rw [hvisited] at hr
    obtain ⟨v, hv, rfl⟩ := List.mem_map.1 hr
    exact h.dealt v hv name hn
  have hmem : ∀ root, root ∈ x.visited ↔
      Expandable project settings d known base requested root := by
    intro root
    constructor
    · intro hr
      rw [hvisited] at hr
      obtain ⟨v, hv, rfl⟩ := List.mem_map.1 hr
      exact h.expandable v hv
    · intro hr
      induction hr with
      | requested hr hlead => exact (hd _ hr).mem_visited hlead
      | needed _ hn hlead ih => exact (hdealt _ ih _ hn).mem_visited hlead
  refine ⟨hmem, h.nodup List.nodup_nil, fun n => ?_, hd, hdealt⟩
  rw [h.files]
  constructor
  · rintro (hf | ⟨v, hv, hn⟩)
    · cases hf
    · exact ⟨v.root, h.expandable v hv, hn⟩
  · rintro ⟨root, hr, hn⟩
    have := (hmem root).2 hr
    rw [hvisited] at this
    obtain ⟨v, hv, rfl⟩ := List.mem_map.1 this
    exact .inr ⟨v, hv, hn⟩

/-! ## Coming to an end -/

/-- The number of roots that are not visited yet. -/
def unvisited (roots : List Path) (st : Expansion.State) : Nat :=
  (roots.filter fun r => !st.expansion.visited.any (·.same r)).length

section
variable {roots : List Path} {st st' : Expansion.State}
  (h : ∀ r ∈ st.expansion.visited, r ∈ st'.expansion.visited)
include h

theorem any_same_mono {root : Path} (hr : st.expansion.visited.any (·.same root) = true) :
    st'.expansion.visited.any (·.same root) = true := by
  obtain ⟨r, hr, hs⟩ := List.any_eq_true.1 hr
  exact List.any_eq_true.2 ⟨r, h r hr, hs⟩

theorem unvisited_mono : unvisited roots st' ≤ unvisited roots st := by
  unfold unvisited
  refine (List.monotone_filter_right roots fun r hr => ?_).length_le
  rw [Bool.not_eq_true'] at hr ⊢
  exact Bool.eq_false_of_not_eq_true fun hs => by
    rw [any_same_mono h hs] at hr
    cases hr

theorem unvisited_lt {root : Path} (hroot : root ∈ roots)
    (hnew : st.expansion.visited.any (·.same root) = false) (hin : root ∈ st'.expansion.visited) :
    unvisited roots st' < unvisited roots st := by
  have hcount : ∀ s : Expansion.State, unvisited roots s =
      roots.countP fun r => !s.expansion.visited.any (·.same r) := fun s =>
    List.countP_eq_length_filter.symm
  rw [hcount, hcount]
  obtain ⟨before, after, rfl⟩ := List.append_of_mem hroot
  have hmono : ∀ l : List Path, l.countP (fun r => !st'.expansion.visited.any (·.same r)) ≤
      l.countP fun r => !st.expansion.visited.any (·.same r) := by
    refine fun l => List.countP_mono_left fun r _ hr => ?_
    rw [Bool.not_eq_true'] at hr ⊢
    exact Bool.eq_false_of_not_eq_true fun hs => by
      rw [any_same_mono h hs] at hr
      cases hr
  have hin' : st'.expansion.visited.any (·.same root) = true :=
    List.any_eq_true.2 ⟨root, hin, same_refl root⟩
  have hb := hmono before
  have ha := hmono after
  simp only [List.countP_append, List.countP_cons, hnew, hin', Bool.not_true, Bool.not_false,
    Bool.false_eq_true, if_true, if_false]
  omega

end

/-- A visit leaves one root less to be visited. -/
theorem unvisited_lt_of_visit {roots : List Path} {st st' : Expansion.State} {root : Path} (hroot : root ∈ roots)
    (hseen : ¬ (st.expansion.visited.any fun r => r.same root) = true)
    (hvisited : st'.expansion.visited = st.expansion.visited ++ [root]) :
    unvisited roots st' < unvisited roots st := by
  refine unvisited_lt (fun r hr => ?_) hroot (Bool.eq_false_of_not_eq_true hseen) ?_
  · rw [hvisited]
    exact List.mem_append_left _ hr
  · rw [hvisited]
    exact List.mem_append_right _ (List.mem_singleton_self _)

/-- The module `name` comes up: it is asked for, or a root that can be come to needs it. -/
inductive ComesUp (project : Project) (settings : ExpansionSettings) (d : Disk) (known : Manifests) (base : Path)
    (requested : List String) (name : String) : Option Path → Prop
  | requested (h : name ∈ requested) : ComesUp project settings d known base requested name none
  | needed {root : Path} (hr : Expandable project settings d known base requested root)
      (hn : Needs d known root name) : ComesUp project settings d known base requested name (some root)

theorem ComesUp.expandable {requested : List String} {name : String} {needing : Option Path} {root : Path}
    (h : ComesUp project settings d known base requested name needing)
    (hlead : LeadsTo project settings d known base name needing root) :
    Expandable project settings d known base requested root := by
  cases h with
  | requested h => exact .requested h hlead
  | needed hr hn => exact .needed hr hn hlead

/-- The levels are enough: whatever is done beyond them, and with more levels, a call does the same. -/
theorem run_module (hs : Fixed d known project.resolver) {requested : List String}
    {roots : List Path}
    (hroots : ∀ r, Expandable project settings d known base requested r → r ∈ roots)
    (stop : Expand Unit) {levels levels' : Nat} {name : String} {needing : Option Needing}
    (parents : List String) {st : Expansion.State} (hst : Proper d known st)
    (hk : Known d known needing)
    (hedge : ComesUp project settings d known base requested name (needing.map (·.root)))
    (hl : unvisited roots st < levels) (hl' : unvisited roots st < levels') :
    (module project settings d stop base levels name needing parents).run.run st =
      (module project settings d (throw (.file .other)) base levels' name needing parents).run.run
        st := by
  induction levels generalizing levels' name needing parents st with
  | zero => omega
  | succ levels ih =>
    obtain ⟨levels', rfl⟩ : ∃ n, levels' = n + 1 := ⟨levels' - 1, by omega⟩
    by_cases hex : name ∈ settings.exclude
    · rw [run_module_excluded st hex, run_module_excluded st hex]
    · have hq := Project.settled_packageRoot hs name base (needing.map (·.root))
      rw [run_module_succ hs stop levels parents hst hex, run_module_succ hs _ levels' parents hst hex]
      dsimp only
      rcases hr : (project.packageRoot d name base (needing.map (·.root))).answer known with e | _ | root
      · rw [hr]
      · rw [hr]
      · rw [hr]
        dsimp only
        have hlead : LeadsTo project settings d known base name (needing.map (·.root)) root := ⟨hex, hr⟩
        have hroot : root.IsPlain := hq.holds hr root rfl
        have hexp : Expandable project settings d known base requested root := hedge.expandable hlead
        split
        · rfl
        · rename_i hseen
          rw [run_bind, run_bind]
          rcases hv : (visit project d ((needing.map (·.root)).getD base) root name).run.run
            ⟨(project.packageRoot d name base (needing.map (·.root))).after st.manifests,
              st.expansion⟩ with ⟨e | m', st₂⟩
          · rw [hv]
          · rw [hv]
            obtain ⟨m, q, hm, rfl, he₂, hadds⟩ :=
              visit_ok hs hroot (hq.steady.left hst.manifests) hv
            have hst₂ : Proper d known st₂ := hst.of_visit he₂ hroot hadds.visited
            have hlt : unvisited roots st₂ < unvisited roots st :=
              unvisited_lt_of_visit (hroots root hexp) hseen hadds.visited
            have hk' : Known d known (some ⟨root, { m with path := q }⟩) := known_found hm q
            refine run_forM_congr (P := fun s =>
              Proper d known s ∧ unvisited roots s ≤ unvisited roots st₂) (fun dep hdep s hs' => ?_)
              (fun dep hdep s s' hs' h => ?_) ⟨hst₂, Nat.le_refl _⟩
            · exact ih (parents ++ [name]) hs'.1 hk' (.needed hexp ⟨m, hm, hdep⟩)
                (by omega) (by omega)
            · obtain ⟨hp, ⟨visits, hw⟩, -⟩ := deals_module hs levels' (parents ++ [name]) hk' s s'
                hs'.1 h
              exact ⟨hp, Nat.le_trans (unvisited_mono hw.mem_visited) hs'.2⟩

theorem unvisited_le (roots : List Path) (st : Expansion.State) :
    unvisited roots st ≤ roots.length := List.length_filter_le ..

/-- With more levels than there are roots, some modules are expanded as with one level more, whatever is
done beyond. -/
theorem run_expandWithin (hs : Fixed d known project.resolver)
    {requests : List (String × List String)} {roots : List Path}
    (hroots : ∀ r, Expandable project settings d known base (requests.map Prod.fst) r → r ∈ roots)
    (stop : Expand Unit) {levels : Nat} (hl : roots.length < levels) :
    (expandWithin project settings d stop levels base requests).run.run ⟨known, .empty⟩ =
      (expandWithin project settings d (throw (.file .other)) (roots.length + 1) base
        requests).run.run ⟨known, .empty⟩ := by
  have hk : Known d known none := fun _ h => nomatch h
  refine run_forM_congr (fun r hr st hst => ?_) (fun r _ st st' hst h =>
    (deals_module hs _ r.2 hk st st' hst h).1) (proper_start known)
  exact run_module hs hroots stop r.2 hst hk (.requested (List.mem_map_of_mem hr))
    (Nat.lt_of_le_of_lt (unvisited_le roots st) hl) (Nat.lt_succ_of_le (unvisited_le roots st))

theorem mem_directories_of_expandable {r : Resolver} (hr : project.resolver = r.resolve)
    (hd : Disk.Spelled d.here) {requested : List String} {root : Path}
    (h : Expandable project settings d known base requested root) : root ∈ d.directories := by
  cases h with
  | requested _ h => exact Project.mem_directories_of_packageRoot hr hd h.2
  | needed _ _ h => exact Project.mem_directories_of_packageRoot hr hd h.2

/-- In a project that looks for files on the disk an expansion never comes to its bound. -/
theorem run_expandAll {r : Resolver} (hr : project.resolver = r.resolve)
    (hd : Disk.Spelled d.here) (requests : List (String × List String)) (stop : Expand Unit)
    {levels : Nat} (hl : d.directories.length < levels) :
    (expandWithin project settings d stop levels base requests).run.run ⟨known, .empty⟩ =
      (expandAll project settings d base requests).run.run ⟨known, .empty⟩ :=
  run_expandWithin (hr ▸ r.fixed_resolve hd)
    (fun _ => mem_directories_of_expandable hr hd) stop hl

/-- For every resolver that is a fixed function, modules that are expanded one after another, as seen from
one directory, visit exactly the least set of roots that holds theirs and is closed under dependencies that
can be found, each root once; the files are exactly those that these roots hold, and whatever else is
asked for or needed is left out, part of the runtime, or missing with a warning. On every finite set of
roots the recursion comes to its end: with more levels than roots, what is done beyond the levels does not
matter. -/
theorem expandWithin_exact (hs : Fixed d known project.resolver) (base : Path)
    (requests : List (String × List String)) :
    (∀ levels ms x, (expandWithin project settings d (throw (.file .other)) levels base
        requests).run.run ⟨known, .empty⟩ = (.ok (), ⟨ms, x⟩) →
      Exact project settings d known base (requests.map Prod.fst) x) ∧
    ∀ roots : List Path,
      (∀ r, Expandable project settings d known base (requests.map Prod.fst) r → r ∈ roots) →
      ∀ stop levels, roots.length < levels →
        (expandWithin project settings d stop levels base requests).run.run ⟨known, .empty⟩ =
          (expandWithin project settings d (throw (.file .other)) (roots.length + 1) base
            requests).run.run ⟨known, .empty⟩ := by
  refine ⟨fun levels ms x h => ?_, fun roots hroots stop levels hl =>
    run_expandWithin hs hroots stop hl⟩
  obtain ⟨-, ⟨visits, hw⟩, hd⟩ := walked_expandWithin hs (proper_start known) h
  exact hw.exact hd

/-! ### Packages that need each other -/

/-- Two packages that depend on each other. -/
def ring : Disk where
  entries := [
    (["node_modules"], .directory),
    (["node_modules", "a"], .directory),
    (["node_modules", "a", "index.js"], .file (.text "")),
    (["node_modules", "a", "package.json"],
      .file (.text "\x7b\"name\":\"a\",\"dependencies\":\x7b\"b\":\"1\"\x7d\x7d")),
    (["node_modules", "b"], .directory),
    (["node_modules", "b", "index.js"], .file (.text "")),
    (["node_modules", "b", "package.json"],
      .file (.text "\x7b\"name\":\"b\",\"dependencies\":\x7b\"a\":\"1\"\x7d\x7d")),
    (["package.json"], .file (.text "\x7b\"name\":\"app\"\x7d"))]
  here := []

def ringProject : Project := ⟨⟨"/"⟩, ⟨"/"⟩, Resolver.standard.resolve⟩

theorem expandWithin_exact_ring :
    (∃ ms x, (expandAll ringProject default ring ⟨"/"⟩ [("b", [])]).run.run ⟨.empty, .empty⟩ =
        (.ok (), ⟨ms, x⟩) ∧ x.visited = [⟨"/node_modules/b"⟩, ⟨"/node_modules/a"⟩] ∧
      Exact ringProject default ring .empty ⟨"/"⟩ ["b"] x) ∧
    ∀ stop levels, ring.directories.length < levels →
      (expandWithin ringProject default ring stop levels ⟨"/"⟩ [("b", [])]).run.run
          ⟨.empty, .empty⟩ =
        (expandAll ringProject default ring ⟨"/"⟩ [("b", [])]).run.run ⟨.empty, .empty⟩ := by
  have hs : Fixed ring .empty ringProject.resolver :=
    Resolver.standard.fixed_resolve Disk.spelled_nil
  refine ⟨?_, (expandWithin_exact hs _ _).2 ring.directories fun _ =>
    mem_directories_of_expandable rfl Disk.spelled_nil⟩
  have hrun : shown (expandAll ringProject default ring ⟨"/"⟩ [("b", [])]) ⟨.empty, .empty⟩
      (fun _ st => st.expansion.visited) = some [⟨"/node_modules/b"⟩, ⟨"/node_modules/a"⟩] := by
    decide +kernel
  obtain ⟨_, ⟨ms, x⟩, hx, hvisited⟩ := exists_gives hrun
  exact ⟨ms, x, hx, hvisited, (expandWithin_exact hs _ _).1 _ ms x hx⟩

end Stowage.Expand
