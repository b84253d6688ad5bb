/-
The links of an expansion. A link is kept for the way on which a module root is visited first, looked up
from the module that needs it, and for what the visited roots list. What is needed on another way, or
found from the directory that the expansion starts from instead of the module that needs it, leaves no
link by itself, so which links are kept depends on the order of the modules.
-/
import Stowage.Proofs.Expansion.Alike

open Stowage.Path

namespace Stowage.Expand

open Manifests

variable (project : Project) (settings : ExpansionSettings) (d : Disk) (known : Manifests) (base : Path)

/-- The directory from which the entry of a module was found: the module that needs it, unless the module
is missing from there. -/
def foundFrom (name : String) : Option Path → Path
  | none => base
  | some root => match (project.findEntry d root name).answer known with
    | .ok _ => root
    | .error e => if e.isMissing then base else root

/-- The place called `n` through which a module was found is a link. -/
def FoundThrough (name : String) (needing : Option Path) (n : String) : Prop :=
  ∃ place, IsPlace d name (foundFrom project d known base name needing) place ∧
    project.relative place = .ok n

/-- The module is asked for, or needed by a visited one. -/
def Walks (requested : List String) (x : Expansion) (name : String) : Option Path → Prop
  | none => name ∈ requested
  | some root => root ∈ x.visited ∧ Needs d known root name

/-- The ways on which the visited roots were come to first: each from what is asked for, or from a root that
was visited before. -/
structure FirstVisits (requested : List String) (x : Expansion) (visits : List Visit) : Prop where
  roots : visits.map (·.root) = x.visited
  leads : ∀ v ∈ visits, LeadsTo project settings d known base v.name v.needing v.root
  sourced : ∀ before v after, visits = before ++ v :: after →
    (v.name ∈ requested ∧ v.needing = none) ∨
      ∃ u ∈ before, v.needing = some u.root ∧ Needs d known u.root v.name

variable {project settings d known base}

theorem Walked.firstVisits {requested : List String} {x : Expansion} {visits : List Visit}
    (h : Walked project settings d known base (fun n from_ => n ∈ requested ∧ from_ = none)
      .empty x visits) : FirstVisits project settings d known base requested x visits :=
  ⟨h.visited.symm, h.leads, h.sourced⟩

/-- Every root that something walked leads to has its first way. -/
theorem FirstVisits.exists_of_walks {requested : List String} {x : Expansion} {visits : List Visit}
    (hv : FirstVisits project settings d known base requested x visits)
    (hx : Exact project settings d known base requested x) {name : String} {needing : Option Path}
    {root : Path} (hw : Walks d known requested x name needing)
    (hlead : LeadsTo project settings d known base name needing root) :
    ∃ v ∈ visits, v.root = root := by
  have hroot : root ∈ x.visited := by
    rcases needing with _ | r
    · exact (hx.asked name hw).mem_visited hlead
    · exact (hx.needed r hw.1 name hw.2).mem_visited hlead
  rw [← hv.roots] at hroot
  exact List.mem_map.1 hroot

/-- Which links an expansion keeps, for all that it walks. The link through which a module was found is
kept exactly if the manifest of a visited root lists it, or a root was come to first on a way that, looked
up from the module that needs it, leads through this link. So it is kept if the root was come to first on this
way and the module was found from the one that needs it; a way to a root that was visited before, and a
module that is found from the start only, keep theirs by chance. -/
theorem link_kept_iff (hs : Fixed d known project.resolver) (base : Path)
    (requests : List (String × List String)) {levels : Nat} {ms : Manifests} {x : Expansion}
    (h : (expandWithin project settings d (throw (.file .other)) levels base requests).run.run
      ⟨known, .empty⟩ = (.ok (), ⟨ms, x⟩)) :
    ∃ visits, FirstVisits project settings d known base (requests.map Prod.fst) x visits ∧
      (∀ n, n ∈ x.extras ↔ (∃ root ∈ x.visited, ListsLink project d known root n) ∨
        ∃ v ∈ visits, Placed project d base v n) ∧
      ∀ name needing root n, Walks d known (requests.map Prod.fst) x name needing →
        LeadsTo project settings d known base name needing root →
        FoundThrough project d known base name needing n →
        (∃ v ∈ visits, v.root = root) ∧
          (⟨root, name, needing⟩ ∈ visits →
            foundFrom project d known base name needing = needing.getD base → n ∈ x.extras) := by
  obtain ⟨-, ⟨visits, hw⟩, hd⟩ := walked_expandWithin hs (proper_start known) h
  have hextras : ∀ n, n ∈ x.extras ↔ (∃ root ∈ x.visited, ListsLink project d known root n) ∨
      ∃ v ∈ visits, Placed project d base v n := by
    intro n
    rw [hw.extras]
    show n ∈ [] ∨ _ ↔ _
    rw [hw.visited]
    show n ∈ [] ∨ _ ↔ (∃ root ∈ [] ++ visits.map (·.root), _) ∨ _
    simp only [List.not_mem_nil, false_or, List.nil_append, List.mem_map, exists_exists_and_eq_and,
      ← exists_or, ← and_or_left]
  have hfirst := hw.firstVisits
  refine ⟨visits, hfirst, hextras, fun name needing root n hwalk hlead hfound =>
    ⟨hfirst.exists_of_walks (hw.exact hd) hwalk hlead, fun hv hfrom => ?_⟩⟩
  obtain ⟨place, hplace, hn⟩ := hfound
  rw [hfrom] at hplace
  exact (hextras n).2 (.inr ⟨_, hv, place, hplace, hn⟩)

/-! ### A package that is linked twice -/

/-- A package that is linked for the project and for a package of the project. -/
def forked : Disk where
  entries := [
    (["m"], .directory),
    (["m", "l"], .directory),
    (["m", "l", "index.js"], .file (.text "")),
    (["m", "l", "package.json"], .file (.text "\x7b\"name\":\"l\"\x7d")),
    (["node_modules"], .directory),
    (["node_modules", "l"], .link "../m/l"),
    (["node_modules", "x"], .directory),
    (["node_modules", "x", "index.js"], .file (.text "")),
    (["node_modules", "x", "node_modules"], .directory),
    (["node_modules", "x", "node_modules", "l"], .link "../../../m/l"),
    (["node_modules", "x", "package.json"], .file (.text
      "\x7b\"name\":\"x\",\"files\":[\"index.js\"],\"dependencies\":\x7b\"l\":\"1\"\x7d\x7d"))]
  here := []

/-- The links that are kept when some modules are expanded. -/
def forkedLinks (requests : List (String × List String)) : Option (List String) :=
  shown (expandAll ringProject default forked ⟨"/"⟩ requests) ⟨.empty, .empty⟩ fun _ st =>
    st.expansion.extras

/-- What is expanded once `x` is visited. -/
def forkedOnce : Expansion :=
  ⟨["node_modules/x/index.js", "node_modules/x/package.json"], [], [⟨"/node_modules/x"⟩], []⟩

/-- What is expanded once `x` and the package that it needs are visited. -/
def forkedTwice : Expansion :=
  ⟨["m/l/index.js", "m/l/package.json", "node_modules/x/index.js", "node_modules/x/package.json"],
    ["node_modules/x/node_modules/l"], [⟨"/node_modules/x"⟩, ⟨"/m/l"⟩], []⟩

theorem packageRoot_forked : (ringProject.packageRoot forked "l" ⟨"/"⟩ (some ⟨"/node_modules/x"⟩)).answer .empty =
    .ok (.directory ⟨"/m/l"⟩) := ok_of_toOption (by decide +kernel)

/-- From `x` the expansion goes on to `l`, and comes to what `l` brings in on top of `x`. -/
theorem shown_forked {before once after : Expansion} (hbefore : ∀ root ∈ before.visited, root.IsPlain)
    (hnew : (before.visited.any fun r => r.same ⟨"/node_modules/x"⟩) = false)
    (hvisit : shown (visit ringProject forked ⟨"/"⟩ ⟨"/node_modules/x"⟩ "x") ⟨.empty, before⟩
      (fun m st => (m.dependedOn, st.expansion)) = some (["l"], once))
    (hl : ∀ levels m st, Proper forked .empty st → st.expansion = once → ∃ st', st'.expansion = after ∧
      Gives (module ringProject default forked (throw (.file .other)) ⟨"/"⟩ (levels + 1) "l"
        (some ⟨⟨"/node_modules/x"⟩, m⟩) ([] ++ ["x"])) st ⟨⟩ st') :
    shown (expandAll ringProject default forked ⟨"/"⟩ [("x", [])]) ⟨.empty, before⟩ (fun _ st => st.expansion) =
      some after := by
  have hs : Fixed forked .empty ringProject.resolver := Resolver.standard.fixed_resolve Disk.spelled_nil
  have hin : "x" ∉ (default : ExpansionSettings).exclude := List.not_mem_nil
  have hproper : Proper forked .empty ⟨.empty, before⟩ := ⟨extends_refl _, hbefore⟩
  obtain ⟨n, hlevels⟩ : ∃ n, forked.directories.length = n + 1 := ⟨37, by decide +kernel⟩
  have hroot : (ringProject.packageRoot forked "x" ⟨"/"⟩ none).answer .empty = .ok (.directory ⟨"/node_modules/x"⟩) :=
    ok_of_toOption (by decide +kernel)
  obtain ⟨m, st₀, hvisit, hfacts⟩ := exists_gives hvisit
  obtain ⟨hdeps, hx⟩ := Prod.mk.inj hfacts
  obtain ⟨p, st, hst, hst₀, hrun⟩ := run_module_of_visit (throw (.file .other)) (n + 1) none [] hs hproper rfl
    hin hroot hnew hvisit
  obtain ⟨st', hst', hgives⟩ := hl n { m with path := p } st hst (hst₀.trans hx)
  rw [hdeps] at hrun
  have hall : Gives (expandAll ringProject default forked ⟨"/"⟩ [("x", [])]) ⟨.empty, before⟩ ⟨⟩ st' := by
    unfold expandAll
    rw [hlevels]
    refine (Gives.run_forM_cons (?_ : Gives _ _ PUnit.unit st') []).trans rfl
    refine hrun.trans ((Gives.run_forM_cons (?_ : Gives _ st PUnit.unit st') []).trans rfl)
    exact hgives
  exact (shown_of_gives hall _).trans (congrArg some hst')

/-- The link of `x` is kept if `x` brings in the package. -/
theorem links_kept_first : forkedLinks [("x", []), ("l", [])] = some ["node_modules/x/node_modules/l"] := by
  have hs : Fixed forked .empty ringProject.resolver := Resolver.standard.fixed_resolve Disk.spelled_nil
  have hx : shown (visit ringProject forked ⟨"/"⟩ ⟨"/node_modules/x"⟩ "x") ⟨.empty, .empty⟩
      (fun m st => (m.dependedOn, st.expansion)) = some (["l"], forkedOnce) := by decide +kernel
  have hl : shown (visit ringProject forked ⟨"/node_modules/x"⟩ ⟨"/m/l"⟩ "l") ⟨.empty, forkedOnce⟩
      (fun m st => (m.dependedOn, st.expansion)) = some ([], forkedTwice) := by decide +kernel
  have hin : "l" ∉ (default : ExpansionSettings).exclude := List.not_mem_nil
  obtain ⟨l, st₀, hvisit, hfacts⟩ := exists_gives hl
  obtain ⟨hdeps, hafter⟩ := Prod.mk.inj hfacts
  have hboth : shown (expandAll ringProject default forked ⟨"/"⟩ [("x", [])]) ⟨.empty, .empty⟩
      (fun _ st => st.expansion) = some forkedTwice := by
    refine shown_forked (fun _ h => absurd h List.not_mem_nil) rfl hx fun levels m st hst heq => ?_
    obtain ⟨p, st', -, hst', hrun⟩ := run_module_of_visit (throw (.file .other)) levels
      (some ⟨⟨"/node_modules/x"⟩, m⟩) ([] ++ ["x"]) hs hst heq hin packageRoot_forked (by decide +kernel) hvisit
    rw [hdeps] at hrun
    exact ⟨st', hst'.trans hafter, hrun⟩
  refine shown_expandAll_append hs (fun _ h => absurd h List.not_mem_nil) hboth ?_
  decide +kernel

/-- Where the package was visited before, the link of `x` is lost. -/
theorem links_kept_last : forkedLinks [("l", []), ("x", [])] = some ["node_modules/l"] := by
  have hs : Fixed forked .empty ringProject.resolver := Resolver.standard.fixed_resolve Disk.spelled_nil
  have hl : shown (expandAll ringProject default forked ⟨"/"⟩ [("l", [])]) ⟨.empty, .empty⟩
      (fun _ st => st.expansion) = some ⟨["m/l/index.js", "m/l/package.json"], ["node_modules/l"], [⟨"/m/l"⟩], []⟩ := by
    decide +kernel
  have hx : shown (visit ringProject forked ⟨"/"⟩ ⟨"/node_modules/x"⟩ "x")
      ⟨.empty, ⟨["m/l/index.js", "m/l/package.json"], ["node_modules/l"], [⟨"/m/l"⟩], []⟩⟩
      (fun m st => (m.dependedOn, st.expansion)) = some (["l"], ⟨["m/l/index.js", "m/l/package.json",
        "node_modules/x/index.js", "node_modules/x/package.json"], ["node_modules/l"],
        [⟨"/m/l"⟩, ⟨"/node_modules/x"⟩], []⟩) := by decide +kernel
  have hin : "l" ∉ (default : ExpansionSettings).exclude := List.not_mem_nil
  refine shown_expandAll_append hs (fun _ h => absurd h List.not_mem_nil) hl ?_
  have hplain : ∀ root ∈ [(⟨"/m/l"⟩ : Path)], root.IsPlain := fun root hroot => List.mem_singleton.1 hroot ▸
    (Project.settled_packageRoot hs "l" ⟨"/"⟩ (some ⟨"/node_modules/x"⟩)).holds packageRoot_forked _ rfl
  have hboth := shown_forked hplain (by decide +kernel) hx fun levels m st hst heq => by
    obtain ⟨st', -, hst', hgives⟩ := gives_module_of_seen (throw (.file .other)) levels
      (some ⟨⟨"/node_modules/x"⟩, m⟩) ([] ++ ["x"]) hs hst heq hin packageRoot_forked (by decide +kernel)
    exact ⟨st', hst', hgives⟩
  obtain ⟨_, st', hgives, hst'⟩ := exists_gives hboth
  exact (shown_of_gives hgives _).trans (by rw [hst'])

/-- The link through which the project finds the package is lost if the other package comes first, and
kept if it comes last. -/
theorem link_kept_iff_forked :
    (∃ ms x visits, (expandAll ringProject default forked ⟨"/"⟩ [("x", []), ("l", [])]).run.run
        ⟨.empty, .empty⟩ = (.ok (), ⟨ms, x⟩) ∧
      FirstVisits ringProject default forked .empty ⟨"/"⟩ ["x", "l"] x visits ∧
      (∃ v ∈ visits, v.root = ⟨"/m/l"⟩) ∧
      FoundThrough ringProject forked .empty ⟨"/"⟩ "l" none "node_modules/l" ∧
      "node_modules/l" ∉ x.extras) ∧
    forkedLinks [("l", []), ("x", [])] = some ["node_modules/l"] := by
  have hs : Fixed forked .empty ringProject.resolver :=
    Resolver.standard.fixed_resolve Disk.spelled_nil
  have hlead : LeadsTo ringProject default forked .empty ⟨"/"⟩ "l" none ⟨"/m/l"⟩ := by
    have h : ((ringProject.packageRoot forked "l" ⟨"/"⟩ none).answer .empty).toOption =
        some (.directory ⟨"/m/l"⟩) := by decide +kernel
    exact ⟨List.not_mem_nil, ok_of_toOption h⟩
  have hplace : IsPlace forked "l" ⟨"/"⟩ ⟨"/node_modules/l"⟩ := by
    unfold IsPlace
    decide +kernel
  have hname : (ringProject.relative ⟨"/node_modules/l"⟩).toOption = some "node_modules/l" := by
    decide +kernel
  have hfound : FoundThrough ringProject forked .empty ⟨"/"⟩ "l" none "node_modules/l" :=
    ⟨⟨"/node_modules/l"⟩, hplace, ok_of_toOption hname⟩
  refine ⟨?_, links_kept_last⟩
  obtain ⟨_, ⟨ms, x⟩, hx, hlist⟩ := exists_gives links_kept_first
  obtain ⟨visits, hfirst, -, hkept⟩ := link_kept_iff hs ⟨"/"⟩ _ hx
  refine ⟨ms, x, visits, hx, hfirst, (hkept "l" none _ _ (by simp [Walks]) hlead hfound).1,
    hfound, ?_⟩
  rw [show x.extras = _ from hlist]
  decide

end Stowage.Expand
