/-
Modules that are missing, and the ways on which they are needed. An expansion that fails since a module is missing names
such a way in its error, and every module that it passed over before it names in a warning. A way leads from the module
that was asked for through roots that all differ, each of which needs what comes next.

Every level of the recursion extends the way by the module that it visits. Its root counts as visited from then on, so
it is none of the roots on the rest of the way.
-/
import Stowage.Proofs.Expansion.Alike
import Stowage.Proofs.Expansion.Faults

open Stowage.Path

namespace Stowage.Expand

open Manifests

section
variable (project : Project) (settings : ExpansionSettings) (d : Disk) (known : Manifests) (base : Path)

/-- The module `name`, needed by the root in `needing` or asked for, leads to the module `last`, which the root in
`from_` needs. On the way there are the modules in `steps`, each with its root. -/
inductive Way : String → Option Path → List (String × Path) → String → Option Path → Prop
  | here {name : String} {needing : Option Path} (hx : name ∉ settings.exclude) : Way name needing [] name needing
  | next {name dependency last : String} {needing from_ : Option Path} {root : Path} {steps : List (String × Path)}
      (h : LeadsTo project settings d known base name needing root) (hn : Needs d known root dependency)
      (hw : Way dependency (some root) steps last from_) : Way name needing ((name, root) :: steps) last from_

/-- The module `last`, needed by the root in `from_`, is missing at the end of a way on which all roots differ, and none
was visited before. -/
structure Misses (before : List Path) (name : String) (needing : Option Path) (steps : List (String × Path))
    (last : String) (from_ : Option Path) : Prop where
  way : Way project settings d known base name needing steps last from_
  nodup : (steps.map Prod.snd).Nodup
  new : ∀ s ∈ steps, s.2 ∉ before
  missing : ∃ n p, (project.packageRoot d last base from_).answer known = .error (.moduleNotFound n p)

/-- The names on a way that goes on from some parents, in one text. -/
def told (parents : List String) (steps : List (String × Path)) (last : String) : String :=
  route (parents ++ steps.map Prod.fst) last

/-- The module `last` is missing and must not be, and `way` tells how it is needed. -/
def Lacks (before : List Path) (name : String) (needing : Option Path) (parents : List String) (last way : String) :
    Prop :=
  ∃ steps from_, Misses project settings d known base before name needing steps last from_ ∧
    ¬ MayMiss settings d known last from_ ∧ way = told parents steps last

/-- The warning tells how a module is needed that is missing and may be. -/
def PassedOver (before : List Path) (name : String) (needing : Option Path) (parents : List String) (w : String) :
    Prop :=
  ∃ steps last from_, Misses project settings d known base before name needing steps last from_ ∧
    MayMiss settings d known last from_ ∧ w = "skip missing module " ++ told parents steps last

/-- A call for a module that goes on from the expansion `x` to `x'` tells the truth about what is missing. -/
structure Reports (x : Expansion) (name : String) (needing : Option Path) (parents : List String)
    (result : Except Error Unit) (x' : Expansion) : Prop where
  lacks : ∀ last way, result = .error (.missingDependency last way) →
    Lacks project settings d known base x.visited name needing parents last way
  warnings : ∀ w ∈ x'.warnings, w ∈ x.warnings ∨
    PassedOver project settings d known base x.visited name needing parents w

end

/-- The error is not about a module that is missing and needed. -/
def Unreported (e : Error) : Prop := ∀ last way, e ≠ .missingDependency last way

section
variable {project : Project} {settings : ExpansionSettings} {d : Disk} {known : Manifests} {base : Path}
  {x x' x₁ x₂ : Expansion} {name : String} {needing : Option Path} {parents : List String}
  {result : Except Error Unit}

theorem exists_moduleNotFound {e : Error} (h : e.isMissing = true) : ∃ n p, e = .moduleNotFound n p := by
  cases e with
  | moduleNotFound n p => exact ⟨n, p, rfl⟩
  | _ => cases h

/-! ## One step more -/

theorem told_next (root : Path) (steps : List (String × Path)) (last : String) :
    told (parents ++ [name]) steps last = told parents ((name, root) :: steps) last := by
  unfold told
  rw [List.map_cons, List.append_assoc]
  rfl

section
variable {root : Path} {dependency last way : String} (hlead : LeadsTo project settings d known base name needing root)
  (hn : Needs d known root dependency) (hnew : root ∉ x.visited)
  (hgrown : ∀ r, r = root ∨ r ∈ x.visited → r ∈ x₁.visited)
include hlead hn hnew hgrown

/-- What is missing for a dependency is missing with one step more, since the root is visited before the dependency. -/
theorem Misses.next {steps : List (String × Path)} {from_ : Option Path}
    (h : Misses project settings d known base x₁.visited dependency (some root) steps last from_) :
    Misses project settings d known base x.visited name needing ((name, root) :: steps) last from_ := by
  refine ⟨.next hlead hn h.way, List.nodup_cons.2 ⟨fun hmem => ?_, h.nodup⟩, fun s hs => ?_, h.missing⟩
  · obtain ⟨s, hs, hroot⟩ := List.mem_map.1 hmem
    exact h.new s hs (hgrown _ (.inl hroot))
  · rcases List.mem_cons.1 hs with rfl | hs
    · exact hnew
    · exact fun hin => h.new s hs (hgrown _ (.inr hin))

theorem Lacks.next (h : Lacks project settings d known base x₁.visited dependency (some root) (parents ++ [name]) last
    way) : Lacks project settings d known base x.visited name needing parents last way := by
  obtain ⟨steps, from_, hmiss, hmay, rfl⟩ := h
  exact ⟨_, from_, hmiss.next hlead hn hnew hgrown, hmay, told_next root steps last⟩

theorem PassedOver.next {w : String}
    (h : PassedOver project settings d known base x₁.visited dependency (some root) (parents ++ [name]) w) :
    PassedOver project settings d known base x.visited name needing parents w := by
  obtain ⟨steps, last, from_, hmiss, hmay, rfl⟩ := h
  exact ⟨_, last, from_, hmiss.next hlead hn hnew hgrown, hmay, congrArg _ (told_next root steps last)⟩

end

/-! ## One module -/

/-- A call that fails with another error, if at all, and adds no warning reports nothing. -/
theorem reports_nothing (h : ∀ last way, result ≠ .error (.missingDependency last way))
    (hwarnings : x'.warnings = x.warnings) :
    Reports project settings d known base x name needing parents result x' :=
  ⟨fun last way hr => absurd hr (h last way), fun _ hw => .inl (hwarnings ▸ hw)⟩

/-- A module whose root cannot be told is reported if it is missing. -/
theorem reports_passOver {needing : Option Needing} (hk : Known d known needing) (hx : name ∉ settings.exclude)
    {e : Error} (h : (project.packageRoot d name base (needing.map (·.root))).answer known = .error e)
    (he : Unreported e) {st st' : Expansion.State}
    (hrun : (passOver settings name needing parents e).run.run st = (result, st')) :
    Reports project settings d known base st.expansion name (needing.map (·.root)) parents result st'.expansion := by
  have htold : route parents name = told parents [] name := by
    unfold told
    rw [List.map_nil, List.append_nil]
  unfold passOver at hrun
  split at hrun
  · rename_i hmissing
    have hhere : Misses project settings d known base st.expansion.visited name (needing.map (·.root)) [] name
        (needing.map (·.root)) := by
      obtain ⟨n, p, rfl⟩ := exists_moduleNotFound hmissing
      exact ⟨.here hx, List.nodup_nil, fun _ hs => absurd hs List.not_mem_nil, n, p, h⟩
    split at hrun
    · rename_i hmay
      cases hrun
      refine ⟨fun _ _ hr => (nomatch hr), fun w hw => ?_⟩
      rcases List.mem_append.1 hw with hw | hw
      · exact .inl hw
      · rw [List.mem_singleton.1 hw, htold]
        exact .inr ⟨[], name, _, hhere, (mayMiss_of_known hk).1 hmay, rfl⟩
    · rename_i hmay
      cases hrun
      refine ⟨fun last way hr => ?_, fun _ hw => .inl hw⟩
      cases hr
      exact ⟨[], _, hhere, fun h => hmay ((mayMiss_of_known hk).2 h), htold⟩
  · cases hrun
    exact reports_nothing (fun last way hr => he last way (Except.error.inj hr)) rfl

theorem unreported_readAt {p : Path} {e : Error} (h : readAt d p = .error e) : Unreported e := by
  rcases readAt_error h with ⟨_, rfl⟩ | ⟨_, _, rfl⟩ <;> exact fun _ _ h => nomatch h

theorem unreported_visit (from_ root : Path) : Fails Unreported (visit project d from_ root name) :=
  fails_visit (fun e he => by cases he <;> exact fun _ _ h => nomatch h)
    (fails_require (fails_load fun _ => unreported_readAt) fun _ _ h => nomatch h) name

theorem unreported_packageRoot {r : Resolver} (hr : project.resolver = r.resolve) (needing : Option Path) :
    Fails Unreported (project.packageRoot d name base needing) := by
  refine Project.fails_packageRoot (fun base specifier => ?_) (fun e he => ?_) name base needing
  · rw [hr]
    exact r.fails_resolve (fun p => fails_load fun _ => unreported_readAt) (fun _ _ _ _ h => nomatch h) base specifier
  · obtain ⟨n, p, rfl⟩ := exists_moduleNotFound he
    exact fun _ _ h => nomatch h

/-- The expansion has grown from `x` by the root and what came after it, with warnings that tell the truth. -/
structure Within (project : Project) (settings : ExpansionSettings) (d : Disk) (known : Manifests) (base : Path)
    (x : Expansion) (root : Path) (name : String) (needing : Option Path) (parents : List String)
    (st : Expansion.State) : Prop where
  proper : Proper d known st
  grown : ∀ r, r = root ∨ r ∈ x.visited → r ∈ st.expansion.visited
  warnings : ∀ w ∈ st.expansion.warnings, w ∈ x.warnings ∨
    PassedOver project settings d known base x.visited name needing parents w

/-- What a dependency reports is reported for the module whose root needs it. -/
theorem Within.reports {root : Path} {dependency : String} {st st' : Expansion.State}
    (h : Within project settings d known base x root name needing parents st)
    (hlead : LeadsTo project settings d known base name needing root) (hn : Needs d known root dependency)
    (hnew : root ∉ x.visited)
    (hdep : Reports project settings d known base st.expansion dependency (some root) (parents ++ [name]) result
      st'.expansion) :
    Reports project settings d known base x name needing parents result st'.expansion := by
  refine ⟨fun last way hr => (hdep.lacks last way hr).next hlead hn hnew h.grown, fun w hw => ?_⟩
  rcases hdep.warnings w hw with hw | hw
  · exact h.warnings w hw
  · exact .inr (hw.next hlead hn hnew h.grown)

/-- A call reports what is missing, if telling the roots of modules never fails with a report of its own. -/
theorem reports_module (hs : Fixed d known project.resolver)
    (hplain : ∀ name needing, Fails Unreported (project.packageRoot d name base needing))
    {levels : Nat} {needing : Option Needing} {st st' : Expansion.State} (hst : Proper d known st)
    (hk : Known d known needing)
    (h : (module project settings d (throw (.file .other)) base levels name needing parents).run.run st =
      (result, st')) :
    Reports project settings d known base st.expansion name (needing.map (·.root)) parents result st'.expansion := by
  induction levels generalizing name needing parents st st' result with
  | zero =>
    cases h
    exact reports_nothing (fun _ _ h => nomatch h) rfl
  | succ levels ih =>
    by_cases hex : name ∈ settings.exclude
    · rw [run_module_excluded st hex] at h
      cases h
      exact reports_nothing (fun _ _ h => nomatch h) rfl
    have hq := Project.settled_packageRoot hs name base (needing.map (·.root))
    have hst₁ : Proper d known ⟨(project.packageRoot d name base (needing.map (·.root))).after st.manifests,
        st.expansion⟩ := ⟨hq.steady.left hst.manifests, hst.plain⟩
    rw [run_module_succ hs _ levels parents hst hex] at h
    dsimp only at h
    rcases hr : (project.packageRoot d name base (needing.map (·.root))).answer known with e | n | root
    · rw [hr] at h
      exact (reports_passOver hk hex hr (hplain _ _ known e hr) h :)
    · rw [hr] at h
      cases h
      exact reports_nothing (fun _ _ h => nomatch h) rfl
    rw [hr] at h
    dsimp only at h
    have hlead : LeadsTo project settings d known base name (needing.map (·.root)) root := ⟨hex, hr⟩
    have hroot : root.IsPlain := hq.holds hr root rfl
    split at h
    · cases h
      exact reports_nothing (fun _ _ h => nomatch h) rfl
    rename_i hseen
    have hnew : root ∉ st.expansion.visited := not_mem_of_any_same hseen
    rw [run_bind] at h
    rcases hv : (visit project d ((needing.map (·.root)).getD base) root name).run.run
      ⟨(project.packageRoot d name base (needing.map (·.root))).after st.manifests, st.expansion⟩ with
      ⟨e | m', st₂⟩
    · -- a visit that fails is no report
      rw [hv] at h
      cases h
      obtain ⟨-, -, -, hwarnings, -⟩ := visit_fails hs hroot hst₁.manifests hv
      exact reports_nothing (fun last way hr => unreported_visit _ _ _ _ (congrArg Prod.fst hv) last way
        (Except.error.inj hr)) hwarnings
    · rw [hv] at h
      obtain ⟨m, q, hm, rfl, he₂, hadds⟩ := visit_ok hs hroot hst₁.manifests hv
      have hk' : Known d known (some ⟨root, { m with path := q }⟩) := known_found hm q
      have hstart : Within project settings d known base st.expansion root name (needing.map (·.root)) parents
          st₂ := by
        refine ⟨hst.of_visit he₂ hroot hadds.visited, fun r hr => ?_, fun w hw => .inl ?_⟩
        · rw [hadds.visited]
          exact List.mem_append.2 (hr.symm.imp id List.mem_singleton.2)
        · rw [hadds.warnings] at hw
          exact hw
      -- every dependency reports what it is a part of, until one of them fails
      have hends := forM_ends
        (P := Within project settings d known base st.expansion root name (needing.map (·.root)) parents)
        (Q := fun e s' => Reports project settings d known base st.expansion name (needing.map (·.root)) parents
          (.error e) s'.expansion)
        (fun dependency hdep s s' hw hgives => ?_) (fun dependency hdep s e s' hw hfails => ?_) hstart h
      · rcases result with e | _
        · exact hends.1 e rfl
        · exact ⟨fun _ _ hr => (nomatch hr), (hends.2 rfl).warnings⟩
      · have hreports := hw.reports hlead ⟨m, hm, hdep⟩ hnew (ih hw.proper hk' hgives)
        obtain ⟨hproper, ⟨visits, hwalked⟩, -⟩ := deals_module hs levels _ hk' s s' hw.proper hgives
        exact ⟨hproper, fun r hr => hwalked.mem_visited r (hw.grown r hr), hreports.warnings⟩
      · exact hw.reports hlead ⟨m, hm, hdep⟩ hnew (ih hw.proper hk' hfails)

/-- The first call of an expansion that fails since a module is missing tells a way that leads from the module that was
asked for to the one that is missing and must not be. Every warning before that tells such a way to a module that may be
missing. -/
theorem expand_names_missing {r : Resolver} (hr : project.resolver = r.resolve) (hd : Disk.Spelled d.here)
    {last way : String} {ms : Manifests}
    (h : (expand project settings d name base parents).run.run ⟨known, .empty⟩ =
      (.error (.missingDependency last way), ⟨ms, x⟩)) :
    Lacks project settings d known base [] name none parents last way ∧
      ∀ w ∈ x.warnings, PassedOver project settings d known base [] name none parents w := by
  have hnone : Known d known none := fun _ hneeding => nomatch hneeding
  have hreports := reports_module (hr ▸ r.fixed_resolve hd) (fun _ => unreported_packageRoot hr) (proper_start known)
    hnone h
  exact ⟨hreports.lacks last way rfl, fun w hw => (hreports.warnings w hw).resolve_left List.not_mem_nil⟩

end

/-! ### A package that one module may miss and another one may not -/

/-- The package `c` is not installed. It is optional for `a`, but not for `b`. -/
def hollow : Disk where
  entries := [
    (["node_modules"], .directory),
    (["node_modules", "a"], .directory),
    (["node_modules", "a", "index.js"], .file (.text "")),
    (["node_modules", "a", "package.json"], .file (.text ("\x7b\"dependencies\":\x7b\"c\":\"1\",\"b\":\"1\"\x7d," ++
      "\"optionalDependencies\":\x7b\"c\":\"1\"\x7d\x7d"))),
    (["node_modules", "b"], .directory),
    (["node_modules", "b", "index.js"], .file (.text "")),
    (["node_modules", "b", "package.json"], .file (.text "\x7b\"dependencies\":\x7b\"c\":\"1\"\x7d\x7d"))]
  here := []

/-- Neither of the two packages finds `c`, nor does the project. -/
theorem packageRoot_hollow {dir : Path} (h : dir = ⟨"/node_modules/a"⟩ ∨ dir = ⟨"/node_modules/b"⟩) :
    (ringProject.packageRoot hollow "c" ⟨"/"⟩ (some dir)).answer .empty = .error (.moduleNotFound "c" ⟨"/"⟩) := by
  have hs : Fixed hollow .empty ringProject.resolver := Resolver.standard.fixed_resolve Disk.spelled_nil
  have hstart : ringProject.misses hollow .empty ⟨"/"⟩ "c" = true := by decide +kernel
  have hstart' : ringProject.misses hollow .empty ⟨"/"⟩ ("c" ++ "/" ++ manifestName) = true := by decide +kernel
  have ha : ringProject.misses hollow .empty ⟨"/node_modules/a"⟩ "c" = true := by decide +kernel
  have ha' : ringProject.misses hollow .empty ⟨"/node_modules/a"⟩ ("c" ++ "/" ++ manifestName) = true := by
    decide +kernel
  have hb : ringProject.misses hollow .empty ⟨"/node_modules/b"⟩ "c" = true := by decide +kernel
  have hb' : ringProject.misses hollow .empty ⟨"/node_modules/b"⟩ ("c" ++ "/" ++ manifestName) = true := by
    decide +kernel
  refine Project.answer_packageRoot_of_misses hs fun from_ hfrom => ?_
  simp only [List.mem_cons, List.not_mem_nil, or_false] at hfrom
  rcases hfrom with rfl | rfl
  · rcases h with rfl | rfl
    · exact ⟨ha, ha'⟩
    · exact ⟨hb, hb'⟩
  · exact ⟨hstart, hstart'⟩

/-- What is expanded once `a` is visited, with some warnings. -/
def hollowOnce (warnings : List String) : Expansion :=
  ⟨["node_modules/a/index.js", "node_modules/a/package.json"], [], [⟨"/node_modules/a"⟩], warnings⟩

/-- From `a` the expansion passes over `c`, goes on to `b` and fails there. -/
theorem expand_hollow : ∃ ms x, (expand ringProject default hollow "a" ⟨"/"⟩ ["app"]).run.run ⟨.empty, .empty⟩ =
      (.error (.missingDependency "c" "app -> a -> b -> c"), ⟨ms, x⟩) ∧
    x.warnings = ["skip missing module app -> a -> c"] := by
  have hs : Fixed hollow .empty ringProject.resolver := Resolver.standard.fixed_resolve Disk.spelled_nil
  have hin : ∀ name, name ∉ (default : ExpansionSettings).exclude := fun _ => List.not_mem_nil
  obtain ⟨n, hlevels⟩ : ∃ n, hollow.directories.length = n + 1 + 1 := ⟨22, by decide +kernel⟩
  have ha : (ringProject.packageRoot hollow "a" ⟨"/"⟩ none).answer .empty = .ok (.directory ⟨"/node_modules/a"⟩) :=
    ok_of_toOption (by decide +kernel)
  have hb : (ringProject.packageRoot hollow "b" ⟨"/"⟩ (some ⟨"/node_modules/a"⟩)).answer .empty =
      .ok (.directory ⟨"/node_modules/b"⟩) := ok_of_toOption (by decide +kernel)
  have hvisitA : shown (visit ringProject hollow ⟨"/"⟩ ⟨"/node_modules/a"⟩ "a") ⟨.empty, .empty⟩
      (fun m st => (m.dependedOn, m.isOptional "c", st.expansion)) = some (["c", "b", "c"], true, hollowOnce []) := by
    decide +kernel
  have hvisitB : shown (visit ringProject hollow ⟨"/node_modules/a"⟩ ⟨"/node_modules/b"⟩ "b")
      ⟨.empty, hollowOnce ["skip missing module app -> a -> c"]⟩
      (fun m st => (m.dependedOn, m.isOptional "c", st.expansion.warnings)) =
      some (["c"], false, ["skip missing module app -> a -> c"]) := by decide +kernel
  obtain ⟨a, st₀, hvisitA, hfactsA⟩ := exists_gives hvisitA
  obtain ⟨hdepsA, hoptional, hA⟩ : _ ∧ _ ∧ _ := by simpa using hfactsA
  obtain ⟨b, st₀', hvisitB, hfactsB⟩ := exists_gives hvisitB
  obtain ⟨hdepsB, hneeded, hwarnings⟩ : _ ∧ _ ∧ _ := by simpa using hfactsB
  obtain ⟨p, st, hst, hx, hrun⟩ := run_module_of_visit (throw (.file .other)) (n + 1 + 1) none ["app"] hs
    (proper_start .empty) rfl (hin "a") ha rfl hvisitA
  have hmay : mayMiss default "c" (some { a with path := p }) = true := by
    unfold mayMiss
    exact Bool.or_eq_true_iff.2 (.inr hoptional)
  obtain ⟨st₁, hst₁, hskipped, hskip⟩ := gives_module_of_missing (throw (.file .other)) (n + 1)
    (some ⟨⟨"/node_modules/a"⟩, { a with path := p }⟩) (["app"] ++ ["a"]) hs hst (hx.trans hA) (hin "c")
    (packageRoot_hollow (.inl rfl)) hmay
  have hx₁ : st₁.expansion = hollowOnce ["skip missing module app -> a -> c"] := hskipped.trans (by decide +kernel)
  obtain ⟨p', st', hst', hx', hrun'⟩ := run_module_of_visit (throw (.file .other)) (n + 1)
    (some ⟨⟨"/node_modules/a"⟩, { a with path := p }⟩) (["app"] ++ ["a"]) hs hst₁ hx₁ (hin "b") hb
    (by decide +kernel) hvisitB
  have hmust : ¬ mayMiss default "c" (some { b with path := p' }) = true := by
    unfold mayMiss
    rw [Bool.or_eq_true_iff, not_or]
    exact ⟨by decide +kernel, fun h => Bool.false_ne_true (hneeded.symm.trans h)⟩
  obtain ⟨ms, hfails⟩ := module_fails_of_missing (throw (.file .other)) n
    (some ⟨⟨"/node_modules/b"⟩, { b with path := p' }⟩) (["app"] ++ ["a"] ++ ["b"]) hs hst' hx' (hin "c")
    (packageRoot_hollow (.inr rfl)) hmust
  have hway : route (["app"] ++ ["a"] ++ ["b"]) "c" = "app -> a -> b -> c" := by decide +kernel
  rw [hdepsA] at hrun
  rw [hdepsB] at hrun'
  rw [hway] at hfails
  refine ⟨ms, st₀'.expansion, ?_, hwarnings⟩
  unfold expand
  rw [hlevels]
  -- `c` is passed over, `b` is visited, and there `c` is needed
  refine hrun.trans ((Gives.run_forM_cons (?_ : Gives _ st PUnit.unit st₁) _).trans (run_forM_cons_of_error ?_ _))
  · exact hskip
  refine hrun'.trans (run_forM_cons_of_error ?_ _)
  exact hfails

theorem expand_names_missing_hollow :
    ∃ ms x, (expand ringProject default hollow "a" ⟨"/"⟩ ["app"]).run.run ⟨.empty, .empty⟩ =
        (.error (.missingDependency "c" "app -> a -> b -> c"), ⟨ms, x⟩) ∧
      x.warnings = ["skip missing module app -> a -> c"] ∧
      Lacks ringProject default hollow .empty ⟨"/"⟩ [] "a" none ["app"] "c" "app -> a -> b -> c" ∧
      PassedOver ringProject default hollow .empty ⟨"/"⟩ [] "a" none ["app"] "skip missing module app -> a -> c" := by
  obtain ⟨ms, x, hrun, hwarnings⟩ := expand_hollow
  obtain ⟨hlacks, hpassed⟩ := expand_names_missing (r := Resolver.standard) rfl Disk.spelled_nil hrun
  exact ⟨ms, x, hrun, hwarnings, hlacks, hpassed _ (hwarnings ▸ List.mem_singleton_self _)⟩

end Stowage.Expand
