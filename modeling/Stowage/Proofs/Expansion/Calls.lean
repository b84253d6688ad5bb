/-
Calls of one expander in a row, some of which may fail. What was expanded before a failure stays, and so do the roots
that count as visited; a call that is repeated after a failure succeeds without having done anything more.
-/
import Stowage.Proofs.Expansion.Alike

open Stowage.Path

namespace Stowage.Expand

open Manifests

/-! ## Calls in a row -/

/-- A call of an expander. -/
structure Call where
  name : String
  base : Path
  parents : List String
  deriving DecidableEq

section
variable (project : Project) (settings : ExpansionSettings) (d : Disk) (known : Manifests)

def Call.run (c : Call) (st : Expansion.State) : Except Error Unit × Expansion.State :=
  (expand project settings d c.name c.base c.parents).run.run st

/-- What an expander has come to after some calls, whether they failed or not. -/
def afterCalls (calls : List Call) : Expansion.State :=
  calls.foldl (fun st c => (c.run project settings d st).2) ⟨known, .empty⟩

/-- One of the calls has failed and left the root open. -/
def LeftOpen (calls : List Call) (root : Path) : Prop := ∃ before c after e chain,
  calls = before ++ c :: after ∧
    (c.run project settings d (afterCalls project settings d known before)).1 = .error e ∧
    Breaks project settings d known c.base c.name none c.parents e chain ∧ root ∈ chain

end

section
variable {project : Project} {settings : ExpansionSettings} {d : Disk} {known : Manifests} {r : Resolver}

theorem afterCalls_concat (calls : List Call) (c : Call) : afterCalls project settings d known (calls ++ [c]) =
    (c.run project settings d (afterCalls project settings d known calls)).2 := by
  unfold afterCalls
  rw [List.foldl_append]
  rfl

/-- A call for a module whose root is visited adds nothing. -/
theorem run_of_visited (hs : Fixed d known project.resolver) {c : Call} {root : Path} {st : Expansion.State}
    (hst : Proper d known st) (hlead : LeadsTo project settings d known c.base c.name none root)
    (hroot : root ∈ st.expansion.visited) :
    (c.run project settings d st).1 = .ok () ∧ (c.run project settings d st).2.expansion = st.expansion := by
  have hseen : (st.expansion.visited.any fun x => x.same root) = true :=
    List.any_eq_true.2 ⟨root, hroot, same_refl root⟩
  unfold Call.run expand
  rw [run_module_succ hs _ _ c.parents hst hlead.1]
  dsimp only [Option.map_none]
  rw [hlead.2]
  dsimp only
  rw [if_pos hseen]
  exact ⟨rfl, rfl⟩

/-- A call for a module whose root cannot be told fails each time. -/
theorem run_of_unresolved (hs : Fixed d known project.resolver) {c : Call} {e : Error} {st : Expansion.State}
    (hst : Proper d known st) (hx : c.name ∉ settings.exclude)
    (h : (project.packageRoot d c.name c.base none).answer known = .error e)
    (hm : e.isMissing = true → ¬ MayMiss settings d known c.name none) :
    (c.run project settings d st).1 = .error (reported c.name c.parents e) ∧
      (c.run project settings d st).2.expansion = st.expansion := by
  unfold Call.run expand
  rw [run_module_succ hs _ _ c.parents hst hx]
  dsimp only [Option.map_none]
  rw [h]
  dsimp only
  unfold passOver reported
  split
  · rename_i hmiss
    have hmay : ¬ mayMiss settings c.name (Option.map Needing.manifest none) = true := hm hmiss
    rw [if_neg hmay]
    exact ⟨rfl, rfl⟩
  · exact ⟨rfl, rfl⟩

/-- A call that succeeds has finished all that can be come to, unless it came to a root that was visited before and is
not finished. -/
theorem Completes.expandable {base : Path} {name : String} {x x' : Expansion}
    (h : Completes project settings d known base name x x')
    (hbefore : ∀ root ∈ x.visited, Expandable project settings d known base [name] root →
      Finished project settings d known base x root) :
    ∀ root, Expandable project settings d known base [name] root →
      Finished project settings d known base x' root := by
  have hvisited : ∀ root, Expandable project settings d known base [name] root → root ∈ x'.visited →
      Finished project settings d known base x' root := fun root hroot hin =>
    (h.finished root hin).elim (fun hr => (hbefore root hr hroot).mono h.grown) id
  intro root hroot
  induction hroot with
  | requested hname hlead =>
    obtain rfl := List.mem_singleton.1 hname
    exact hvisited _ (.requested hname hlead) (h.dealt.mem_visited hlead)
  | needed hneeding hn hlead ih =>
    exact hvisited _ (.needed hneeding hn hlead) ((ih.needed _ hn).mem_visited hlead)

variable (hr : project.resolver = r.resolve) (hd : Disk.Spelled d.here)
include hr hd

/-- A call either finishes what it visits and deals with the module, or it breaks off. -/
theorem run_cases (c : Call) {st : Expansion.State} (hst : Proper d known st) :
    Proper d known (c.run project settings d st).2 ∧
    ((c.run project settings d st).1 = .ok () ∧
      Completes project settings d known c.base c.name st.expansion (c.run project settings d st).2.expansion ∨
     ∃ e chain, (c.run project settings d st).1 = .error e ∧
      BreaksOff project settings d known c.base c.name none c.parents e chain st.expansion
        (c.run project settings d st).2.expansion) := by
  have hs : Fixed d known project.resolver := hr ▸ r.fixed_resolve hd
  have hk : Known d known none := fun _ h => nomatch h
  rcases hrun : c.run project settings d st with ⟨e | ⟨⟩, st'⟩
  · have hroots : ∀ root, Expandable project settings d known c.base [c.name] root → root ∈ d.directories :=
      fun _ => mem_directories_of_expandable hr hd
    obtain ⟨hst', chain, hbreaks⟩ := module_fails hs hroots hst hk (.requested (List.mem_singleton_self _))
      (Nat.lt_succ_of_le (unvisited_le _ st)) hrun
    exact ⟨hst', .inr ⟨e, chain, rfl, hbreaks⟩⟩
  · obtain ⟨hst', ⟨visits, hw⟩, hdealt⟩ := deals_module hs _ c.parents hk st st' hst hrun
    exact ⟨hst', .inl ⟨rfl, hw.grown, hdealt, hw.finished hs⟩⟩

theorem proper_afterCalls (calls : List Call) : Proper d known (afterCalls project settings d known calls) := by
  induction calls using List.reverseRecOn with
  | nil => exact proper_start known
  | append_singleton calls c ih =>
    rw [afterCalls_concat]
    exact (run_cases hr hd c ih).1

/-- What an expander has visited was finished by a call, or left open by one that failed. -/
theorem finished_or_leftOpen (calls : List Call) :
    ∀ root ∈ (afterCalls project settings d known calls).expansion.visited,
      LeftOpen project settings d known calls root ∨
        ∃ c ∈ calls, Finished project settings d known c.base (afterCalls project settings d known calls).expansion
          root := by
  induction calls using List.reverseRecOn with
  | nil => exact fun _ h => absurd h List.not_mem_nil
  | append_singleton calls c ih =>
    intro root hroot
    rw [afterCalls_concat] at hroot ⊢
    -- what was so before the last call stays so
    have hold : ∀ x', Grown (afterCalls project settings d known calls).expansion x' →
        root ∈ (afterCalls project settings d known calls).expansion.visited →
        LeftOpen project settings d known (calls ++ [c]) root ∨
          ∃ b ∈ calls ++ [c], Finished project settings d known b.base x' root := by
      intro x' hgrown hvisited
      rcases ih root hvisited with ⟨before, b, after, e, chain, rfl, hfailed⟩ | ⟨b, hb, hfinished⟩
      · exact .inl ⟨before, b, after ++ [c], e, chain, by simp, hfailed⟩
      · exact .inr ⟨b, List.mem_append_left _ hb, hfinished.mono hgrown⟩
    have hc : c ∈ calls ++ [c] := List.mem_append_right _ (List.mem_singleton_self c)
    obtain ⟨-, ⟨-, hcompletes⟩ | ⟨e, chain, he, hbreaks⟩⟩ :=
      run_cases hr hd c (proper_afterCalls hr hd calls)
    · rcases hcompletes.finished root hroot with hvisited | hfinished
      · exact hold _ hcompletes.grown hvisited
      · exact .inr ⟨c, hc, hfinished⟩
    · rcases hbreaks.finished root hroot with hvisited | hchain | hfinished
      · exact hold _ hbreaks.grown hvisited
      · exact .inl ⟨calls, c, [], e, chain, rfl, he, hbreaks.breaks, hchain⟩
      · exact .inr ⟨c, hc, hfinished⟩

/-- An expander after any calls, whether they failed or not: what it has visited was finished by one of them, or left
open by one that failed. Another call that succeeds has dealt with its module, and has finished all that can be come to
from it if what was visited of that before was finished. One that fails leaves a chain of roots open. When it is
repeated it fails in the same way only if the root of its own module cannot be told; otherwise it succeeds and adds
nothing. -/
theorem calls_leave_open (calls : List Call) (c : Call) :
    (∀ root ∈ (afterCalls project settings d known calls).expansion.visited,
      LeftOpen project settings d known calls root ∨
        ∃ b ∈ calls, Finished project settings d known b.base (afterCalls project settings d known calls).expansion
          root) ∧
    ((c.run project settings d (afterCalls project settings d known calls)).1 = .ok () →
      Dealt project settings d known c.base (afterCalls project settings d known (calls ++ [c])).expansion c.name none ∧
      ((∀ root ∈ (afterCalls project settings d known calls).expansion.visited,
          Expandable project settings d known c.base [c.name] root →
          Finished project settings d known c.base (afterCalls project settings d known calls).expansion root) →
        ∀ root, Expandable project settings d known c.base [c.name] root →
          Finished project settings d known c.base (afterCalls project settings d known (calls ++ [c])).expansion
            root)) ∧
    ∀ e, (c.run project settings d (afterCalls project settings d known calls)).1 = .error e →
      ∃ chain, BreaksOff project settings d known c.base c.name none c.parents e chain
          (afterCalls project settings d known calls).expansion
          (afterCalls project settings d known (calls ++ [c])).expansion ∧
        (c.run project settings d (afterCalls project settings d known (calls ++ [c]))).1 =
          (if chain = [] then .error e else .ok ()) ∧
        (c.run project settings d (afterCalls project settings d known (calls ++ [c]))).2.expansion =
          (afterCalls project settings d known (calls ++ [c])).expansion := by
  have hs : Fixed d known project.resolver := hr ▸ r.fixed_resolve hd
  have hst : Proper d known (afterCalls project settings d known calls) := proper_afterCalls hr hd calls
  have hst' : Proper d known (afterCalls project settings d known (calls ++ [c])) := proper_afterCalls hr hd _
  refine ⟨finished_or_leftOpen hr hd calls, fun hok => ?_, fun e he => ?_⟩
  · rw [afterCalls_concat]
    obtain ⟨-, ⟨-, hcompletes⟩ | ⟨e, chain, he, -⟩⟩ := run_cases hr hd c hst
    · exact ⟨hcompletes.dealt, hcompletes.expandable⟩
    · rw [hok] at he
      cases he
  · obtain ⟨-, ⟨hok, -⟩ | ⟨e', chain, he', hbreaks⟩⟩ := run_cases hr hd c hst
    · rw [hok] at he
      cases he
    · obtain rfl := Except.error.inj (he.symm.trans he')
      rw [← afterCalls_concat] at hbreaks
      refine ⟨chain, hbreaks, ?_⟩
      -- where the root could be told it was visited first, so that the repeated call passes over it
      rcases hbreaks.breaks with ⟨hx, h, hm⟩ | ⟨hlead, -⟩ | ⟨hlead, -, -⟩
      · rw [if_pos rfl]
        exact run_of_unresolved hs hst' hx h hm
      · rw [if_neg (List.cons_ne_nil _ _)]
        exact run_of_visited hs hst' hlead (hbreaks.started _ (List.mem_cons_self ..)).1
      · rw [if_neg (List.cons_ne_nil _ _)]
        exact run_of_visited hs hst' hlead (hbreaks.started _ (List.mem_cons_self ..)).1

end

/-- A package whose dependency is not installed. -/
def haunted : Disk where
  entries := [
    (["node_modules"], .directory),
    (["node_modules", "broken"], .directory),
    (["node_modules", "broken", "index.js"], .file (.text "")),
    (["node_modules", "broken", "package.json"],
      .file (.text "\x7b\"name\":\"broken\",\"dependencies\":\x7b\"ghost\":\"1\"\x7d\x7d")),
    (["package.json"], .file (.text "\x7b\"name\":\"app\"\x7d"))]
  here := []

/-- The package is asked for. -/
def broken : Call := ⟨"broken", ⟨"/"⟩, []⟩

theorem packageRoot_broken : (ringProject.packageRoot haunted "broken" ⟨"/"⟩ none).answer .empty =
    .ok (.directory ⟨"/node_modules/broken"⟩) := ok_of_toOption (by decide +kernel)

/-- The package is found and visited, but its dependency is missing. -/
theorem run_broken : (broken.run ringProject default haunted ⟨.empty, .empty⟩).1 =
    .error (.missingDependency "ghost" "broken -> ghost") := by
  have hs : Fixed haunted .empty ringProject.resolver := Resolver.standard.fixed_resolve Disk.spelled_nil
  have hin : ∀ name, name ∉ (default : ExpansionSettings).exclude := fun _ => List.not_mem_nil
  obtain ⟨n, hlevels⟩ : ∃ n, haunted.directories.length = n + 1 := ⟨14, by decide +kernel⟩
  have hvisit : shown (visit ringProject haunted ⟨"/"⟩ ⟨"/node_modules/broken"⟩ "broken") ⟨.empty, .empty⟩
      (fun m _ => (m.dependedOn, m.isOptional "ghost")) = some (["ghost"], false) := by decide +kernel
  have hnear : ringProject.misses haunted .empty ⟨"/node_modules/broken"⟩ "ghost" = true := by decide +kernel
  have hnear' : ringProject.misses haunted .empty ⟨"/node_modules/broken"⟩ ("ghost" ++ "/" ++ manifestName) = true := by
    decide +kernel
  have hstart : ringProject.misses haunted .empty ⟨"/"⟩ "ghost" = true := by decide +kernel
  have hstart' : ringProject.misses haunted .empty ⟨"/"⟩ ("ghost" ++ "/" ++ manifestName) = true := by decide +kernel
  have hmissing : (ringProject.packageRoot haunted "ghost" ⟨"/"⟩ (some ⟨"/node_modules/broken"⟩)).answer .empty =
      .error (.moduleNotFound "ghost" ⟨"/"⟩) := by
    refine Project.answer_packageRoot_of_misses hs fun from_ hfrom => ?_
    simp only [List.mem_cons, List.not_mem_nil, or_false] at hfrom
    rcases hfrom with rfl | rfl
    · exact ⟨hnear, hnear'⟩
    · exact ⟨hstart, hstart'⟩
  obtain ⟨m, st₀, hvisit, hfacts⟩ := exists_gives hvisit
  obtain ⟨hdeps, hneeded⟩ := Prod.mk.inj hfacts
  obtain ⟨p, st, hst, hx, hrun⟩ := run_module_of_visit (throw (.file .other)) (n + 1) none [] hs (proper_start .empty)
    rfl (hin "broken") packageRoot_broken rfl hvisit
  have hmust : ¬ mayMiss default "ghost" (some { m with path := p }) = true := by
    unfold mayMiss
    rw [Bool.or_eq_true_iff, not_or]
    exact ⟨by decide +kernel, fun h => Bool.false_ne_true (hneeded.symm.trans h)⟩
  obtain ⟨ms, hfails⟩ := module_fails_of_missing (throw (.file .other)) n
    (some ⟨⟨"/node_modules/broken"⟩, { m with path := p }⟩) ([] ++ ["broken"]) hs hst hx (hin "ghost") hmissing hmust
  have hway : route ([] ++ ["broken"]) "ghost" = "broken -> ghost" := by decide +kernel
  rw [hdeps] at hrun
  rw [hway] at hfails
  have hexpand : (expand ringProject default haunted "broken" ⟨"/"⟩ []).run.run ⟨.empty, .empty⟩ =
      (.error (.missingDependency "ghost" "broken -> ghost"), ⟨ms, st₀.expansion⟩) := by
    unfold expand
    rw [hlevels]
    refine hrun.trans (run_forM_cons_of_error ?_ _)
    exact hfails
  exact congrArg Prod.fst hexpand

theorem calls_leave_open_broken :
    (broken.run ringProject default haunted (afterCalls ringProject default haunted .empty [])).1 =
        .error (.missingDependency "ghost" "broken -> ghost") ∧
      (broken.run ringProject default haunted (afterCalls ringProject default haunted .empty [broken])).1 = .ok () ∧
      ∃ root, LeftOpen ringProject default haunted .empty [broken] root := by
  have hr : ringProject.resolver = Resolver.standard.resolve := rfl
  obtain ⟨chain, hbreaks, hrepeat, -⟩ := (calls_leave_open hr Disk.spelled_nil [] broken).2.2 _ run_broken
  have hchain : chain ≠ [] := hbreaks.breaks.ne_nil packageRoot_broken
  obtain ⟨root, hroot⟩ := List.exists_mem_of_ne_nil chain hchain
  rw [if_neg hchain] at hrepeat
  exact ⟨run_broken, hrepeat, root, [], broken, [], _, chain, rfl, run_broken, hbreaks.breaks, hroot⟩

end Stowage.Expand
