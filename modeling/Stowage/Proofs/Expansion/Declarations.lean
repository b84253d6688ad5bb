/-
Files that only declare types. What a manifest lists leaves them out, and the manifest is none itself, so that a call
brings one in only as the main file of a module. A main file is brought in whatever it is.
-/
import Stowage.Proofs.Expansion.Calls
import Stowage.Proofs.Path.Joined

open Stowage.Path

namespace Stowage

open Manifests

/-- A file only declares types if its name in the workspace says so. -/
theorem Package.isDeclaration_of_nameBelow {path root : Path} {n : String} (h : nameBelow path root = .ok n)
    (hn : isDeclaration ⟨n⟩ = true) : isDeclaration path = true := by
  unfold isDeclaration at hn ⊢
  obtain ⟨file, hfile, hends⟩ := (Option.any_eq_true ..).1 hn
  exact (Option.any_eq_true ..).2 ⟨file, fileName_of_nameBelow h hfile, hends⟩

theorem Package.not_isDeclaration_manifest (root : Path) : isDeclaration (root / manifestName) = false := by
  have hname : (root / manifestName).fileName = some manifestName := by
    rw [fileName_eq_some, moves_join root isPiece_manifestName, List.getLast?_concat]
    exact ⟨rfl, by decide⟩
  unfold isDeclaration
  rw [hname]
  decide +kernel

namespace Expand

/-- The main file of a module root lies in the root and is called `n`. -/
def IsMain (project : Project) (d : Disk) (known : Manifests) (root : Path) (n : String) : Prop :=
  ∃ m path, manifestAt d known root = .ok (some m) ∧
    (project.resolve d root (mainSpecifier m)).answer known = .ok (.file path) ∧
    path.startsWith root = true ∧ project.relative path = .ok n

section
variable {project : Project} {settings : ExpansionSettings} {d : Disk} {known : Manifests}

/-- Of what only declares types a root holds its main file. -/
theorem holdsName_declaration {root : Path} {n : String} (hn : Package.isDeclaration ⟨n⟩ = true) :
    HoldsName project d known root n ↔ IsMain project d known root n := by
  constructor
  · rintro ⟨m, path, hm, hholds, hname⟩
    have hpath : Package.isDeclaration path = true := Package.isDeclaration_of_nameBelow hname hn
    cases hholds with
    | listed hlists =>
      obtain ⟨negated, start, tree, -, -, -, hkept⟩ := hlists
      exact absurd hkept (by unfold isOmitted; rw [hpath]; exact Bool.noConfusion)
    | manifest => exact absurd hpath (by rw [Package.not_isDeclaration_manifest]; exact Bool.false_ne_true)
    | main hmain inside => exact ⟨m, path, hm, hmain, inside, hname⟩
  · rintro ⟨m, path, hm, hmain, inside, hname⟩
    exact ⟨m, path, hm, .main hmain inside, hname⟩

/-- A call that succeeds brings in files that only declare types as the main files of the roots that it visits, and
these always. -/
theorem call_declarations {r : Resolver} (hr : project.resolver = r.resolve) (hd : Disk.Spelled d.here)
    (calls : List Call) (c : Call) {before after : Expansion.State}
    (hbefore : afterCalls project settings d known calls = before)
    (h : c.run project settings d before = (.ok (), after)) :
    ∃ roots, after.expansion.visited = before.expansion.visited ++ roots ∧
      ∀ n, Package.isDeclaration ⟨n⟩ = true →
        (n ∈ after.expansion.files ↔ n ∈ before.expansion.files ∨ ∃ root ∈ roots, IsMain project d known root n) := by
  have hst : Proper d known before := hbefore ▸ proper_afterCalls hr hd calls
  have hnone : Known d known none := fun _ hneeding => nomatch hneeding
  obtain ⟨-, ⟨visits, hw⟩, -⟩ := deals_module (hr ▸ r.fixed_resolve hd) _ c.parents hnone before after hst h
  refine ⟨_, hw.visited, fun n hn => ?_⟩
  rw [hw.files n]
  refine or_congr_right ⟨?_, ?_⟩
  · rintro ⟨v, hv, hholds⟩
    exact ⟨v.root, List.mem_map_of_mem hv, (holdsName_declaration hn).1 hholds⟩
  · rintro ⟨root, hroot, hmain⟩
    obtain ⟨v, hv, rfl⟩ := List.mem_map.1 hroot
    exact ⟨v, hv, (holdsName_declaration hn).2 hmain⟩

end

/-! ### A main file that only declares types -/

/-- A package whose main file only declares types, as another file that it has does. -/
def typed : Disk where
  entries := [
    (["node_modules"], .directory),
    (["node_modules", "x"], .directory),
    (["node_modules", "x", "a.d.ts"], .file (.text "")),
    (["node_modules", "x", "index.d.ts"], .file (.text "")),
    (["node_modules", "x", "package.json"], .file (.text "\x7b\"main\":\"index.d.ts\"\x7d"))]
  here := []

def wanted : Call := ⟨"x", ⟨"/"⟩, []⟩

theorem run_wanted : ∃ after, wanted.run ringProject default typed (afterCalls ringProject default typed .empty []) =
    (.ok (), after) ∧ after.expansion.files = ["node_modules/x/index.d.ts", "node_modules/x/package.json"] := by
  have hrun : shown (expand ringProject default typed "x" ⟨"/"⟩ []) ⟨.empty, .empty⟩
      (fun _ st => st.expansion.files) =
      some ["node_modules/x/index.d.ts", "node_modules/x/package.json"] := by decide +kernel
  obtain ⟨_, after, hgives, hfiles⟩ := exists_gives hrun
  exact ⟨after, hgives, hfiles⟩

theorem isDeclaration_typed : Package.isDeclaration ⟨"node_modules/x/index.d.ts"⟩ = true := by decide +kernel

theorem call_declarations_typed : ∃ after roots,
    wanted.run ringProject default typed (afterCalls ringProject default typed .empty []) = (.ok (), after) ∧
      after.expansion.visited = roots ∧
      ∃ root ∈ roots, IsMain ringProject typed .empty root "node_modules/x/index.d.ts" := by
  obtain ⟨after, hrun, hfiles⟩ := run_wanted
  obtain ⟨roots, hvisited, hdeclarations⟩ := call_declarations (r := Resolver.standard) rfl Disk.spelled_nil [] wanted
    rfl hrun
  have hmem : "node_modules/x/index.d.ts" ∈ after.expansion.files := hfiles ▸ List.mem_cons_self ..
  have hmain := ((hdeclarations _ isDeclaration_typed).1 hmem).resolve_left List.not_mem_nil
  exact ⟨after, roots, hrun, hvisited, hmain⟩

/-- A call that succeeds may bring in a file that only declares types. -/
theorem exists_declaration_brought_in : ∃ after,
    wanted.run ringProject default typed (afterCalls ringProject default typed .empty []) = (.ok (), after) ∧
      ∃ n ∈ after.expansion.files, Package.isDeclaration ⟨n⟩ = true := by
  obtain ⟨after, hrun, hfiles⟩ := run_wanted
  exact ⟨after, hrun, _, hfiles ▸ List.mem_cons_self .., isDeclaration_typed⟩

end Expand

end Stowage
