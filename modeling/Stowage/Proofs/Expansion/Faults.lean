/-
What an expansion can fail with, by cause. Whatever is added fails with a path outside of the workspace, a pattern or a
file. The root of a module cannot be told where the way modules are resolved fails, or where the module is missing.
-/
import Stowage.Proofs.Expansion.Listed

open Stowage.Path

namespace Stowage

open Manifests

/-- The error is about a path outside of the workspace, a pattern or a file. -/
inductive Error.IsLocal : Error → Prop
  | outsideWorkspace (path root : Path) : IsLocal (.outsideWorkspace path root)
  | pattern (fault : Glob.Fault) : IsLocal (.pattern fault)
  | file (fault : FileFault) : IsLocal (.file fault)

/-- A manifest that is on the disk cannot be read as a file, or as a manifest. -/
theorem Manifests.readAt_error {d : Disk} {p : Path} {e : Error} (h : readAt d p = .error e) :
    (∃ fault, e = .file fault) ∨ ∃ file fault, e = .manifestInvalid file fault := by
  dsimp only [readAt] at h
  split at h
  · split at h
    · unfold Manifest.parse at h
      split at h
      · cases h
      · cases h
        exact .inr ⟨_, _, rfl⟩
    · cases h
      exact .inl ⟨_, rfl⟩
  · cases h

/-- A manifest that is required cannot be loaded, or there is none. -/
theorem Manifests.fails_require {P : Error → Prop} {d : Disk} {p : Path} (hload : Fails P (load d p))
    (hnone : P (.manifestNotFound (manifestPath p))) : Fails P (require d p) := by
  refine fails_bind hload fun m => ?_
  split
  · exact fails_pure _
  · exact fails_throw hnone

/-! ## Roots of modules -/

namespace Project

variable {s : Project} {d : Disk} {P : Error → Prop}
  (hresolver : ∀ base specifier, Fails P (s.resolver d base specifier)) (hmissing : ∀ e, e.isMissing = true → P e)
include hresolver hmissing

theorem fails_resolve (base : Path) (specifier : String) : Fails P (s.resolve d base specifier) := by
  refine fails_tryCatch (hresolver base specifier) fun e he => fails_throw ?_
  split
  · exact hmissing _ rfl
  · exact he

theorem fails_findEntry (base : Path) (name : String) : Fails P (s.findEntry d base name) := by
  refine fails_tryCatch (fails_resolve hresolver hmissing base name) fun e he => ?_
  split
  · exact fails_tryCatch (fails_resolve hresolver hmissing base _) fun _ _ => fails_throw he
  · exact fails_throw he

theorem fails_packageRoot (name : String) (base : Path) (needing : Option Path) :
    Fails P (s.packageRoot d name base needing) := by
  have hfind := fails_findEntry hresolver hmissing
  have hresolveFor : Fails P (s.resolveFor d base needing name) := by
    unfold resolveFor
    split
    · exact hfind base name
    · refine fails_tryCatch (hfind _ name) fun e he => ?_
      split
      · exact hfind base name
      · exact fails_throw he
  refine fails_bind hresolveFor fun r => ?_
  split
  · exact fails_pure _
  · refine fails_bind (Package.fails_rootDirectory d name _) fun found => ?_
    split
    · exact fails_pure _
    · exact fails_throw (hmissing _ rfl)

end Project

namespace Expand

section
variable {P : Error → Prop} {α : Type}

theorem fails_ask {q : Query α} (h : Fails P q) : Fails P (ask q) := fun st e he => h st.manifests e he

theorem fails_outcome (q : Query α) : Fails P (ask (Query.outcome q)) := by
  intro st e he
  rw [run_ask, Query.answer_outcome] at he
  cases he

theorem fails_change (f : Expansion → Expansion) : Fails P (change f) := fun _ _ h => nomatch h

theorem fails_ofExcept {r : Except Error α} (h : ∀ e, r = .error e → P e) : Fails P (ofExcept r) := by
  intro st e he
  rw [ofExcept, run_ask, Query.answer_ofExcept] at he
  exact h e he

end

/-! ## What is added -/

/-- What a list of patterns fails with is a pattern. -/
theorem exists_pattern_of_matched {d : Disk} {root : Path} {texts : List String} {e : Error}
    (h : matched d root texts = .error e) : ∃ fault, e = .pattern fault := by
  induction texts with
  | nil => cases h
  | cons text rest ih =>
    rw [matched] at h
    split at h
    · rename_i r _
      unfold Workspace.compilePattern at h
      rcases hc : Glob.compile (bareText (String.ofList r)) with fault | p
      · rw [hc] at h
        cases h
        exact ⟨fault, rfl⟩
      rcases hm : matched d root rest with e' | ⟨negated, paths⟩
      · rw [hc, hm] at h
        cases h
        exact ih hm
      rw [hc, hm] at h
      cases h
    · dsimp only at h
      rcases hf : Glob.expand d Glob.levels (Glob.literal root.text ++ "/" ++ bareText text) with fault | found
      · rw [hf] at h
        cases h
        exact ⟨fault, rfl⟩
      rcases hm : matched d root rest with e' | ⟨negated, paths⟩
      · rw [hf, hm] at h
        cases h
        exact ih hm
      rw [hf, hm] at h
      cases h

section
variable {P : Error → Prop} (hP : ∀ e : Error, e.IsLocal → P e) {project : Project} {d : Disk}
include hP

theorem fails_relative (path : Path) : Fails P (ofExcept (project.relative path)) := by
  refine fails_ofExcept fun e he => hP e ?_
  unfold Project.relative nameBelow at he
  split at he
  · cases he
  · cases he
    exact .outsideWorkspace _ _

theorem fails_addFile (path : Path) : Fails P (addFile project path) :=
  fails_bind (fails_relative hP path) fun _ => fails_change _

theorem fails_addLink (path : Path) : Fails P (addLink project path) :=
  fails_bind (fails_relative hP path) fun _ => fails_change _

theorem fails_addAt (root : Path) (negated : List Glob.Pattern) (path : Path) :
    Fails P (addAt project d root negated path) := by
  have htree : Fails P (ask (Query.ofDisk (d.tree path))) := by
    rcases d.tree path with e | entries
    · exact fails_ask (fails_throw (hP _ (.file e)))
    · exact fails_ask (fails_pure entries)
  refine fails_bind htree fun entries => fails_forM (fun entry => ?_) entries
  unfold addEntry
  split
  · exact fails_pure _
  · split
    · exact fails_addLink hP _
    · exact fails_addFile hP _
    · exact fails_pure _

theorem fails_addListed (root : Path) (m : Manifest) : Fails P (addListed project d root m) := by
  have hall : Fails P (addAll project d root m) := by
    unfold addAll
    split
    · refine fails_bind (fails_ofExcept fun e he => ?_) fun r => fails_forM (fails_addAt hP root r.1) r.2
      obtain ⟨fault, rfl⟩ := exists_pattern_of_matched he
      exact hP _ (.pattern fault)
    · exact fails_addAt hP root [] root
  have hmain : Fails P (addMain project d root m) := by
    refine fails_bind (fails_outcome _) fun r => ?_
    split
    · split
      · exact fails_addFile hP _
      · exact fails_pure _
    · exact fails_pure _
  exact fails_bind hall fun _ => fails_bind (fails_addFile hP _) fun _ => hmain

theorem fails_addPlace (name : String) (base : Path) : Fails P (addPlace project d name base) := by
  unfold addPlace
  split
  · split
    · exact fails_addLink hP _
    · exact fails_pure _
  · exact fails_pure _

/-- A visit fails where the manifest of the root does, or something that is added. -/
theorem fails_visit {base root : Path} (hrequire : Fails P (require d root)) (name : String) :
    Fails P (visit project d base root name) :=
  fails_bind (fails_change _) fun _ => fails_bind (fails_ask hrequire) fun m =>
    fails_bind (fails_addListed hP root m) fun _ => fails_bind (fails_addPlace hP name base) fun _ => fails_pure m

end

end Expand

end Stowage
