/-
What a bundle leaves behind, whether it succeeds or not. Until the compiler is called it changes nothing but the
working directory, and what is wrong with the settings or the service is told before that. From then on there is
no working directory when the bundle returns, unless it is to be kept or cannot be removed.
-/
import Stowage.Proofs.Bundle.Inputs

open Stowage.Path

namespace Stowage

/-! ## A tree that was removed -/

namespace Disk

variable {d d' : Disk} {p : Path}

theorem pathExists_eq_false (h : ∀ x, d.find p ≠ .ok x) : d.pathExists p = false := by
  unfold pathExists
  rcases hf : d.find p with e | x
  · rfl
  · exact absurd hf (h x)

/-- A link that was removed leads nowhere. -/
theorem find_ne_of_link {l : Location} {t : String} (hl : d.locate false p = .ok (.found l (.link t)))
    (x : Location × Entry) : (d.erase l).find p ≠ .ok x := by
  rcases named_locate hl with ⟨l', hl'⟩ | ⟨l', s, hs, h1, h2, hloc⟩
  · cases hl'
  · change l = l' ++ [s] at hloc
    obtain ⟨before, hsteps⟩ := List.getLast?_eq_some_iff.1 hs
    refine find_ne_of_gone hsteps h1 h2 (fun _ _ => (pruned_erase d l).sub) rfl hl ?_ x
    rw [entry?_erase d (by simp [hloc]), if_pos (List.isPrefixOf_iff_prefix.2 (List.prefix_refl l))]

/-- A directory that was removed is not found by any spelling of its path. -/
theorem find_ne_of_directory {top : Location} (htop : d.locate false p = .ok (.found top .directory))
    (hbare : d.locate false (withoutSlash p) = .ok (.found top .directory))
    (hname : checkName (withoutSlash p) .invalidInput .directoryNotEmpty = .ok ())
    (x : Location × Entry) : (d.erase top).find p ≠ .ok x := by
  obtain ⟨before, s, up, hsteps, h1, h2, hloc⟩ := exists_name_of_checkName hbare hname
  intro hx
  have hsub : ∀ l e, entry? (d.erase top) l = some e → d.entry? l = some e := fun _ _ =>
    (pruned_erase d top).sub
  -- the path could only lead to the directory that is gone
  obtain rfl : x = (top, .directory) := by
    have hfull := locate_of_find (find_sub hsub rfl hx)
    rw [locate_true_of_directory htop] at hfull
    exact Prod.ext (Place.found.inj (Except.ok.inj hfull)).1.symm (Place.found.inj (Except.ok.inj hfull)).2.symm
  have hsame := (d.erase top).locate_directory_of_same (same_symm (same_withoutSlash p)) (locate_of_find hx)
  refine find_ne_of_gone hsteps h1 h2 hsub rfl hbare ?_ (top, .directory) ?_
  · rw [entry?_erase d (by simp [hloc]), if_pos (List.isPrefixOf_iff_prefix.2 (List.prefix_refl top))]
  · unfold find
    rw [hsame]
    rfl

end Disk

namespace Bundle

variable {o : BundleSettings} {d : Disk} {p : Path}

/-- Removing a path works where there is anything to remove. -/
def Removable (d : Disk) (p : Path) : Prop :=
  d.pathExists p = true → ((Disk.removeTree p).run.run d).1 = .ok ()

/-- What can be removed is gone. -/
theorem pathExists_cleared (h : Removable d p) : (cleared d p).pathExists p = false := by
  unfold cleared
  split
  · rename_i hexists
    have hok := h hexists
    rcases Disk.run_removeTree p d with ⟨e, hrun, -⟩ | ⟨l, t, hlink, hrun⟩ |
      ⟨top, htop, ⟨e, hrun⟩ | ⟨hbare, hname, hrun⟩⟩
    · rw [hrun] at hok
      cases hok
    · rw [hrun]
      exact Disk.pathExists_eq_false (Disk.find_ne_of_link hlink)
    · rw [hrun] at hok
      cases hok
    · rw [hrun]
      exact Disk.pathExists_eq_false (Disk.find_ne_of_directory htop hbare hname)
  · rename_i hno
    exact Bool.eq_false_iff.2 hno

/-! ## Before the compiler is called -/

/-- Why a bundle cannot be made, in the order in which that is found out. -/
inductive Refused (o : BundleSettings) (d : Disk) : Error → Prop
  | noEntries (h : o.entries = []) : Refused o d .noEntries
  | noOutputDir (hentries : o.entries ≠ []) (h : o.output = none) : Refused o d .noOutputDir
  | invalidLevel (hentries : o.entries ≠ []) (houtput : o.output ≠ none) (h : 9 < o.level) :
      Refused o d (.invalidLevel o.level)
  /-- The service is not found. -/
  | service {f : FileFault} (hentries : o.entries ≠ []) (houtput : o.output ≠ none) (hlevel : o.level ≤ 9)
      (h : d.canonicalize o.serviceDir = .error f) : Refused o d (.file f)
  /-- The workspace of the service is not found. -/
  | workspace {dir : Path} {e : Error} (hentries : o.entries ≠ []) (houtput : o.output ≠ none)
      (hlevel : o.level ≤ 9) (hdir : d.canonicalize o.serviceDir = .ok dir)
      (h : (Workspace.root d dir).answer .empty = .error e) : Refused o d e

theorem outputDir_ok (hentries : o.entries ≠ []) (houtput : o.output ≠ none) (hlevel : o.level ≤ 9) :
    ∃ output, outputDir o = .ok output := by
  obtain ⟨output, ho⟩ := Option.ne_none_iff_exists'.1 houtput
  refine ⟨output, ?_⟩
  unfold outputDir
  rw [if_neg (by simpa using hentries), ho]
  exact if_neg (Nat.not_lt.2 hlevel)

/-- A bundle that cannot be made fails for that reason and changes nothing. -/
theorem Refused.run_bundle {e : Error} {w : World} (h : Refused o w.disk e) (compiler : Compiler) :
    (bundle compiler o).run.run w = (.error e, w) := by
  have hdisk : (Action.disk).run.run w = (.ok w.disk, w) := rfl
  have hrefused : ∀ {e : Error}, outputDir o = .error e → (bundle compiler o).run.run w = (.error e, w) := by
    intro e he
    unfold bundle
    rw [run_bind, run_ofExcept, he]
  cases h with
  | noEntries h =>
    refine hrefused ?_
    unfold outputDir
    rw [h]
    rfl
  | noOutputDir hentries h =>
    refine hrefused ?_
    unfold outputDir
    rw [if_neg (by simpa using hentries), h]
  | invalidLevel hentries houtput h =>
    refine hrefused ?_
    obtain ⟨output, ho⟩ := Option.ne_none_iff_exists'.1 houtput
    unfold outputDir
    rw [if_neg (by simpa using hentries), ho]
    exact if_pos h
  | service hentries houtput hlevel h =>
    obtain ⟨output, ho⟩ := outputDir_ok hentries houtput hlevel
    unfold bundle
    rw [run_bind, run_ofExcept, ho]
    dsimp only
    rw [run_bind, Action.run_ask, h]
    rfl
  | @workspace dir _ hentries houtput hlevel hdir h =>
    obtain ⟨output, ho⟩ := outputDir_ok hentries houtput hlevel
    have hopen : (openProject w.disk dir o.sourceType).answer .empty = .error e := by
      show ((openProject w.disk dir o.sourceType).run.run .empty).1 = _
      unfold openProject
      rw [run_bind]
      change ((Workspace.root w.disk dir).run.run .empty).1 = _ at h
      rcases hr : (Workspace.root w.disk dir).run.run .empty with ⟨f | root, ms⟩
      · rw [hr] at h
        cases h
        rfl
      · rw [hr] at h
        cases h
    unfold bundle
    simp only [run_bind, run_ofExcept, ho, Action.run_ask, hdir, Except.mapError, hdisk, run_ask, hopen,
      Except.map]

/-- What a bundle has when it calls the compiler. -/
structure Start where
  output : Path
  serviceDir : Path
  project : Project
  known : Manifests
  world : World

/-- The bundle has come to where it calls the compiler. -/
structure Start.Reached (o : BundleSettings) (w : World) (x : Start) : Prop where
  allowed : outputDir o = .ok x.output
  service : w.disk.canonicalize o.serviceDir = .ok x.serviceDir
  opened : Gives (openProject w.disk x.serviceDir o.sourceType) .empty x.project x.known
  cleared : Gives (clear (x.serviceDir.join o.buildDir)) w () x.world

namespace Start

variable {compiler : Compiler} {w : World} {x : Start}

def workDir (x : Start) (o : BundleSettings) : Path := x.serviceDir.join o.buildDir

/-- Compiling and packing. -/
def build (x : Start) (compiler : Compiler) (o : BundleSettings) : Action Report :=
  Bundle.build compiler x.project x.known o (x.workDir o) x.output

/-- What is compiled and packed is what comes of the bundle, and a clean-up follows. -/
theorem Reached.run_bundle (h : x.Reached o w) (compiler : Compiler) :
    ((bundle compiler o).run.run w).1 = ((x.build compiler o).run.run x.world).1 ∧
    ((bundle compiler o).run.run w).2.disk =
      if o.keepBuild then ((x.build compiler o).run.run x.world).2.disk
      else Bundle.cleared ((x.build compiler o).run.run x.world).2.disk (x.workDir o) := by
  have hclear : (clear (x.serviceDir.join o.buildDir)).run.run w = (.ok (), x.world) := h.cleared
  rw [Bundle.run_bundle h.allowed h.service h.opened, run_bind, hclear]
  exact run_buildOnce x.project x.known x.world

end Start

/-- A bundle that succeeds has come to the compiler, and compiling and packing have succeeded. -/
theorem exists_start {compiler : Compiler} {w w' : World} {report : Report}
    (h : Gives (bundle compiler o) w report w') : ∃ x : Start, x.Reached o w ∧
      ∃ w₁, Gives (x.build compiler o) x.world report w₁ ∧
        w'.disk = if o.keepBuild then w₁.disk else cleared w₁.disk (x.workDir o) := by
  obtain ⟨x, hx⟩ : ∃ x : Start, x.Reached o w := by
    unfold Gives at h
    rcases bundle_cases compiler o w with ⟨e, hrun⟩ | ⟨output, dir, s, ms, houtput, hdir, hopen⟩
    · rw [hrun] at h
      cases h
    · rw [run_bundle houtput hdir hopen] at h
      obtain ⟨_, w₁, hclear, -⟩ := gives_bind.1 h
      exact ⟨⟨output, dir, s, ms, w₁⟩, houtput, hdir, hopen, hclear⟩
  obtain ⟨hresult, hdisk⟩ := hx.run_bundle compiler
  unfold Gives at h
  rw [h] at hresult hdisk
  exact ⟨x, hx, ((x.build compiler o).run.run x.world).2, Prod.ext hresult.symm rfl, hdisk⟩

/-- A bundle that does not come to the compiler does not depend on it. -/
theorem run_bundle_of_not_reached {w : World} (h : ¬ ∃ x : Start, x.Reached o w) (compiler compiler' : Compiler) :
    (bundle compiler o).run.run w = (bundle compiler' o).run.run w := by
  have hdisk : (Action.disk).run.run w = (.ok w.disk, w) := rfl
  by_cases hopen : ∃ output dir s ms, outputDir o = .ok output ∧ w.disk.canonicalize o.serviceDir = .ok dir ∧
      Gives (openProject w.disk dir o.sourceType) .empty s ms
  · obtain ⟨output, dir, s, ms, houtput, hdir, hopened⟩ := hopen
    rw [run_bundle houtput hdir hopened, run_bundle houtput hdir hopened, run_bind, run_bind]
    rcases hclear : (clear (dir.join o.buildDir)).run.run w with ⟨e | u, w₁⟩
    · rfl
    · exact absurd ⟨⟨output, dir, s, ms, w₁⟩, houtput, hdir, hopened, hclear⟩ h
  · unfold bundle
    simp only [run_bind, run_ofExcept]
    rcases houtput : outputDir o with e | output
    · rfl
    simp only [Action.run_ask]
    rcases hdir : w.disk.canonicalize o.serviceDir with e | dir
    · rfl
    simp only [Except.mapError, hdisk, run_ask]
    rcases hanswer : (openProject w.disk dir o.sourceType).answer .empty with e | s
    · rfl
    · exact absurd ⟨output, dir, s, _, houtput, hdir, Prod.ext hanswer rfl⟩ hopen

/-- What cannot be bundled is refused for the first reason there is, with nothing changed. A bundle that is to keep
no compiled files and comes to the compiler ends as compiling and packing do, whatever compiler it is given, and
leaves no working directory if the one that they leave can be removed. Only a bundle that comes there calls the
compiler at all. -/
theorem bundle_cleans_up (o : BundleSettings) (hkeep : o.keepBuild = false) (w : World) :
    (∀ e, Refused o w.disk e → ∀ compiler, (bundle compiler o).run.run w = (.error e, w)) ∧
    (∀ x : Start, x.Reached o w → ∀ compiler,
      ((bundle compiler o).run.run w).1 = ((x.build compiler o).run.run x.world).1 ∧
      (Removable ((x.build compiler o).run.run x.world).2.disk (x.workDir o) →
        ((bundle compiler o).run.run w).2.disk.pathExists (x.workDir o) = false)) ∧
    ((¬ ∃ x : Start, x.Reached o w) → ∀ compiler compiler',
      (bundle compiler o).run.run w = (bundle compiler' o).run.run w) := by
  refine ⟨fun e he => he.run_bundle, fun x hx compiler => ?_, run_bundle_of_not_reached⟩
  obtain ⟨hresult, hdisk⟩ := hx.run_bundle compiler
  refine ⟨hresult, fun hremovable => ?_⟩
  rw [hdisk, hkeep]
  exact pathExists_cleared hremovable

/-! ### A compiler that fails -/

/-- A compiler that leaves a file in the working directory and fails. -/
def abandon : Compiler := fun job => do
  Action.change (Disk.createDirectories job.outDir)
  Action.change (Disk.write (job.outDir / "main.js") (.text "1;"))
  throw .emptyOutput

/-- The disk that it leaves. -/
def abandoned : Disk :=
  ((abandon ⟨[], [], .commonJs, ⟨"/"⟩, ⟨"/build"⟩⟩).run.run ⟨sourced, []⟩).2.disk

/-- What the compiler leaves is gone when the bundle returns. -/
theorem bundle_cleans_up_abandoned :
    abandoned.pathExists ⟨"/build/main.js"⟩ = true ∧
    ((bundle abandon (sourcedSettings "build")).run.run ⟨sourced, []⟩).1.toOption.isSome = false ∧
    ((bundle abandon (sourcedSettings "build")).run.run ⟨sourced, []⟩).2.disk.pathExists ⟨"/build"⟩ = false := by
  have hopen : shown (openProject sourced ⟨"/"⟩ .commonJs) .empty (fun s _ => s.start) = some ⟨"/"⟩ := by
    decide +kernel
  have hthere : abandoned.pathExists ⟨"/build/main.js"⟩ = true := by decide +kernel
  have hfails : ((abandon ⟨[], [], .commonJs, ⟨"/"⟩, ⟨"/build"⟩⟩).run.run ⟨sourced, []⟩).1.toOption.isSome = false := by
    decide +kernel
  have hremoved : ((Disk.removeTree ⟨"/build"⟩).run.run abandoned).1.toOption = some () := by decide +kernel
  have hdir : (⟨"/"⟩ : Path).join (sourcedSettings "build").buildDir = ⟨"/build"⟩ := by decide
  have hclear : (clear ⟨"/build"⟩).run.run ⟨sourced, []⟩ = (.ok (), ⟨sourced, []⟩) := by
    have hno : sourced.pathExists ⟨"/build"⟩ = false := by decide +kernel
    rw [run_clear]
    unfold cleared
    rw [hno]
    rfl
  obtain ⟨s, ms, hs, -⟩ := exists_gives hopen
  obtain ⟨x, hx⟩ : ∃ x : Start, x = ⟨⟨"/out"⟩, ⟨"/"⟩, s, ms, ⟨sourced, []⟩⟩ := ⟨_, rfl⟩
  have hreached : x.Reached (sourcedSettings "build") ⟨sourced, []⟩ := by
    subst hx
    exact ⟨rfl, ok_of_toOption canonicalize_sourced, hs, by rw [hdir]; exact hclear⟩
  have hworkDir : x.workDir (sourcedSettings "build") = ⟨"/build"⟩ := by
    subst hx
    exact hdir
  -- the compiler asks for the working directory only
  have hbuild : ((x.build abandon (sourcedSettings "build")).run.run ⟨sourced, []⟩).1.toOption.isSome = false ∧
      ((x.build abandon (sourcedSettings "build")).run.run ⟨sourced, []⟩).2.disk = abandoned := by
    have hjob : abandon ⟨(sourcedSettings "build").entries, (sourcedSettings "build").externals,
        (sourcedSettings "build").sourceType, x.project.start, ⟨"/build"⟩⟩ =
        abandon ⟨[], [], .commonJs, ⟨"/"⟩, ⟨"/build"⟩⟩ := rfl
    unfold Start.build build abandoned
    rw [run_bind, hworkDir, hjob]
    rcases hrun : (abandon ⟨[], [], .commonJs, ⟨"/"⟩, ⟨"/build"⟩⟩).run.run ⟨sourced, []⟩ with ⟨e | c, w'⟩
    · exact ⟨rfl, rfl⟩
    · rw [hrun] at hfails
      cases hfails
  obtain ⟨hresult, hgone⟩ := (bundle_cleans_up (sourcedSettings "build") rfl ⟨sourced, []⟩).2.1 x hreached abandon
  rw [show x.world = ⟨sourced, []⟩ from hx ▸ rfl] at hresult hgone
  rw [hworkDir] at hgone
  rw [hresult]
  refine ⟨hthere, hbuild.1, hgone fun _ => ?_⟩
  rw [hbuild.2]
  exact ok_of_toOption hremoved

end Bundle
end Stowage
