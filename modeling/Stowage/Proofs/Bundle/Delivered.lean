/-
Where the archive of a bundle is when the bundle returns. It is written under one name in the output directory and
is complete then, and after that the working directory is removed, which may take the archive or the way to it
along.
-/
import Stowage.Proofs.Archive.Delivered
import Stowage.Proofs.Bundle.CleanUp
import Stowage.Proofs.Disk.Trail

open Stowage.Path

namespace Stowage.Bundle

variable {compiler : Compiler} {o : BundleSettings} {w w' : World} {report : Report} {d : Disk} {p q : Path}

/-! ## What goes with the working directory -/

/-- Removing the path removes what is stored at the location. -/
inductive Takes (d : Disk) (p : Path) (l : Location) : Prop
  | below {top : Location} (htop : d.locate false p = .ok (.found top .directory)) (hl : Disk.Under top l)
  /-- The directory itself, which may stay when it is called by another name than its own. -/
  | itself (htop : d.locate false p = .ok (.found l .directory))
      (hremoved : ((Disk.removeTree p).run.run d).1 = .ok ())
  /-- A link that leads somewhere. -/
  | link {m : Location} {t : String} (hlink : d.locate false p = .ok (.found m (.link t)))
      (hexists : d.pathExists p = true) (hl : m <+: l)

theorem pathExists_of_directory {top : Location} (h : d.locate false p = .ok (.found top .directory)) :
    d.pathExists p = true := by
  unfold Disk.pathExists Disk.find
  rw [Disk.locate_true_of_directory h]
  rfl

theorem entry?_erase_of_prefix {l m : Location} (hm : m ≠ []) (h : m <+: l) : Disk.entry? (d.erase m) l = none := by
  have hl : l ≠ [] := by
    rintro rfl
    exact hm (List.prefix_nil.1 h)
  rw [Disk.entry?_erase d hl, if_pos (List.isPrefixOf_iff_prefix.2 h)]

/-- What a removal comes to at a location. -/
theorem entry?_cleared_cases (d : Disk) (p : Path) (l : Location) :
    Takes d p l ∧ Disk.entry? (cleared d p) l = none ∨
      ¬ Takes d p l ∧ Disk.entry? (cleared d p) l = d.entry? l := by
  unfold cleared
  by_cases hexists : d.pathExists p = true
  · rw [if_pos hexists]
    rcases Disk.run_removeTree p d with ⟨f, hrun, hfile⟩ | ⟨m, t, hlink, hrun⟩ |
      ⟨top, htop, ⟨f, hrun⟩ | ⟨hbare, hname, hrun⟩⟩
    · refine .inr ⟨fun h => ?_, by rw [hrun]⟩
      cases h with
      | below htop => cases hfile _ _ htop
      | itself htop => cases hfile _ _ htop
      | link hlink => cases hfile _ _ hlink
    · have hm : m ≠ [] := ((Disk.stored_locate hlink).resolve_left nofun).1
      rw [hrun]
      by_cases hl : m <+: l
      · exact .inl ⟨.link hlink hexists hl, entry?_erase_of_prefix hm hl⟩
      · refine .inr ⟨fun h => ?_, (Disk.pruned_erase d m).entry?_of_not_below hl⟩
        cases h with
        | below htop => rw [hlink] at htop; cases htop
        | itself htop => rw [hlink] at htop; cases htop
        | link hlink' _ hl' => rw [hlink] at hlink'; cases hlink'; exact hl hl'
    · rw [hrun, Disk.entry?_emptied]
      by_cases hl : top <+: l ∧ l ≠ top
      · exact .inl ⟨.below htop hl, if_pos hl⟩
      · refine .inr ⟨fun h => ?_, if_neg hl⟩
        cases h with
        | below htop' hl' => rw [htop] at htop'; cases htop'; exact hl hl'
        | itself _ hremoved => rw [hrun] at hremoved; cases hremoved
        | link hlink => rw [htop] at hlink; cases hlink
    · obtain ⟨_, s, up, -, -, -, hloc⟩ := Disk.exists_name_of_checkName hbare hname
      rw [hrun]
      by_cases hl : top <+: l
      · refine .inl ⟨?_, entry?_erase_of_prefix (by simp [hloc]) hl⟩
        by_cases he : l = top
        · subst he
          exact .itself htop (by rw [hrun])
        · exact .below htop ⟨hl, he⟩
      · refine .inr ⟨fun h => ?_, (Disk.pruned_erase d top).entry?_of_not_below hl⟩
        cases h with
        | below htop' hl' => rw [htop] at htop'; cases htop'; exact hl hl'.1
        | itself htop' => rw [htop] at htop'; cases htop'; exact hl (List.prefix_refl _)
        | link hlink => rw [htop] at hlink; cases hlink
  · rw [if_neg hexists]
    refine .inr ⟨fun h => hexists ?_, rfl⟩
    cases h with
    | below htop => exact pathExists_of_directory htop
    | itself htop => exact pathExists_of_directory htop
    | link _ hexists => exact hexists

/-- What a removal leaves is what it does not take. -/
theorem entry?_cleared_iff {l : Location} {e : Entry} :
    Disk.entry? (cleared d p) l = some e ↔ d.entry? l = some e ∧ ¬ Takes d p l := by
  rcases entry?_cleared_cases d p l with ⟨htaken, hnone⟩ | ⟨hspared, hsame⟩
  · rw [hnone]
    exact ⟨nofun, fun h => absurd htaken h.2⟩
  · rw [hsame]
    exact ⟨fun h => ⟨h, hspared⟩, And.left⟩

/-- After a removal a path leads to what it led to if nothing on its way was taken, and to nothing otherwise. -/
theorem find_cleared {x : Location × Entry} (h : d.find q = .ok x) :
    ((∀ l ∈ d.trail q, ¬ Takes d p l) → (cleared d p).find q = .ok x) ∧
    ((∃ l ∈ d.trail q, Takes d p l) → (cleared d p).pathExists q = false) := by
  have hsub : ∀ l e, Disk.entry? (cleared d p) l = some e → d.entry? l = some e := fun l e he =>
    (entry?_cleared_iff.1 he).1
  constructor
  · intro hspared
    refine (Disk.find_of_part hsub (here_cleared d p)).2 ⟨h, fun l hl => ?_⟩
    obtain ⟨e, he⟩ := Option.ne_none_iff_exists'.1 (Disk.there_of_find h l hl)
    rw [entry?_cleared_iff.2 ⟨he, hspared l hl⟩]
    nofun
  · rintro ⟨l, hl, htaken⟩
    refine Disk.pathExists_eq_false fun y hy => ?_
    obtain ⟨e, he⟩ := Option.ne_none_iff_exists'.1
      (((Disk.find_of_part hsub (here_cleared d p)).1 hy).2 l hl)
    exact (entry?_cleared_iff.1 he).2 htaken

/-! ## Delivery -/

/-- The bundle writes its archive under a name in the output directory, and `d` is the disk then. After that it only
cleans up. -/
structure Delivers (o : BundleSettings) (w : World) (report : Report) (w' : World) (output : Path) (name : String)
    (workDir : Path) (d : Disk) : Prop where
  given : o.output = some output
  cleans : ∃ dir, w.disk.canonicalize o.serviceDir = .ok dir ∧ workDir = dir.join o.buildDir
  isName : IsName name
  path : report.archive.path = output / name
  written : ∃ (a : Archive.Contents) (w₁ w₂ : World),
    Gives (a.write (output / name) o.format o.level) w₁ report.archive w₂ ∧ w₂.disk = d
  complete : d.read report.archive.path = .ok (Archive.archive o.format o.level report.archive.members)
  holds : Archive.unpack o.format (Archive.archive o.format o.level report.archive.members) =
    some (report.archive.members.map Archive.Member.item)
  counted : report.archive.entries = report.archive.members.length
  after : w'.disk = if o.keepBuild then d else cleared d workDir

theorem output_of_outputDir {output : Path} (h : outputDir o = .ok output) : o.output = some output := by
  unfold outputDir at h
  split at h
  · cases h
  · split at h
    · cases h
    · split at h
      · cases h
      · rename_i ho _
        cases h
        exact ho

theorem exists_delivers (h : Gives (bundle compiler o) w report w') :
    ∃ output name workDir d, Delivers o w report w' output name workDir d := by
  obtain ⟨x, hx, w₁, hbuild, hdisk⟩ := exists_start h
  obtain ⟨c, w₂, -, hpackage⟩ := gives_build hbuild
  obtain ⟨y, w₃, -, hwritten⟩ := gives_package hpackage
  obtain ⟨-, hpath, -, hentries, hread, hunpack⟩ := Archive.write_delivers hwritten
  exact ⟨x.output, _, x.workDir o, w₁.disk, output_of_outputDir hx.allowed, ⟨_, hx.service, rfl⟩,
    isName_fileName _ _ _, hpath, ⟨_, _, _, hwritten, rfl⟩, hpath ▸ hread, hunpack, hentries, hdisk⟩

/-- A bundle that succeeds has written its archive directly in the output directory, with the members that are
reported: as many as were counted, and those that a reader finds. When it returns the archive is still there with
them, unless cleaning up took away something on the way to it; in that case nothing is found under the path that is
reported. -/
theorem bundle_delivers (h : Gives (bundle compiler o) w report w') : ∃ output name workDir d,
    Delivers o w report w' output name workDir d ∧
    ((o.keepBuild = true ∨ ∀ l ∈ d.trail report.archive.path, ¬ Takes d workDir l) ∧
        w'.disk.read report.archive.path = .ok (Archive.archive o.format o.level report.archive.members) ∨
      (o.keepBuild = false ∧ ∃ l ∈ d.trail report.archive.path, Takes d workDir l) ∧
        w'.disk.pathExists report.archive.path = false) := by
  obtain ⟨output, name, workDir, d, hd⟩ := exists_delivers h
  refine ⟨output, name, workDir, d, hd, ?_⟩
  obtain ⟨l, hfound⟩ := Disk.locate_of_read hd.complete
  have hfind : d.find report.archive.path =
      .ok (l, .file (Archive.archive o.format o.level report.archive.members)) := by
    unfold Disk.find
    rw [hfound]
    rfl
  rcases hkeep : o.keepBuild
  · have hafter : w'.disk = cleared d workDir := by
      have := hd.after
      rwa [hkeep] at this
    obtain ⟨hspared, hlost⟩ := find_cleared (p := workDir) hfind
    by_cases htaken : ∃ l ∈ d.trail report.archive.path, Takes d workDir l
    · exact .inr ⟨⟨rfl, htaken⟩, hafter ▸ hlost htaken⟩
    · have hway : ∀ l ∈ d.trail report.archive.path, ¬ Takes d workDir l := fun l hl ht => htaken ⟨l, hl, ht⟩
      refine .inl ⟨.inr hway, ?_⟩
      rw [hafter]
      unfold Disk.read
      rw [hspared hway]
      rfl
  · have hafter : w'.disk = d := by
      have := hd.after
      rwa [hkeep] at this
    exact .inl ⟨.inl rfl, hafter ▸ hd.complete⟩

/-! ### An archive beside and in the working directory -/

/-- A compiler that writes the same file whatever the entry points are. -/
def emit : Compiler := fun job => do
  Action.change (Disk.createDirectories job.outDir)
  Action.change (Disk.write (job.outDir / "main.json") (.text "1"))
  return ⟨[("main", job.outDir / "main.json")], job.outDir⟩

/-- An archive in a directory of its own is delivered; one in the working directory is reported and gone. -/
theorem bundle_delivers_sourced :
    (∃ report w', Gives (bundle emit (sourcedSettings "build")) ⟨sourced, []⟩ report w' ∧
      w'.disk.read ⟨"/out/app.zip"⟩ = .ok (Archive.archive .zip 9 report.archive.members)) ∧
    ∃ report w', Gives (bundle emit { sourcedSettings "build" with output := some ⟨"/build"⟩ }) ⟨sourced, []⟩
        report w' ∧ report.archive.path = ⟨"/build/app.zip"⟩ ∧ w'.disk.pathExists ⟨"/build/app.zip"⟩ = false := by
  have hkept : shown (bundle emit (sourcedSettings "build")) ⟨sourced, []⟩
      (fun r w => (r.archive.path, w.disk.pathExists ⟨"/out/app.zip"⟩)) = some (⟨"/out/app.zip"⟩, true) := by
    decide +kernel
  have hlost : shown (bundle emit { sourcedSettings "build" with output := some ⟨"/build"⟩ }) ⟨sourced, []⟩
      (fun r w => (r.archive.path, w.disk.pathExists ⟨"/build/app.zip"⟩)) = some (⟨"/build/app.zip"⟩, false) := by
    decide +kernel
  constructor
  · obtain ⟨report, w', h, hshown⟩ := exists_gives hkept
    obtain ⟨hpath, hthere⟩ := Prod.mk.inj hshown
    refine ⟨report, w', h, ?_⟩
    obtain ⟨output, name, workDir, d, -, ⟨-, hread⟩ | ⟨-, hgone⟩⟩ := bundle_delivers h
    · rwa [hpath] at hread
    · rw [hpath, hthere] at hgone
      cases hgone
  · obtain ⟨report, w', h, hshown⟩ := exists_gives hlost
    obtain ⟨hpath, hgone⟩ := Prod.mk.inj hshown
    exact ⟨report, w', h, hpath, hgone⟩

end Stowage.Bundle
