/-
Which outputs overwrite each other. The sources of one compilation have outputs of their own unless they are
twins, scripts in one directory that differ in nothing but the extension: of twins the last one that is compiled
is left.
-/
import Stowage.Proofs.Compile.Outputs
import Stowage.Proofs.Compile.Run
import Stowage.Proofs.Package.Manifests

open Stowage.Path

namespace Stowage.Compile

variable {transpile : Transpile} {job : CompileJob} {c : Compiled} {w w' : World} {x : Course}

namespace Takes

variable (h : Takes transpile job w c w' x) (hd : w.disk.Sound) (hhere : ∀ n ∈ w.disk.here, IsName n)
include h hd hhere

/-- The root and the directory of the output are there from the start. -/
theorem located_root : w.disk.Located x.root ∧ x.start.disk.Located c.workDir := by
  obtain ⟨hgrown, hsound⟩ := h.grown hd
  exact ⟨Disk.located_of_canonicalize hd hhere h.root,
    Disk.located_of_canonicalize hsound (by rw [hgrown.here]; exact hhere) h.workDir⟩

/-- A visit of a compilation: its source lies below the root and is a file. -/
theorem visit {top : Location} (htop : ∀ n ∈ top, IsName n) (hroot : x.root = ofLocation top)
    {v : Visit} (hv : v ∈ x.visits) :
    v.before.Sound ∧ Disk.Filled (fun _ => True) w.disk v.before ∧ ∃ names content,
      (∀ n ∈ top ++ names, IsName n) ∧ v.source = ofLocation (top ++ names) ∧
      v.before.entry? (top ++ names) = some (.file content) := by
  obtain ⟨hgrown, hsound⟩ := h.grown hd
  obtain ⟨hbefore, hfilled, output, loc, y, hwrites⟩ := (h.runs.filled hsound).2.2 v hv
  refine ⟨hbefore, hgrown.filled.trans hfilled, ?_⟩
  have hlocated := h.located hd hhere v hv
  obtain ⟨s, e, hs, hnames, -⟩ := id hlocated
  have hpath := hwrites.path
  rw [hs, hroot] at hpath
  obtain ⟨names, rfl, -⟩ := compiledPath_ofLocation htop hnames hpath
  obtain ⟨l, content, hfile⟩ := hwrites.makes.isFile
  rw [hs] at hlocated hfile
  exact ⟨names, content, hnames, hs, (hlocated.of_find hbefore hnames hfile).2⟩

/-- In a directory without links an output is where its path says. -/
theorem output_eq {work : Location} (hwork : ∀ n ∈ work, IsName n) (hworkDir : c.workDir = ofLocation work)
    (hlinkless : x.start.disk.Linkless work) {v : Visit} (hv : v ∈ x.visits)
    (hroot : v.source ≠ x.root) {output : Path} {loc : Location} {y : Content}
    (hwrites : v.Writes transpile x.root c.workDir job.format output loc y) :
    output = ofLocation loc := by
  obtain ⟨top, -, htop, hnamesTop, -⟩ := (h.located_root hd hhere).1
  obtain ⟨hbefore, -, names, -, hnames, hsource, -⟩ := h.visit hd hhere hnamesTop htop hv
  obtain ⟨-, hsound⟩ := h.grown hd
  obtain ⟨-, hfilled, -⟩ := (h.runs.filled hsound).2.2 v hv
  have hne : names ≠ [] := by
    rintro rfl
    rw [List.append_nil, ← htop] at hsource
    exact hroot hsource
  obtain ⟨ns, n, rfl⟩ := List.eq_nil_or_concat names |>.resolve_left hne
  rw [List.concat_eq_append, ← List.append_assoc] at hnames hsource
  have hpath := hwrites.path
  rw [hsource, htop, hworkDir] at hpath
  obtain ⟨names', hsplit, houtput⟩ := compiledPath_ofLocation hnamesTop hnames hpath
  rw [List.append_assoc, List.append_cancel_left_eq] at hsplit
  subst hsplit
  have hn : IsName n := hnames n (by simp)
  have hns : ∀ m ∈ ns, IsName m := fun m hm => hnames m (by simp [hm])
  rw [output_concat hwork (fun m hm => hnames m (by simp only [List.mem_append] at hm ⊢; tauto)) hns hn]
    at houtput
  have hall : ∀ m ∈ work ++ ns ++ [outputName job.format n], IsName m := isName_output hwork hns hn
  have hleads := hwrites.vacant.leads
  rw [houtput] at hleads
  have hplace := Disk.locate_linkless hbefore (hlinkless.filled hfilled)
    (.inl ⟨ns ++ [outputName job.format n], by simp⟩) hall hleads
  have hloc := congrArg Disk.Place.location hplace
  rw [Disk.location_place, Disk.location_place] at hloc
  rw [houtput, hloc]

/-- Two sources of a compilation have one output exactly if they are the same or twins. -/
theorem same_iff {u v : Visit} (hu : u ∈ x.visits) (hv : v ∈ x.visits) {p q : Path}
    (hp : compiledPath x.root c.workDir u.source job.format = .ok p)
    (hq : compiledPath x.root c.workDir v.source job.format = .ok q) :
    p.same q = true ↔ u.source = v.source ∨ Twins u.source v.source := by
  obtain ⟨⟨top, -, htop, hnamesTop, -⟩, ⟨work, -, hwork, hnamesWork, -⟩⟩ := h.located_root hd hhere
  obtain ⟨-, -, a, -, ha, hu', -⟩ := h.visit hd hhere hnamesTop htop hu
  obtain ⟨-, -, b, -, hb, hv', -⟩ := h.visit hd hhere hnamesTop htop hv
  rw [hu', htop, hwork] at hp
  rw [hv', htop, hwork] at hq
  rw [hu', hv', same_output_iff hnamesTop ha hb hnamesWork hp hq]
  exact or_congr_left ⟨fun he => by rw [he], ofLocation_injective ha hb⟩

end Takes

/-- Scripts are their own code. -/
def verbatim : Transpile := fun _ _ text => .ok text

end Stowage.Compile
