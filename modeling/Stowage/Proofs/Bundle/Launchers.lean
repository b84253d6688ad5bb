/-
The scripts of the manifest that is packed: each compiled entry point has one that starts it, a single one under the
name `start` and each of several under its own name.
-/
import Stowage.Proofs.Bundle.CleanUp
import Stowage.Proofs.Json.Members

namespace Stowage

/-- The packed manifest has a script of that name with that text. -/
def Json.HasScript (packed : Json) (name text : String) : Prop := ∃ members scripts,
  packed = .object members ∧ Json.lookup "scripts" members = some (.object scripts) ∧
    Json.lookup name scripts = some (.string text)

namespace Manifest

variable {isSingle : Bool} {workDir : Path} {outputs : List (String × Path)} {scripts : List (String × Json)}

/-- The name of the script that starts an output. -/
def launcherName (isSingle : Bool) (name : String) : String := if isSingle then "start" else "start:" ++ name

theorem launchers_ok (h : launchers isSingle workDir outputs = .ok scripts) :
    List.Forall₂ (fun o s => ∃ file, nameBelow o.2 workDir = .ok file ∧
      s = (launcherName isSingle o.1, .string ("node " ++ file))) outputs scripts := by
  induction outputs generalizing scripts with
  | nil =>
    cases h
    exact .nil
  | cons o rest ih =>
    obtain ⟨name, path⟩ := o
    unfold launchers at h
    rcases hfile : nameBelow path workDir with e | file
    · rw [hfile] at h
      cases h
    · rcases hrest : launchers isSingle workDir rest with e | others
      · rw [hfile, hrest] at h
        cases h
      · rw [hfile, hrest] at h
        cases h
        exact .cons ⟨file, hfile, rfl⟩ (ih hrest)

theorem keys_launchers (h : launchers isSingle workDir outputs = .ok scripts) :
    scripts.map Prod.fst = outputs.map fun o => launcherName isSingle o.1 := by
  have hall := launchers_ok h
  clear h
  induction hall with
  | nil => rfl
  | cons hs _ ih =>
    obtain ⟨file, -, rfl⟩ := hs
    rw [List.map_cons, List.map_cons, ih]

theorem launcherName_injective : Function.Injective (launcherName false) := by
  intro m n h
  have htexts : ("start:" ++ m).toList = ("start:" ++ n).toList := congrArg String.toList h
  rw [String.toList_append, String.toList_append] at htexts
  exact String.ext (List.append_cancel_left htexts)

/-- Outputs of different names have scripts of different names. -/
theorem nodup_launchers (h : launchers (outputs.length = 1) workDir outputs = .ok scripts)
    (hnames : (outputs.map Prod.fst).Nodup) : (scripts.map Prod.fst).Nodup := by
  rw [keys_launchers h]
  by_cases hsingle : outputs.length = 1
  · obtain ⟨o, rfl⟩ := List.length_eq_one_iff.1 hsingle
    exact List.nodup_singleton _
  · rw [decide_eq_false hsingle]
    have hmap := hnames.map launcherName_injective
    rwa [List.map_map] at hmap

/-- The scripts are the last member of the packed manifest and the only one of that name. -/
theorem packed_ok {m : Manifest} {type : SourceType} {packed : Json}
    (h : m.packed outputs workDir type = .ok packed) : ∃ members scripts,
      launchers (outputs.length = 1) workDir outputs = .ok scripts ∧ packed = .object members ∧
      Json.lookup "scripts" members = some (.object (Json.merge scripts)) := by
  have hgiven : ∀ (key : String) (v : Option Json), key ≠ "scripts" →
      (v.toList.map fun x => (key, x)).lookup "scripts" = none := by
    intro key v hkey
    rcases v with _ | x
    · rfl
    · exact Named.lookup_cons_of_ne (Ne.symm hkey) x []
  unfold Manifest.packed at h
  rcases hscripts : launchers (outputs.length = 1) workDir outputs with e | scripts
  · rw [hscripts] at h
    cases h
  · rw [hscripts] at h
    cases h
    refine ⟨_, scripts, rfl, rfl, ?_⟩
    unfold Json.lookup
    simp only [List.lookup_append, hgiven "name" _ (by decide), hgiven "version" _ (by decide),
      hgiven "license" _ (by decide), hgiven "private" _ (by decide), Option.none_or, List.lookup_cons_self]
    split <;> rfl

/-- The packed manifest has a script for each output. -/
theorem hasScript_packed {m : Manifest} {type : SourceType} {packed : Json}
    (h : m.packed outputs workDir type = .ok packed) (hnames : (outputs.map Prod.fst).Nodup) :
    ∀ o ∈ outputs, ∃ file, nameBelow o.2 workDir = .ok file ∧
      packed.HasScript (launcherName (outputs.length = 1) o.1) ("node " ++ file) := by
  obtain ⟨members, scripts, hscripts, hpacked, hlookup⟩ := packed_ok h
  have hkeys := nodup_launchers hscripts hnames
  have hall := launchers_ok hscripts
  intro o ho
  obtain ⟨i, hi, rfl⟩ := List.getElem_of_mem ho
  obtain ⟨file, hfile, hscript⟩ := (List.forall₂_iff_get.1 hall).2 i hi (hall.length_eq ▸ hi)
  refine ⟨file, hfile, members, _, hpacked, hlookup, ?_⟩
  rw [Json.merge_of_nodup hkeys]
  exact (Named.mem_iff_lookup hkeys).1 (hscript ▸ List.get_mem ..)

end Manifest

namespace Bundle

open Compile

variable {transpile : Transpile} {o : BundleSettings} {w w' : World} {report : Report}

/-- The job of the compiler. -/
def Start.job (x : Start) (o : BundleSettings) : CompileJob :=
  ⟨o.entries, o.externals, o.sourceType, x.project.start, x.workDir o⟩

/-- What a bundle compiles and packs. -/
structure Launching where
  start : Start
  course : Course
  compiled : Compiled
  assembled : Assembled

/-- The bundle compiles and packs what `l` says, and its archive is written from that. -/
structure Launches (transpile : Transpile) (o : BundleSettings) (w : World) (report : Report) (l : Launching) :
    Prop where
  reached : l.start.Reached o w
  runs : ∃ w₁ w₂ w₃ destination, Takes transpile (l.start.job o) l.start.world l.compiled w₁ l.course ∧
    Assembles l.start.project l.start.known o l.compiled w₁ l.assembled w₂ ∧
    Gives (l.assembled.contents.write destination o.format o.level) w₂ report.archive w₃

/-- The entry point is compiled to a file that the packed manifest has a script for. -/
structure Launching.Starts (l : Launching) (o : BundleSettings) (e : String × Path) (source output : Path) :
    Prop where
  found : l.course.start.disk.canonicalize (l.course.root.join e.2) = .ok source
  visited : ∃ v ∈ l.course.visits, v.source.same source = true
  placed : compiledPath l.course.root l.compiled.workDir source o.sourceType = .ok output
  compiled : (e.1, output) ∈ l.compiled.outputs
  script : ∃ file, nameBelow output l.compiled.workDir = .ok file ∧
    l.assembled.packed.HasScript (Manifest.launcherName (o.entries.length = 1) e.1) ("node " ++ file)

theorem exists_launches (h : Gives (bundle (compile transpile) o) w report w') :
    ∃ l, Launches transpile o w report l := by
  obtain ⟨x, hx, w₁, hbuild, -⟩ := exists_start h
  obtain ⟨c, w₂, hc, hpackage⟩ := gives_build hbuild
  obtain ⟨y, w₃, hy, hwritten⟩ := gives_package hpackage
  obtain ⟨course, hcourse⟩ := exists_takes hc
  exact ⟨⟨x, course, c, y⟩, hx, w₂, w₃, _, _, hcourse, hy, hwritten⟩

/-- Each entry point of a bundle that succeeds is compiled and gets a script that starts it. -/
theorem Launches.starts {l : Launching} (hl : Launches transpile o w report l)
    (hnames : (o.entries.map Prod.fst).Nodup) :
    ∀ e ∈ o.entries, ∃ source output, l.Starts o e source output := by
  obtain ⟨w₁, w₂, w₃, destination, htakes, hassembles, -⟩ := hl.runs
  have hentered : List.Forall₂ _ o.entries l.course.entered := htakes.entered
  have houtputs : l.compiled.outputs.map Prod.fst = o.entries.map Prod.fst := htakes.names_outputs
  have hlength : l.compiled.outputs.length = o.entries.length := by
    simpa using congrArg List.length houtputs
  intro e he
  obtain ⟨i, hi, rfl⟩ := List.getElem_of_mem he
  obtain ⟨hname, hsource, houtput⟩ := (List.forall₂_iff_get.1 hentered).2 i hi (hentered.length_eq ▸ hi)
  have hmem := List.get_mem l.course.entered ⟨i, hentered.length_eq ▸ hi⟩
  have hcompiled : (o.entries[i].1, (l.course.entered.get ⟨i, hentered.length_eq ▸ hi⟩).2.2) ∈
      l.compiled.outputs := by
    rw [htakes.outputs]
    exact List.mem_map.2 ⟨_, hmem, Prod.ext hname rfl⟩
  obtain ⟨file, hfile, hscript⟩ := Manifest.hasScript_packed hassembles.packed (houtputs ▸ hnames) _ hcompiled
  exact ⟨_, _, hsource, htakes.visited_same _ hmem, houtput, hcompiled, file, hfile, hlength ▸ hscript⟩

end Bundle

end Stowage
