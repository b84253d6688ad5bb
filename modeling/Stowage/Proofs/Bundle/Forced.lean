/-
Modules that are included with all their files: a trace does not follow references to them, and the
expansion visits what can be come to from the service directory. A trace leaves out every installed copy
of such a module, so the files of a copy are in the archive only if the expansion comes to this copy.
-/
import Stowage.Proofs.Bundle.Gathering
import Stowage.Proofs.Expansion.Alike

namespace Stowage.Bundle

open Manifests

variable {compiler : Compiler} {o : BundleSettings} {w w' : World} {report : Report}

/-! ## What a trace leaves out -/

/-- A package that is not followed is the one of a reference to the file called `name`. -/
def IsMeant (package specifier name : String) : Prop :=
  (Specifier.isDependency specifier = true ∧ package = (Specifier.split specifier).1) ∨
    name.startsWith ("node_modules/" ++ package ++ "/") = true ∨
    Trace.occurs ("/node_modules/" ++ package ++ "/").toList name.toList = true

/-- A reference in a traced file leads to `target` and is left out for no other reason than a module that
is to be included with all its files: if only the excluded modules were left out it would be followed. -/
structure LeftToExpansion (g : Gathering) (o : BundleSettings) (file : Path) (specifier : String)
    (target : Path) : Prop where
  traced : Trace.Reached g.setting g.disk g.known g.entries file
  script : Trace.isScript file = true
  stated : ∃ refs kind, Trace.readReferences g.disk file = .ok refs ∧ (specifier, kind) ∈ refs.static
  resolved : (g.project.resolve g.disk file specifier).answer g.known = .ok (.file target)
  leftOut : ∃ name, g.project.relative target = .ok name ∧
    Trace.isLeftOut g.setting specifier name = true ∧
    Trace.isLeftOut ⟨g.project, { g.limits with ignorePackages := o.exclude }, Trace.readReferences⟩
      specifier name = false

theorem isLeftOut_iff {s : Trace.Setting} {specifier name : String} :
    Trace.isLeftOut s specifier name = true ↔
      s.limits.ignorePaths.any (·.accepts Glob.anywhere name) = true ∨
        ∃ package ∈ s.limits.ignorePackages, IsMeant package specifier name := by
  unfold Trace.isLeftOut IsMeant
  simp only [Bool.or_eq_true, List.any_eq_true, Bool.and_eq_true, decide_eq_true_eq, or_assoc]

theorem ignorePackages_of_traceLimits {workDir : Path} {limits : Trace.Limits}
    (h : traceLimits o workDir = .ok limits) :
    limits.ignorePackages = o.forceInclude ++ o.exclude := by
  unfold traceLimits at h
  rcases hp : o.ignorePaths.mapM fun p => Workspace.compilePattern (Path.bareText p) with e | patterns
  · rw [hp] at h; cases h
  · rw [hp] at h; cases h; rfl

/-- What is left to the expansion belongs, as the trace sees it, to a module that is not excluded. -/
theorem LeftToExpansion.exists_isMeant {g : Gathering} (hg : Gathers compiler o w report g)
    {file target : Path} {specifier : String} (h : LeftToExpansion g o file specifier target) :
    ∃ package ∈ o.forceInclude, package ∉ o.exclude ∧
      ∃ name, g.project.relative target = .ok name ∧ IsMeant package specifier name := by
  obtain ⟨name, hname, hout, hkept⟩ := h.leftOut
  have hkept' := fun h => Bool.eq_false_iff.1 hkept (isLeftOut_iff.2 h)
  rcases isLeftOut_iff.1 hout with hpath | ⟨package, hp, hmeant⟩
  · exact absurd (.inl hpath) hkept'
  · have hex : package ∉ o.exclude := fun he => hkept' (.inr ⟨package, he, hmeant⟩)
    change package ∈ g.limits.ignorePackages at hp
    rw [ignorePackages_of_traceLimits hg.limits] at hp
    exact ⟨package, (List.mem_append.1 hp).resolve_right hex, hex, name, hname, hmeant⟩

/-- When a bundle succeeds, a reference may be left out only since a module is to be included with all its
files. The copy of this module that is found from the service directory, if any, is visited by the
expansion. The package that owns the target of the reference may be another copy: it is visited exactly if
it can be come to from the service directory, through the forced modules and what they depend on. If so,
its files are in the archive. -/
theorem owner_visited_iff (hc : compiler.Stays) (hd : Disk.Spelled w.disk.here)
    (h : Gives (bundle compiler o) w report w') :
    ∃ g, Gathers compiler o w report g ∧ ∀ file specifier target,
      LeftToExpansion g o file specifier target →
      (∃ package ∈ o.forceInclude, package ∉ o.exclude ∧
        (∃ name, g.project.relative target = .ok name ∧ IsMeant package specifier name) ∧
        ∀ root, Expand.LeadsTo g.project ⟨o.optionalModules, o.exclude⟩ g.disk g.known
          g.project.start package none root → root ∈ g.expansion.visited) ∧
      ∀ package root,
        (Package.rootDirectory g.disk package target).answer g.known = .ok (some root) →
        (root ∈ g.expansion.visited ↔ g.Expandable o root) ∧
        (root ∈ g.expansion.visited → ∀ n, Expand.HoldsName g.project g.disk g.known root n →
          Path.bareText n ∈ g.contents.names) := by
  obtain ⟨g, hg⟩ := exists_gathers h
  have hx := hg.exact hc hd
  refine ⟨g, hg, fun file specifier target hleft => ⟨?_, fun package root _ =>
    ⟨hx.visited root, fun hroot n hn => ?_⟩⟩⟩
  · obtain ⟨package, hp, hex, hmeant⟩ := hleft.exists_isMeant hg
    exact ⟨package, hp, hex, hmeant, fun root hlead =>
      (hx.asked package hp).mem_visited hlead⟩
  · exact hg.mem_names ((hx.files n).2 ⟨root, (hx.visited root).1 hroot, hn⟩)

/-! ### A module that is installed twice -/

/-- A project that needs a package, which has its own copy of a module that the project has too. -/
def padded : Disk where
  entries := [
    (["main.js"], .file (.text "require('a');")),
    (["node_modules"], .directory),
    (["node_modules", "a"], .directory),
    (["node_modules", "a", "index.js"], .file (.text "require('pad');")),
    (["node_modules", "a", "node_modules"], .directory),
    (["node_modules", "a", "node_modules", "pad"], .directory),
    (["node_modules", "a", "node_modules", "pad", "index.js"], .file (.text "")),
    (["node_modules", "a", "node_modules", "pad", "package.json"],
      .file (.text "\x7b\"name\":\"pad\"\x7d")),
    (["node_modules", "pad"], .directory),
    (["node_modules", "pad", "index.js"], .file (.text "")),
    (["node_modules", "pad", "package.json"], .file (.text "\x7b\"name\":\"pad\"\x7d")),
    (["package.json"], .file (.text "\x7b\"name\":\"app\"\x7d"))]
  here := []

def paddedSettings : BundleSettings where
  serviceDir := ⟨"/"⟩
  entries := [("main", ⟨"main.js"⟩)]
  output := some ⟨"/out"⟩
  format := .zip
  level := 9
  sourceType := .commonJs
  externals := []
  forceInclude := ["pad"]
  exclude := []
  extras := []
  optionalModules := []
  ignorePaths := []
  buildDir := ⟨"b"⟩
  strict := false
  keepBuild := true

/-- The disk once the entry point is copied. -/
def paddedBuilt : Disk :=
  { padded with entries := (["b"], .directory) ::
      (["b", "main.js"], .file (.text "require('a');")) :: padded.entries }

def paddedProject : Project :=
  ⟨⟨"/"⟩, ⟨"/"⟩, Resolver.resolve ⟨[⟨"/node_modules"⟩, ⟨"/node_modules"⟩],
    SourceType.commonJs.conditions, Specifier.isBuiltin⟩⟩

/-- The manifests that are read when the project is opened. -/
def paddedKnown : Manifests := (openProject padded ⟨"/"⟩ .commonJs).after .empty

def paddedCompiled : Compiled := ⟨[("main", ⟨"/b/main.js"⟩)], ⟨"/b"⟩⟩

def paddedLimits : Trace.Limits := ⟨[], ["pad"], [⟨"/b"⟩], false⟩

def paddedSetting : Trace.Setting := ⟨paddedProject, paddedLimits, Trace.readReferences⟩

theorem canonicalize_padded : padded.canonicalize ⟨"/"⟩ = .ok ⟨"/"⟩ := ok_of_toOption (by decide +kernel)

theorem openProject_padded : Gives (openProject padded ⟨"/"⟩ .commonJs) .empty paddedProject paddedKnown := by
  have hshown : shown (openProject padded ⟨"/"⟩ .commonJs) .empty (fun s _ => (s.start, s.root)) =
      some (⟨"/"⟩, ⟨"/"⟩) := by decide +kernel
  have hroot : ((Workspace.root padded ⟨"/"⟩).answer .empty).toOption = some ⟨"/"⟩ := by decide +kernel
  have hdir : (⟨"/"⟩ : Path) / Package.modulesDir = ⟨"/node_modules"⟩ := by decide +kernel
  have hopen := gives_openProject hshown hroot
  rwa [hdir] at hopen

theorem clear_padded : Gives (clear ((⟨"/"⟩ : Path).join ⟨"b"⟩)) ⟨padded, []⟩ () ⟨padded, []⟩ := by
  have hclear : shown (clear ((⟨"/"⟩ : Path).join ⟨"b"⟩)) ⟨padded, []⟩ (fun _ w => w) = some ⟨padded, []⟩ := by
    decide +kernel
  obtain ⟨_, _, hclear, rfl⟩ := exists_gives hclear
  exact hclear

theorem copySources_padded : Gives (copySources ⟨[("main", ⟨"main.js"⟩)], [], .commonJs, ⟨"/"⟩,
    (⟨"/"⟩ : Path).join ⟨"b"⟩⟩) ⟨padded, []⟩ paddedCompiled ⟨paddedBuilt, []⟩ := by
  have hcopy : shown (copySources ⟨[("main", ⟨"main.js"⟩)], [], .commonJs, ⟨"/"⟩, (⟨"/"⟩ : Path).join ⟨"b"⟩⟩)
      ⟨padded, []⟩ (fun c w => (c, w)) = some (paddedCompiled, ⟨paddedBuilt, []⟩) := by decide +kernel
  obtain ⟨_, _, hcopy, hbuilt⟩ := exists_gives hcopy
  cases hbuilt
  exact hcopy

theorem traceLimits_padded : traceLimits paddedSettings paddedCompiled.workDir = .ok paddedLimits := rfl

theorem gathers_padded {g : Gathering}
    (hg : Gathers copySources paddedSettings ⟨padded, []⟩ report g) :
    ∃ traced x a, g = ⟨paddedProject, paddedKnown, paddedCompiled, paddedBuilt, paddedLimits,
      traced, x, a⟩ :=
  hg.eq_of_steps canonicalize_padded openProject_padded clear_padded copySources_padded traceLimits_padded

/-- What the module that is to be included with all its files brings in. -/
def paddedExpansion : Expansion :=
  ⟨["node_modules/pad/index.js", "node_modules/pad/package.json"], [], [⟨"/node_modules/pad"⟩], []⟩

theorem expandAll_padded {ms : Manifests} (h : Extends paddedBuilt paddedKnown ms) :
    ∃ st, Gives (Expand.expandAll paddedProject ⟨[], []⟩ paddedBuilt ⟨"/"⟩ [("pad", [])]) ⟨ms, .empty⟩ () st ∧
      st.expansion = paddedExpansion ∧ Expand.Proper paddedBuilt paddedKnown st := by
  have hs : Fixed paddedBuilt paddedKnown paddedProject.resolver := Resolver.fixed_resolve _ Disk.spelled_nil
  have hproper : ∀ {ms}, Extends paddedBuilt paddedKnown ms → Expand.Proper paddedBuilt paddedKnown ⟨ms, .empty⟩ :=
    fun h => ⟨h, fun _ h => nomatch h⟩
  have hexpand : shown (Expand.expandAll paddedProject ⟨[], []⟩ paddedBuilt ⟨"/"⟩ [("pad", [])])
      ⟨paddedKnown, .empty⟩ (fun _ st => st.expansion) = some paddedExpansion := by decide +kernel
  obtain ⟨_, _, hexpand, hx⟩ := exists_gives hexpand
  obtain ⟨st, hagain, heq, hleft⟩ := (Expand.alike_expandAll hs [("pad", [])]).gives (hproper (extends_refl _))
    (hproper h) rfl hexpand
  exact ⟨st, hagain, heq.trans hx, hleft⟩

/-- The text of the manifest that goes into the archive. -/
def paddedManifest : String :=
  "\x7b\n  \"name\": \"app\",\n  \"scripts\": \x7b\n    \"start\": \"node main.js\"\n  \x7d\n\x7d"

/-- The disk once this manifest is written. -/
def paddedPacked : Disk :=
  { padded with entries := (["b"], .directory) :: (["b", "main.js"], .file (.text "require('a');")) ::
      (["b", "package.json"], .file (.text paddedManifest)) :: padded.entries }

/-- The bundle succeeds. -/
theorem exists_bundle_padded : ∃ report w', Gives (bundle copySources paddedSettings) ⟨padded, []⟩ report w' := by
  have hs : Fixed paddedBuilt paddedKnown paddedProject.resolver := Resolver.fixed_resolve _ Disk.spelled_nil
  have htrace : shown (Trace.trace paddedSetting paddedBuilt [⟨"/b/main.js"⟩]) paddedKnown
      (fun t _ => (t.files, t.links)) = some (["node_modules/a/index.js", "package.json"], []) := by decide +kernel
  have hmanifest : ((require paddedBuilt ⟨"/"⟩).answer paddedKnown).toOption.map (fun m =>
      ((m.packed paddedCompiled.outputs ⟨"/b"⟩ .commonJs).toOption.map Json.pretty, fileName m ⟨"/"⟩ .zip)) =
      some (some paddedManifest, "app.zip") := by decide +kernel
  have hchange : shown (Disk.write ((⟨"/b"⟩ : Path) / manifestName) (.text paddedManifest)) paddedBuilt
      (fun _ d => d) = some paddedPacked := by decide +kernel
  have hname : (paddedProject.relative ⟨"/"⟩).toOption = some "" := by decide +kernel
  have hwrite : shown (collectAll ⟨"/"⟩ (collect paddedPacked "" ⟨"/b"⟩
      ⟨["node_modules/a/index.js", "package.json"], [], [], []⟩ paddedExpansion []) >>= fun a =>
        a.write ((⟨"/out"⟩ : Path) / "app.zip") .zip 9) ⟨paddedPacked, []⟩ (fun _ _ => ()) = some () := by
    decide +kernel
  obtain ⟨⟨files, links, reasons, warnings⟩, ms₁, htrace, htraced⟩ := exists_gives htrace
  obtain ⟨rfl, rfl⟩ := Prod.mk.inj htraced
  obtain ⟨m, hm, hfacts⟩ := Option.map_eq_some_iff.1 hmanifest
  obtain ⟨hpacked, hfile⟩ := Prod.mk.inj hfacts
  obtain ⟨packed, hpacked, hpretty⟩ := Option.map_eq_some_iff.1 hpacked
  obtain ⟨_, _, hchange, rfl⟩ := exists_gives hchange
  obtain ⟨summary, w', hwrite, -⟩ := exists_gives hwrite
  have hextends : Extends paddedBuilt paddedKnown ms₁ := by
    have hafter := Trace.extends_traceWithin (s := paddedSetting) hs Disk.spelled_nil (congrArg Prod.fst htrace)
    rwa [show ((Trace.traceWithin paddedSetting paddedBuilt _ [⟨"/b/main.js"⟩]).after paddedKnown) = ms₁ from
      congrArg Prod.snd htrace] at hafter
  obtain ⟨st, hexpand, hx, hst⟩ := expandAll_padded hextends
  -- what the manifest says does not depend on what was read before
  have hagree : Agree paddedBuilt paddedKnown _ (require paddedBuilt ⟨"/"⟩) (require paddedBuilt ⟨"/"⟩) :=
    Expand.agree_require (.inl ⟨[], fun _ h => absurd h List.not_mem_nil, rfl⟩)
  obtain ⟨_, _, hknown, hm', p, rfl⟩ | ⟨e, he, -⟩ := (hagree.answers (extends_refl _) hst.manifests).cases
  · cases (ok_of_toOption hm).symm.trans hknown
    have hwritten : Gives (collectAll ⟨"/"⟩ (collect paddedPacked "" ⟨"/b"⟩
        ⟨["node_modules/a/index.js", "package.json"], [], reasons, warnings⟩ st.expansion []) >>= fun a =>
          a.write ((⟨"/out"⟩ : Path) / fileName { m with path := p } ⟨"/"⟩ .zip) .zip 9)
        ⟨paddedPacked, []⟩ summary w' := by
      rw [hx, show fileName { m with path := p } ⟨"/"⟩ .zip = "app.zip" from hfile]
      exact hwrite
    obtain ⟨report, hpackage⟩ := exists_gives_package (o := paddedSettings) (w := ⟨paddedBuilt, []⟩)
      traceLimits_padded htrace hexpand hm' (ok_of_toOption hpacked) (hpretty ▸ hchange) (ok_of_toOption hname) hwritten
    exact ⟨report, w', gives_bundle rfl canonicalize_padded openProject_padded clear_padded copySources_padded rfl rfl
      hpackage⟩
  · rw [ok_of_toOption hm] at he
    cases he

/-- The copy that the package has is left to the expansion. -/
theorem leftToExpansion_padded (traced : Trace.Result) (x : Expansion) (a : Archive.Contents) :
    LeftToExpansion ⟨paddedProject, paddedKnown, paddedCompiled, paddedBuilt, paddedLimits, traced, x, a⟩
      paddedSettings ⟨"/node_modules/a/index.js"⟩ "pad"
      ⟨"/node_modules/a/node_modules/pad/index.js"⟩ := by
  have hreal : (paddedBuilt.canonicalize ⟨"/b/main.js"⟩).toOption = some ⟨"/b/main.js"⟩ := by
    decide +kernel
  have hmain : (paddedSetting.analyze paddedBuilt ⟨"/b/main.js"⟩).toOption =
      some ⟨[("a", .require)], []⟩ := by decide +kernel
  have ha : (Trace.readReferences paddedBuilt ⟨"/node_modules/a/index.js"⟩).toOption =
      some ⟨[("pad", .require)], []⟩ := by decide +kernel
  have hto : ((paddedSetting.project.resolve paddedBuilt ⟨"/b/main.js"⟩ "a").answer
      paddedKnown).toOption = some (.file ⟨"/node_modules/a/index.js"⟩) := by decide +kernel
  have hon : ((paddedProject.resolve paddedBuilt ⟨"/node_modules/a/index.js"⟩ "pad").answer
      paddedKnown).toOption = some (.file ⟨"/node_modules/a/node_modules/pad/index.js"⟩) := by
    decide +kernel
  have hname : (paddedSetting.project.relative ⟨"/node_modules/a/index.js"⟩).toOption =
      some "node_modules/a/index.js" := by decide +kernel
  have hname' : (paddedProject.relative ⟨"/node_modules/a/node_modules/pad/index.js"⟩).toOption =
      some "node_modules/a/node_modules/pad/index.js" := by decide +kernel
  have hleads : Trace.Leads paddedSetting paddedBuilt paddedKnown ⟨"/b/main.js"⟩ "a"
      ⟨"/node_modules/a/index.js"⟩ :=
    ⟨ok_of_toOption hto, _, ok_of_toOption hname, by decide +kernel⟩
  have hfollows : Trace.Follows paddedSetting paddedBuilt paddedKnown ⟨"/b/main.js"⟩ "a" .require
      ⟨"/node_modules/a/index.js"⟩ :=
    ⟨by decide +kernel, ⟨_, ok_of_toOption hmain, List.mem_singleton_self _⟩, hleads⟩
  have hreached : Trace.Reached paddedSetting paddedBuilt paddedKnown [⟨"/b/main.js"⟩]
      ⟨"/node_modules/a/index.js"⟩ :=
    .follow (.entry (List.mem_singleton_self _) (ok_of_toOption hreal)) hfollows
  have hforced : Trace.isLeftOut paddedSetting "pad"
      "node_modules/a/node_modules/pad/index.js" = true := by decide +kernel
  have hexcluded : Trace.isLeftOut ⟨paddedProject, { paddedLimits with ignorePackages := [] },
      Trace.readReferences⟩ "pad" "node_modules/a/node_modules/pad/index.js" = false := by
    decide +kernel
  exact ⟨hreached, by decide +kernel, ⟨_, _, ok_of_toOption ha, List.mem_singleton_self _⟩,
    ok_of_toOption hon, _, ok_of_toOption hname', hforced, hexcluded⟩

/-- The bundle succeeds, but the copy that the package has is not come to, only the one of the project. -/
theorem owner_visited_iff_padded : ∃ report w' g,
    Gives (bundle copySources paddedSettings) ⟨padded, []⟩ report w' ∧
    Gathers copySources paddedSettings ⟨padded, []⟩ report g ∧
    LeftToExpansion g paddedSettings ⟨"/node_modules/a/index.js"⟩ "pad"
      ⟨"/node_modules/a/node_modules/pad/index.js"⟩ ∧
    (Package.rootDirectory g.disk "pad" ⟨"/node_modules/a/node_modules/pad/index.js"⟩).answer
      g.known = .ok (some ⟨"/node_modules/a/node_modules/pad"⟩) ∧
    g.expansion.visited = [⟨"/node_modules/pad"⟩] ∧
    ¬ g.Expandable paddedSettings ⟨"/node_modules/a/node_modules/pad"⟩ := by
  obtain ⟨report, w', hbundle⟩ := exists_bundle_padded
  obtain ⟨g, hg, hlost⟩ := owner_visited_iff stays_copySources Disk.spelled_nil hbundle
  obtain ⟨traced, x, a, rfl⟩ := gathers_padded hg
  have hleft := leftToExpansion_padded traced x a
  have howner : ((Package.rootDirectory paddedBuilt "pad"
      ⟨"/node_modules/a/node_modules/pad/index.js"⟩).answer paddedKnown).toOption =
      some (some ⟨"/node_modules/a/node_modules/pad"⟩) := by decide +kernel
  have hpad : x.visited = [⟨"/node_modules/pad"⟩] := by
    obtain ⟨_, hforced, hx⟩ := expandForced_ok hg.expanded
    obtain ⟨_, hexpand, hpad, -⟩ := expandAll_padded (hg.extends stays_copySources Disk.spelled_nil)
    obtain ⟨-, rfl⟩ := Prod.mk.inj (hforced.symm.trans hexpand)
    rw [← show _ = x from hx, hpad]
    rfl
  have hcome := (hlost _ _ _ hleft).2 "pad" _ (ok_of_toOption howner)
  refine ⟨report, _, _, hbundle, hg, hleft, ok_of_toOption howner, hpad, fun hexp => ?_⟩
  have hin : (⟨"/node_modules/a/node_modules/pad"⟩ : Path) ∈ x.visited := hcome.1.2 hexp
  rw [hpad, List.mem_singleton] at hin
  exact absurd hin (by decide)

end Stowage.Bundle
