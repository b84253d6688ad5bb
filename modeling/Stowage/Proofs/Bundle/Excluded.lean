/-
Modules that are excluded. The trace never follows a reference to a file below an installed copy of such a module, and
the expansion never visits a root that is asked for or needed under its name. Only names are compared though, so the
files of a copy come into the archive by everything that takes in paths as they are: a directory that is copied with
all that is below it, a link, the manifests around a file.
-/
import Stowage.Proofs.Bundle.Forced
import Stowage.Proofs.Bundle.Names

open Stowage.Path

namespace Stowage.Bundle

open Manifests

variable {package name : String}

/-! ## Below an installed package -/

/-- The name is one of something below a directory in which the package is installed, at any depth. -/
def IsBelow (package name : String) : Prop :=
  ("/node_modules/" ++ package ++ "/").toList <:+: '/' :: name.toList

theorem occurs_iff {part text : List Char} : Trace.occurs part text = true ↔ part <:+: text := by
  induction text with
  | nil => simp [Trace.occurs]
  | cons c text ih =>
    simp only [Trace.occurs, Bool.or_eq_true, List.isPrefixOf_iff_prefix, ih, List.infix_cons_iff]

/-- What a trace compares names with. -/
theorem isBelow_iff : IsBelow package name ↔
    name.startsWith ("node_modules/" ++ package ++ "/") = true ∨
      Trace.occurs ("/node_modules/" ++ package ++ "/").toList name.toList = true := by
  have hpart : ("/node_modules/" ++ package ++ "/").toList =
      '/' :: ("node_modules/" ++ package ++ "/").toList := by simp
  unfold IsBelow
  rw [occurs_iff, String.startsWith_string_iff, List.infix_cons_iff]
  conv_lhs => rw [hpart, List.cons_prefix_cons, and_iff_right rfl, ← hpart]

/-- Where some pieces lead on to one that is below a package, they lead on to nothing else. -/
theorem IsBelow.of_sibling {ps rest : List String} {s : String} (hs : '/' ∉ s.toList) (hrest : rest ≠ [])
    (h : IsBelow package (joined (ps ++ [s]))) : IsBelow package (joined (ps ++ rest)) := by
  obtain ⟨upper, hupper⟩ : ∃ upper : List Char, ∀ rest : List String, rest ≠ [] →
      '/' :: (joined (ps ++ rest)).toList = upper ++ (joined rest).toList := by
    by_cases hps : ps = []
    · exact ⟨['/'], fun rest _ => by rw [hps]; rfl⟩
    · refine ⟨'/' :: (joined ps).toList ++ ['/'], fun rest hrest => ?_⟩
      unfold joined
      rw [String.intercalate_append_of_ne_nil hps hrest]
      simp
  have hjoined : joined [s] = s := String.intercalate_singleton
  have hend : ("/node_modules/" ++ package ++ "/").toList.getLast? = some '/' := by
    rw [String.toList_append, show "/".toList = ['/'] from rfl, List.getLast?_concat]
  unfold IsBelow at h ⊢
  rw [hupper _ (by simp), hjoined] at h
  rw [hupper _ hrest]
  obtain ⟨front, back, heq⟩ := h
  rcases List.append_eq_append_iff.1 heq with ⟨t, ht, -⟩ | ⟨t, ht, hback⟩
  · exact ⟨front, t ++ (joined rest).toList, by simp only [ht, List.append_assoc]⟩
  · -- what goes beyond ends with a separator, and the last piece has none
    obtain rfl : t = [] := by
      by_contra hne
      have hlast := congrArg List.getLast? ht
      rw [List.getLast?_append_of_ne_nil _ hne, List.getLast?_append_of_ne_nil _ (by simp), hend] at hlast
      exact hs (hback ▸ List.mem_append_left _ (List.mem_of_getLast? hlast.symm))
    exact ⟨front, (joined rest).toList, by rw [ht, List.append_nil]⟩

theorem not_isBelow_empty : ¬ IsBelow package "" := fun h => by
  have hlength := h.length_le
  simp at hlength

/-- A file is below a package if the manifest of a directory above it is. -/
theorem IsBelow.of_manifest {root : Path} {upper rest : List String}
    (hnames : ∀ n ∈ upper ++ rest, IsPiece n) (hrest : rest ≠ [])
    (hname : nameBelow (ofLocation upper / manifestName) root = .ok name) (h : IsBelow package name) :
    ∃ m, nameBelow (ofLocation (upper ++ rest)) root = .ok m ∧ IsBelow package m := by
  have hupper : ∀ n ∈ upper, IsPiece n := fun n hn => hnames n (List.mem_append_left _ hn)
  have hcomponents : ∀ more : List String, (∀ n ∈ more, IsPiece n) →
      (ofLocation (upper ++ more)).components =
        (ofLocation upper).components ++ more.map Component.ofMove := fun more hmore => by
    rw [components_of_absolute (isAbsolute_ofLocation _), components_of_absolute (isAbsolute_ofLocation _),
      moves_ofLocation hupper, moves_ofLocation fun n hn => (List.mem_append.1 hn).elim (hupper n) (hmore n),
      List.map_append, List.cons_append]
  have hstep : ∀ ns : List String, (ns.map Component.ofMove).filterMap Component.step? = ns := fun ns => by
    rw [List.filterMap_map, show Component.step? ∘ Component.ofMove = some from funext step?_ofMove,
      List.filterMap_some]
  rw [ofLocation_concat hupper isPiece_manifestName] at hname
  obtain ⟨hstarts, rfl⟩ := nameBelow_eq_ok.1 hname
  unfold startsWith at hstarts
  rw [hcomponents _ fun n hn => List.mem_singleton.1 hn ▸ isPiece_manifestName] at hstarts h
  rw [List.isPrefixOf_iff_prefix] at hstarts
  by_cases hlength : root.components.length ≤ (ofLocation upper).components.length
  · refine ⟨_, nameBelow_eq_ok.2 ⟨?_, rfl⟩, ?_⟩
    · unfold startsWith
      rw [hcomponents rest fun n hn => hnames n (List.mem_append_right _ hn), List.isPrefixOf_iff_prefix]
      exact (List.prefix_of_prefix_length_le hstarts (List.prefix_append _ _) hlength).trans
        (List.prefix_append _ _)
    · rw [List.drop_append_of_le_length hlength, List.filterMap_append, hstep] at h
      rw [hcomponents rest fun n hn => hnames n (List.mem_append_right _ hn),
        List.drop_append_of_le_length hlength, List.filterMap_append, hstep]
      exact h.of_sibling isPiece_manifestName.no_slash hrest
  · -- the manifest is the root itself and has no name there
    rw [List.drop_eq_nil_of_le (by simp; omega)] at h
    exact absurd h not_isBelow_empty

/-! ## What is left out -/

section
variable {compiler : Compiler} {o : BundleSettings} {w w' : World} {report : Report} {g : Gathering}
  (hg : Gathers compiler o w report g) (hp : package ∈ o.exclude)
include hg hp

/-- No reference is followed to a file below an excluded package. -/
theorem Gathers.not_isBelow {file target : Path} {specifier : String} {kind : Trace.ReferenceKind}
    (h : Trace.Follows g.setting g.disk g.known file specifier kind target)
    (hname : g.project.relative target = .ok name) : ¬ IsBelow package name := by
  intro hbelow
  obtain ⟨m, hm, hkept⟩ := h.leads.kept
  obtain rfl : name = m := Except.ok.inj (hname.symm.trans hm)
  have hpackages : package ∈ g.setting.limits.ignorePackages := by
    show package ∈ g.limits.ignorePackages
    rw [ignorePackages_of_traceLimits hg.limits]
    exact List.mem_append_right _ hp
  rw [isLeftOut_iff.2 (.inr ⟨package, hpackages, .inr (isBelow_iff.1 hbelow)⟩)] at hkept
  cases hkept

/-- Only the file of an entry point can be below an excluded package. -/
theorem Gathers.entry_of_isBelow {file : Path} (h : Trace.Reached g.setting g.disk g.known g.entries file)
    (hname : g.project.relative file = .ok name) (hbelow : IsBelow package name) :
    ∃ e ∈ g.entries, g.disk.canonicalize e = .ok file := by
  cases h with
  | entry he hreal => exact ⟨_, he, hreal⟩
  | follow _ hf => exact absurd hbelow (hg.not_isBelow hp hf hname)

end

/-! ## What comes in nonetheless -/

open Archive Contents

/-- The ways on which a name comes into the archive without a look at the directories that it goes through. The
entries are collected from `d`, and `location` is the name of the service. -/
inductive Slips (g : Gathering) (o : BundleSettings) (d : Disk) (location package : String) : String → Prop
  /-- A file in the working directory. -/
  | generated {name : String} {source : Source} {entries : List (Path × EntryType)}
      (tree : d.tree g.compiled.workDir = .ok entries)
      (file : .entry name source ∈ generatedFiles location g.compiled.workDir entries) :
      Slips g o d location package name
  /-- A manifest above an entry point that is below the package itself. -/
  | above {name m : String} {file dir : Path} (entry : ∃ e ∈ g.entries, g.disk.canonicalize e = .ok file)
      (relative : g.project.relative file = .ok m) (below : IsBelow package m)
      (found : Trace.Above g.setting g.disk g.known file.ancestors.tail dir)
      (named : g.project.relative (dir / manifestName) = .ok name) : Slips g o d location package name
  /-- The manifest of a directory that a followed reference names or leads to, whatever file is followed. -/
  | around {name specifier : String} {kind : Trace.ReferenceKind} {file target dir : Path}
      (reached : Trace.Reached g.setting g.disk g.known g.entries file)
      (followed : Trace.Follows g.setting g.disk g.known file specifier kind target)
      (directory : (∃ place, Trace.namedDirectory g.disk file specifier = some place ∧
        g.disk.canonicalize place = .ok dir) ∨ dir = target)
      (named : g.project.relative (dir / manifestName) = .ok name) : Slips g o d location package name
  /-- A link on the way of a reference, or what it brings in if it leads out of the workspace. -/
  | link {name : String} (brought : Brings d g.project.root g.traced.links name) :
      Slips g o d location package name
  /-- A file of a module that is included with all its files and is not excluded itself. -/
  | held {name : String} {root : Path} (expandable : g.Expandable o root)
      (holds : Expand.HoldsName g.project g.disk g.known root name) : Slips g o d location package name
  /-- A link in such a module or in its place, or what it brings in. -/
  | place {name : String} (brought : Brings d g.project.root g.expansion.extras name) :
      Slips g o d location package name

section
variable {compiler : Compiler} {o : BundleSettings} {w w' : World} {report : Report} {g : Gathering}
  (hg : Gathers compiler o w report g) (hc : compiler.Stays) (hd : Disk.Spelled w.disk.here)
include hg hc hd

theorem Gathers.traced_exact : Trace.Exact g.setting g.disk g.known g.entries g.traced :=
  Trace.exact_of_traceWithin (hg.fixed hc hd) (hg.here hc ▸ hd) hg.traced

theorem Gathers.slips_of_traced (hp : package ∈ o.exclude) (d : Disk) (location : String)
    (hn : name ∈ g.traced.files) (hbelow : IsBelow package name) : Slips g o d location package name := by
  have hs := hg.fixed hc hd
  have hexact := hg.traced_exact hc hd
  obtain ⟨r, hr, hentry, hlink, -⟩ := (hexact.files name).1 hn
  obtain ⟨file, hfile, path, hcontributes, hname⟩ :=
    hexact.kind name r hr (mt (hexact.entry name r hr).1 hentry)
  generalize r.kind = kind at hcontributes hlink
  -- a manifest is below the package only if all files below its directory are
  have hmanifest : ∀ {file dir : Path}, file.IsPlain → dir ∈ file.ancestors.tail →
      g.project.relative (dir / manifestName) = .ok name →
      ∃ m, g.project.relative file = .ok m ∧ IsBelow package m := by
    rintro file dir ⟨names, hnames, rfl⟩ hdir hname
    obtain ⟨upper, rest, rfl, hrest, rfl⟩ := mem_tail_ancestors_ofLocation hnames hdir
    exact hbelow.of_manifest hnames hrest hname
  cases hcontributes with
  | above h =>
    have hdir := h
    obtain ⟨before, after, -, hdirs, -⟩ := hdir
    obtain ⟨m, hm, hbelow'⟩ := hmanifest (hfile.isPlain hs (hg.here hc ▸ hd))
      (hdirs ▸ List.mem_append_right before List.mem_cons_self) hname
    exact .above (hg.entry_of_isBelow hp hfile hm hbelow') hm hbelow' h hname
  | around h ha =>
    cases ha with
    | directory named _ real _ => exact .around hfile h (.inl ⟨_, named, real⟩) hname
    | root _ owner =>
      have htarget := (Project.settled_resolve hs _ _).holds h.leads.resolved
      have hdir := (Package.settled_rootDirectory _ htarget).holds owner _ rfl
      rw [ancestors_eq] at hdir
      rcases List.mem_cons.1 hdir with rfl | hdir
      · exact .around hfile h (.inr rfl) hname
      · obtain ⟨m, hm, hbelow'⟩ := hmanifest htarget (by rw [ancestors_eq]; exact hdir) hname
        exact absurd hbelow' (hg.not_isBelow hp h hm)
    | place => exact absurd rfl hlink
  | target h => exact absurd hbelow (hg.not_isBelow hp h hname)

end

/-- A bundle that succeeds keeps excluded modules out where it looks for modules: only files of entry points can be
traced below an installed copy, and no root is visited under the name of the module. What the archive has below a
copy was brought in by the user's extras, or it came in on one of the ways on which nothing is compared. -/
theorem bundle_keeps_out_excluded {compiler : Compiler} {o : BundleSettings} {w w' : World} {report : Report}
    (hc : compiler.Stays) (hd : Disk.Spelled w.disk.here) (h : Gives (bundle compiler o) w report w') :
    ∃ g d location, Gathers compiler o w report g ∧ g.project.relative g.project.start = .ok location ∧
      Gives (collect d location g.compiled.workDir g.traced g.expansion o.extras)
        (.create d g.project.root) () g.contents ∧
      ∀ package ∈ o.exclude,
        (∀ file name, Trace.Reached g.setting g.disk g.known g.entries file →
          g.project.relative file = .ok name → IsBelow package name →
            ∃ e ∈ g.entries, g.disk.canonicalize e = .ok file) ∧
        (∀ root ∈ g.expansion.visited, ∃ module needing, module ≠ package ∧
          (g.project.packageRoot g.disk module g.project.start needing).answer g.known =
            .ok (.directory root)) ∧
        ∀ name ∈ g.contents.names, IsBelow package name →
          ¬ Brings d g.project.root (o.extras.map (extraName location)) name →
            Slips g o d location package name := by
  obtain ⟨g, hg⟩ := exists_gathers h
  obtain ⟨d, location, hlocation, hcollect⟩ := hg.collected
  have hexpanded := hg.exact hc hd
  have hclean : ∀ {n : String} {p : Path}, g.project.relative p = .ok n → bareText n = n := fun h =>
    (isClean_of_nameBelow h).bareText
  refine ⟨g, d, location, hg, hlocation, hcollect, fun package hp => ⟨fun file name hfile hname hbelow =>
    hg.entry_of_isBelow hp hfile hname hbelow, fun root hroot => ?_, fun name hname hbelow hno => ?_⟩⟩
  · have hleads : ∃ module needing, Expand.LeadsTo g.project ⟨o.optionalModules, o.exclude⟩ g.disk g.known
        g.project.start module needing root := by
      cases (hexpanded.visited root).1 hroot with
      | requested _ hleads => exact ⟨_, _, hleads⟩
      | needed _ _ hleads => exact ⟨_, _, hleads⟩
    obtain ⟨module, needing, hkept, hfound⟩ := hleads
    exact ⟨module, needing, fun he => hkept (he ▸ hp), hfound⟩
  · rcases (mem_names_collect hcollect).1 hname with hn | hn | hn | hn | ⟨entries, htree, source, hn⟩ | hn
    · obtain ⟨m, hm, rfl⟩ := List.mem_map.1 hn
      have hclean : IsClean m := Trace.clean_trace _ _ _ _ _ _ (Prod.ext hg.traced rfl) m (.inl hm)
      rw [hclean.bareText] at hbelow ⊢
      exact hg.slips_of_traced hc hd hp d location hm hbelow
    · exact .link hn
    · obtain ⟨m, hm, rfl⟩ := List.mem_map.1 hn
      obtain ⟨root, hroot, path, q, hpath, hholds, hrelative⟩ := (hexpanded.files m).1 hm
      rw [hclean hrelative]
      exact .held hroot ⟨path, q, hpath, hholds, hrelative⟩
    · exact .place hn
    · exact .generated htree hn
    · exact absurd hn hno

/-! ### A copy inside a forced module -/

/-- A project with a module that has its own copy of another one. -/
def nested : Disk where
  entries := [
    (["main.js"], .file (.text "")),
    (["node_modules"], .directory),
    (["node_modules", "x"], .directory),
    (["node_modules", "x", "index.js"], .file (.text "")),
    (["node_modules", "x", "node_modules"], .directory),
    (["node_modules", "x", "node_modules", "n"], .directory),
    (["node_modules", "x", "node_modules", "n", "index.js"], .file (.text "")),
    (["node_modules", "x", "package.json"], .file (.text "\x7b\"name\":\"x\"\x7d")),
    (["package.json"], .file (.text "\x7b\"name\":\"app\"\x7d"))]
  here := []

def nestedSettings : BundleSettings where
  serviceDir := ⟨"/"⟩
  entries := [("main", ⟨"main.js"⟩)]
  output := some ⟨"/out"⟩
  format := .zip
  level := 9
  sourceType := .commonJs
  externals := []
  forceInclude := ["x"]
  exclude := ["n"]
  extras := []
  optionalModules := []
  ignorePaths := []
  buildDir := ⟨"b"⟩
  strict := false
  keepBuild := true

/-- The disk once the entry point is copied. -/
def nestedBuilt : Disk :=
  { nested with entries := (["b"], .directory) :: (["b", "main.js"], .file (.text "")) :: nested.entries }

def nestedProject : Project :=
  ⟨⟨"/"⟩, ⟨"/"⟩, Resolver.resolve ⟨[(⟨"/"⟩ : Path) / Package.modulesDir, (⟨"/"⟩ : Path) / Package.modulesDir],
    SourceType.commonJs.conditions, Specifier.isBuiltin⟩⟩

def nestedKnown : Manifests := (openProject nested ⟨"/"⟩ .commonJs).after .empty

def nestedCompiled : Compiled := ⟨[("main", ⟨"/b/main.js"⟩)], ⟨"/b"⟩⟩

def nestedLimits : Trace.Limits := ⟨[], ["x", "n"], [⟨"/b"⟩], false⟩

theorem gathers_nested {report : Report} {g : Gathering}
    (hg : Gathers copySources nestedSettings ⟨nested, []⟩ report g) :
    ∃ traced x a, g = ⟨nestedProject, nestedKnown, nestedCompiled, nestedBuilt, nestedLimits, traced, x, a⟩ := by
  have hreal : (nested.canonicalize ⟨"/"⟩).toOption = some ⟨"/"⟩ := by decide +kernel
  have hshown : shown (openProject nested ⟨"/"⟩ .commonJs) .empty (fun s _ => (s.start, s.root)) =
      some (⟨"/"⟩, ⟨"/"⟩) := by decide +kernel
  have hroot : ((Workspace.root nested ⟨"/"⟩).answer .empty).toOption = some ⟨"/"⟩ := by decide +kernel
  have hclear : shown (clear ((⟨"/"⟩ : Path).join ⟨"b"⟩)) ⟨nested, []⟩ (fun _ w => w) =
      some ⟨nested, []⟩ := by decide +kernel
  have hcopy : shown (copySources ⟨[("main", ⟨"main.js"⟩)], [], .commonJs, ⟨"/"⟩,
      (⟨"/"⟩ : Path).join ⟨"b"⟩⟩) ⟨nested, []⟩ (fun c w => (c, w)) =
      some (nestedCompiled, ⟨nestedBuilt, []⟩) := by decide +kernel
  have hlimits : traceLimits nestedSettings nestedCompiled.workDir = .ok nestedLimits := rfl
  obtain ⟨_, _, hclear', rfl⟩ := exists_gives hclear
  obtain ⟨_, _, hcopy', hbuilt⟩ := exists_gives hcopy
  cases hbuilt
  exact hg.eq_of_steps (ok_of_toOption hreal) (gives_openProject hshown hroot) hclear' hcopy' hlimits

/-- The copy inside the forced module is in the archive, though only the module itself is visited. -/
theorem bundle_keeps_out_excluded_nested : ∃ report w' g d location,
    Gives (bundle copySources nestedSettings) ⟨nested, []⟩ report w' ∧
    Gathers copySources nestedSettings ⟨nested, []⟩ report g ∧
    g.expansion.visited = [⟨"/node_modules/x"⟩] ∧
    "node_modules/x/node_modules/n/index.js" ∈ g.contents.names ∧
    IsBelow "n" "node_modules/x/node_modules/n/index.js" ∧
    Slips g nestedSettings d location "n" "node_modules/x/node_modules/n/index.js" := by
  have hrun : shown (bundle copySources nestedSettings) ⟨nested, []⟩ (fun r _ => r.compiled) = some 1 := by
    decide +kernel
  obtain ⟨report, w', hbundle, -⟩ := exists_gives hrun
  obtain ⟨g, d, location, hg, -, -, hslips⟩ := bundle_keeps_out_excluded stays_copySources Disk.spelled_nil hbundle
  obtain ⟨traced, x, a, rfl⟩ := gathers_nested hg
  have hexpanded : (expandForced nestedProject nestedSettings nestedBuilt
      ((Trace.trace ⟨nestedProject, nestedLimits, Trace.readReferences⟩ nestedBuilt [⟨"/b/main.js"⟩]).after
        nestedKnown)).1.toOption.map (fun x => (x.visited, x.files)) = some ([⟨"/node_modules/x"⟩],
      ["node_modules/x/index.js", "node_modules/x/node_modules/n/index.js", "node_modules/x/package.json"]) := by
    decide +kernel
  have hx : (expandForced nestedProject nestedSettings nestedBuilt
      ((Trace.trace ⟨nestedProject, nestedLimits, Trace.readReferences⟩ nestedBuilt [⟨"/b/main.js"⟩]).after
        nestedKnown)).1 = .ok x := hg.expanded
  rw [hx] at hexpanded
  obtain ⟨hvisited, hfiles⟩ := Prod.mk.inj (Option.some.inj hexpanded)
  have hname : bareText "node_modules/x/node_modules/n/index.js" =
      "node_modules/x/node_modules/n/index.js" := by decide +kernel
  have hin : "node_modules/x/node_modules/n/index.js" ∈ a.names := by
    rw [← hname]
    refine hg.mem_names ?_
    show _ ∈ x.files
    rw [hfiles]
    decide
  have hbelow : IsBelow "n" "node_modules/x/node_modules/n/index.js" := isBelow_iff.2 (.inr (by decide +kernel))
  refine ⟨report, w', _, d, location, hbundle, hg, hvisited, hin, hbelow, ?_⟩
  refine (hslips "n" (List.mem_singleton_self _)).2.2 _ hin hbelow ?_
  rintro ⟨b, hb, hmem⟩
  obtain ⟨-, rfl⟩ := gives_pure.1 hb
  exact absurd hmem List.not_mem_nil

end Stowage.Bundle
