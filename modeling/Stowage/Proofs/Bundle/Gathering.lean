/-
What a bundle that succeeds has gathered when it writes the archive, step by step: the project, the disk
with the compiled entry points, the trace, the expansion and the entries. The expansion is the one of
the whole disk, since what was read during the trace changes no answer.
-/
import Stowage.Bundle.Bundle
import Stowage.Proofs.Archive.Contents
import Stowage.Proofs.Compile.Compiler
import Stowage.Proofs.Expansion.Closure
import Stowage.Proofs.Trace.Closure

namespace Stowage.Bundle

open Manifests

/-! ## What a bundle gathers -/

/-- What a bundle has come to when it writes the archive. -/
structure Gathering where
  project : Project
  /-- The manifests that were read before the trace. -/
  known : Manifests
  compiled : Compiled
  /-- The disk once the entry points are compiled. -/
  disk : Disk
  limits : Trace.Limits
  traced : Trace.Result
  expansion : Expansion
  contents : Archive.Contents

namespace Gathering

variable (g : Gathering) (o : BundleSettings)

/-- What the trace depends on. -/
def setting : Trace.Setting := ⟨g.project, g.limits, Trace.readReferences⟩

/-- The files that the trace starts from. -/
def entries : List Path := g.compiled.outputs.map Prod.snd

def trace : Query Trace.Result := Trace.trace g.setting g.disk g.entries

/-- The root of a module can be come to from what is to be included with all its files. -/
def Expandable (root : Path) : Prop :=
  Expand.Expandable g.project ⟨o.optionalModules, o.exclude⟩ g.disk g.known g.project.start
    o.forceInclude root

end Gathering

/-- The bundle that starts from `w` gathers what `g` says, and its archive is written from that. -/
structure Gathers (compiler : Compiler) (o : BundleSettings) (w : World) (report : Report)
    (g : Gathering) : Prop where
  opened : ∃ dir, w.disk.canonicalize o.serviceDir = .ok dir ∧
    Gives (openProject w.disk dir o.sourceType) .empty g.project g.known ∧
    ∃ w₁ w₂, Gives (clear (dir.join o.buildDir)) w () w₁ ∧
      Gives (compiler ⟨o.entries, o.externals, o.sourceType, g.project.start, dir.join o.buildDir⟩)
        w₁ g.compiled w₂ ∧ g.disk = w₂.disk
  limits : traceLimits o g.compiled.workDir = .ok g.limits
  traced : g.trace.answer g.known = .ok g.traced
  expanded : (expandForced g.project o g.disk (g.trace.after g.known)).1 = .ok g.expansion
  collected : ∃ d name, g.project.relative g.project.start = .ok name ∧
    Gives (collect d name g.compiled.workDir g.traced g.expansion o.extras)
      (.create d g.project.root) () g.contents
  written : ∃ w₁ w₂ destination,
    Gives (g.contents.write destination o.format o.level) w₁ report.archive w₂

variable {compiler : Compiler} {o : BundleSettings} {w w' : World} {report : Report}

theorem gives_ask {α : Type} {ms ms' : Manifests} {q : Query α} {a : α} :
    Gives (ask ms q) w (a, ms') w' ↔ q.answer ms = .ok a ∧ ms' = q.after ms ∧ w' = w := by
  show Gives (Action.ofExcept (q.answer ms) >>= fun a => pure (a, q.after ms)) w _ w' ↔ _
  constructor
  · intro h
    obtain ⟨b, w₁, h₁, h₂⟩ := gives_bind.1 h
    obtain ⟨hb, rfl⟩ := Action.gives_ofExcept.1 h₁
    obtain ⟨hpair, rfl⟩ := gives_pure.1 h₂
    cases hpair
    exact ⟨hb, rfl, rfl⟩
  · rintro ⟨ha, rfl, rfl⟩
    exact gives_bind.2 ⟨a, w', Action.gives_ofExcept.2 ⟨ha, rfl⟩, gives_pure.2 ⟨rfl, rfl⟩⟩

theorem gives_collectAll {root : Path} {c : Archive.Contents.Collect Unit} {a : Archive.Contents}
    (h : Gives (collectAll root c) w a w') :
    Gives c (.create w.disk root) () a ∧ w'.disk = w.disk := by
  have hnotes : ∀ texts : List String, Keeps (fun v : World => v.disk = w.disk) (texts.forM Action.note) :=
    fun texts => keeps_forM (fun _ _ hv => hv) texts
  obtain ⟨d, w₁, hd, h₁⟩ := gives_bind.1 h
  obtain ⟨rfl, rfl⟩ := Action.gives_disk.1 hd
  obtain ⟨_, w₂, h₂, h₃⟩ := gives_bind.1 h₁
  obtain ⟨_, w₃, h₄, h₅⟩ := gives_bind.1 h₃
  obtain ⟨hr, rfl⟩ := Action.gives_ofExcept.1 h₄
  obtain ⟨ha, rfl⟩ := gives_pure.1 h₅
  exact ⟨Prod.ext hr ha.symm, h₂.keeps (hnotes _) rfl⟩

/-- What was put together when the archive is to be written. -/
structure Assembled where
  traced : Trace.Result
  expansion : Expansion
  manifest : Manifest
  /-- The manifest that goes into the archive. -/
  packed : Json
  /-- The place of the service in the workspace. -/
  serviceName : String
  contents : Archive.Contents

/-- Packing up to where the archive is written. -/
def assemble (s : Project) (ms : Manifests) (o : BundleSettings) (compiled : Compiled) :
    Action Assembled := do
  let limits ← Action.ofExcept (traceLimits o compiled.workDir)
  let d ← Action.disk
  let (traced, ms) ← ask ms
    (Trace.trace ⟨s, limits, Trace.readReferences⟩ d (compiled.outputs.map Prod.snd))
  let forced := expandForced s o d ms
  let expansion ← Action.ofExcept forced.1
  let (manifest, _) ← ask forced.2 (Manifests.require d s.start)
  let packed ← Action.ofExcept (manifest.packed compiled.outputs compiled.workDir o.sourceType)
  Action.change (Disk.write (compiled.workDir / manifestName) (.text (Json.pretty packed)))
  let serviceName ← Action.ofExcept (s.relative s.start)
  let a ← collectAll s.root
    (collect (← Action.disk) serviceName compiled.workDir traced expansion o.extras)
  return ⟨traced, expansion, manifest, packed, serviceName, a⟩

theorem package_eq (s : Project) (ms : Manifests) (o : BundleSettings) (c : Compiled) (output : Path) :
    package s ms o c output = assemble s ms o c >>= fun x => do
      let archive ← x.contents.write (output / fileName x.manifest s.start o.format) o.format o.level
      return ⟨archive, c.outputs.length, x.traced.files.length, x.expansion.size,
        x.traced.warnings.map Trace.Warning.text ++ x.expansion.warnings⟩ := by
  unfold package assemble
  simp only [bind_assoc, pure_bind]

/-- What packing puts together, step by step. -/
structure Assembles (s : Project) (ms : Manifests) (o : BundleSettings) (c : Compiled) (w : World)
    (x : Assembled) (w' : World) : Prop where
  traced : ∃ limits, traceLimits o c.workDir = .ok limits ∧
    (Trace.trace ⟨s, limits, Trace.readReferences⟩ w.disk (c.outputs.map Prod.snd)).answer ms =
      .ok x.traced ∧
    (expandForced s o w.disk ((Trace.trace ⟨s, limits, Trace.readReferences⟩ w.disk
      (c.outputs.map Prod.snd)).after ms)).1 = .ok x.expansion
  packed : x.manifest.packed c.outputs c.workDir o.sourceType = .ok x.packed
  written : Gives (Disk.write (c.workDir / manifestName) (.text (Json.pretty x.packed))) w.disk () w'.disk
  serviceName : s.relative s.start = .ok x.serviceName
  collected : Gives (collect w'.disk x.serviceName c.workDir x.traced x.expansion o.extras)
    (.create w'.disk s.root) () x.contents

theorem gives_assemble {s : Project} {ms : Manifests} {c : Compiled} {x : Assembled}
    (h : Gives (assemble s ms o c) w x w') : Assembles s ms o c w x w' := by
  obtain ⟨limits, w₁, hl, h₁⟩ := gives_bind.1 h
  obtain ⟨hlimits, rfl⟩ := Action.gives_ofExcept.1 hl
  obtain ⟨d, w₂, hd, h₂⟩ := gives_bind.1 h₁
  obtain ⟨rfl, rfl⟩ := Action.gives_disk.1 hd
  obtain ⟨⟨traced, ms₁⟩, w₃, ht, h₃⟩ := gives_bind.1 h₂
  obtain ⟨htraced, rfl, rfl⟩ := gives_ask.1 ht
  obtain ⟨expansion, w₄, hx, h₄⟩ := gives_bind.1 h₃
  obtain ⟨hexpanded, rfl⟩ := Action.gives_ofExcept.1 hx
  obtain ⟨⟨manifest, ms₂⟩, w₅, hm, h₅⟩ := gives_bind.1 h₄
  obtain ⟨-, -, rfl⟩ := gives_ask.1 hm
  obtain ⟨packed, w₆, hp, h₆⟩ := gives_bind.1 h₅
  obtain ⟨hpacked, rfl⟩ := Action.gives_ofExcept.1 hp
  obtain ⟨_, w₇, hw, h₇⟩ := gives_bind.1 h₆
  obtain ⟨name, w₈, hn, h₈⟩ := gives_bind.1 h₇
  obtain ⟨hname, rfl⟩ := Action.gives_ofExcept.1 hn
  obtain ⟨d', w₉, hd', h₉⟩ := gives_bind.1 h₈
  obtain ⟨rfl, rfl⟩ := Action.gives_disk.1 hd'
  obtain ⟨a, w₁₀, ha, h₁₀⟩ := gives_bind.1 h₉
  obtain ⟨rfl, rfl⟩ := gives_pure.1 h₁₀
  obtain ⟨hcollected, hdisk⟩ := gives_collectAll ha
  exact ⟨⟨limits, hlimits, htraced, hexpanded⟩, hpacked, hdisk ▸ (Action.gives_change.1 hw).1, hname,
    hdisk ▸ hcollected⟩

/-- What was compiled is packed once it is gathered. -/
theorem gives_package {s : Project} {ms : Manifests} {c : Compiled} {output : Path}
    (h : Gives (package s ms o c output) w report w') : ∃ x w₁, Assembles s ms o c w x w₁ ∧
      Gives (x.contents.write (output / fileName x.manifest s.start o.format) o.format o.level)
        w₁ report.archive w' := by
  rw [package_eq] at h
  obtain ⟨x, w₁, hx, h₁⟩ := gives_bind.1 h
  obtain ⟨archive, w₂, hwritten, h₂⟩ := gives_bind.1 h₁
  obtain ⟨rfl, rfl⟩ := gives_pure.1 h₂
  exact ⟨x, w₁, gives_assemble hx, hwritten⟩

/-- Packing succeeds when each of its steps does. -/
theorem exists_gives_package {s : Project} {ms ms₁ : Manifests} {c : Compiled} {output : Path} {limits : Trace.Limits}
    {traced : Trace.Result} {st : Expansion.State} {manifest : Manifest} {packed : Json} {d' : Disk} {name : String}
    {summary : Archive.Summary} (hlimits : traceLimits o c.workDir = .ok limits)
    (htraced : Gives (Trace.trace ⟨s, limits, Trace.readReferences⟩ w.disk (c.outputs.map Prod.snd)) ms traced ms₁)
    (hexpanded : Gives (Expand.expandAll s ⟨o.optionalModules, o.exclude⟩ w.disk s.start
      (o.forceInclude.map fun name => (name, []))) ⟨ms₁, .empty⟩ () st)
    (hmanifest : (Manifests.require w.disk s.start).answer st.manifests = .ok manifest)
    (hpacked : manifest.packed c.outputs c.workDir o.sourceType = .ok packed)
    (hchanged : Gives (Disk.write (c.workDir / manifestName) (.text (Json.pretty packed))) w.disk () d')
    (hname : s.relative s.start = .ok name)
    (hwritten : Gives (collectAll s.root (collect d' name c.workDir traced st.expansion o.extras) >>= fun a =>
      a.write (output / fileName manifest s.start o.format) o.format o.level) ⟨d', w.notes⟩ summary w') :
    ∃ report, Gives (package s ms o c output) w report w' := by
  obtain ⟨a, w₁, hcollected, hwritten⟩ := gives_bind.1 hwritten
  have hforced : expandForced s o w.disk ms₁ = (.ok st.expansion, st.manifests) := by
    unfold Gives at hexpanded
    unfold expandForced
    dsimp only
    rw [hexpanded]
    rfl
  have hassembled : Gives (assemble s ms o c) w ⟨traced, st.expansion, manifest, packed, name, a⟩ w₁ := by
    refine gives_bind.2 ⟨limits, w, Action.gives_ofExcept.2 ⟨hlimits, rfl⟩, ?_⟩
    refine gives_bind.2 ⟨w.disk, w, Action.gives_disk.2 ⟨rfl, rfl⟩, ?_⟩
    refine gives_bind.2 ⟨(traced, ms₁), w,
      gives_ask.2 ⟨congrArg Prod.fst htraced, (congrArg Prod.snd htraced).symm, rfl⟩, ?_⟩
    dsimp only
    rw [hforced]
    refine gives_bind.2 ⟨st.expansion, w, Action.gives_ofExcept.2 ⟨rfl, rfl⟩, ?_⟩
    refine gives_bind.2 ⟨(manifest, _), w, gives_ask.2 ⟨hmanifest, rfl, rfl⟩, ?_⟩
    refine gives_bind.2 ⟨packed, w, Action.gives_ofExcept.2 ⟨hpacked, rfl⟩, ?_⟩
    refine gives_bind.2 ⟨(), ⟨d', w.notes⟩, Action.gives_change.2 ⟨hchanged, rfl⟩, ?_⟩
    refine gives_bind.2 ⟨name, _, Action.gives_ofExcept.2 ⟨hname, rfl⟩, ?_⟩
    refine gives_bind.2 ⟨d', _, Action.gives_disk.2 ⟨rfl, rfl⟩, ?_⟩
    exact gives_bind.2 ⟨a, w₁, hcollected, gives_pure.2 ⟨rfl, rfl⟩⟩
  rw [package_eq]
  exact ⟨_, gives_bind.2 ⟨_, w₁, hassembled, gives_bind.2 ⟨summary, w', hwritten, gives_pure.2 ⟨rfl, rfl⟩⟩⟩⟩

/-- What is built was compiled and then packed. -/
theorem gives_build {s : Project} {ms : Manifests} {workDir output : Path}
    (h : Gives (build compiler s ms o workDir output) w report w') :
    ∃ c w₁, Gives (compiler ⟨o.entries, o.externals, o.sourceType, s.start, workDir⟩) w c w₁ ∧
      Gives (package s ms o c output) w₁ report w' := by
  obtain ⟨c, w₁, hc, h₁⟩ := gives_bind.1 h
  refine ⟨c, w₁, hc, ?_⟩
  split at h₁
  · obtain ⟨_, _, h₂, -⟩ := gives_bind.1 h₁
    exact absurd h₂ gives_throw
  · exact h₁

/-- A bundle that succeeds has built. -/
theorem gives_buildOnce {s : Project} {ms : Manifests} {workDir output : Path}
    (h : Gives (buildOnce compiler s ms o workDir output) w report w') :
    ∃ w₁, Gives (build compiler s ms o workDir output) w report w₁ := by
  have h₁ := Action.gives_of_tryCatch (fun e w₁ h => by
    obtain ⟨_, _, -, hthrow⟩ := gives_bind.1 h
    exact gives_throw hthrow) h
  obtain ⟨r, w₁, hr, h₂⟩ := gives_bind.1 h₁
  obtain ⟨_, _, -, h₃⟩ := gives_bind.1 h₂
  obtain ⟨rfl, -⟩ := gives_pure.1 h₃
  exact ⟨w₁, hr⟩

/-- A bundle that succeeds gathers. -/
theorem exists_gathers (h : Gives (bundle compiler o) w report w') :
    ∃ g, Gathers compiler o w report g := by
  obtain ⟨output, w₁, ho, h₁⟩ := gives_bind.1 h
  obtain ⟨-, rfl⟩ := Action.gives_ofExcept.1 ho
  obtain ⟨dir, w₂, hdir, h₂⟩ := gives_bind.1 h₁
  obtain ⟨hdir, rfl⟩ := Action.gives_ask.1 hdir
  obtain ⟨d, w₃, hd, h₃⟩ := gives_bind.1 h₂
  obtain ⟨rfl, rfl⟩ := Action.gives_disk.1 hd
  obtain ⟨⟨s, ms⟩, w₄, hopen, h₄⟩ := gives_bind.1 h₃
  obtain ⟨hs, rfl, rfl⟩ := gives_ask.1 hopen
  obtain ⟨_, w₅, hclear, h₅⟩ := gives_bind.1 h₄
  obtain ⟨w₆, hbuild⟩ := gives_buildOnce h₅
  obtain ⟨c, w₇, hc, hpackage⟩ := gives_build hbuild
  obtain ⟨x, w₈, hx, hwritten⟩ := gives_package hpackage
  obtain ⟨limits, hlimits, htraced, hexpanded⟩ := hx.traced
  exact ⟨⟨s, _, c, w₇.disk, limits, x.traced, x.expansion, x.contents⟩,
    ⟨dir, hdir, Prod.ext hs rfl, w₅, w₇, hclear, hc, rfl⟩, hlimits, htraced, hexpanded,
    ⟨w₈.disk, x.serviceName, hx.serviceName, hx.collected⟩, w₈, w₆, _, hwritten⟩

/-- A bundle that keeps what was compiled succeeds when each of its steps does. -/
theorem gives_bundle {dir output : Path} {s : Project} {ms : Manifests} {c : Compiled} {w₁ w₂ : World}
    (houtput : outputDir o = .ok output) (hdir : w.disk.canonicalize o.serviceDir = .ok dir)
    (hs : Gives (openProject w.disk dir o.sourceType) .empty s ms)
    (hclear : Gives (clear (dir.join o.buildDir)) w () w₁)
    (hcompile : Gives (compiler ⟨o.entries, o.externals, o.sourceType, s.start, dir.join o.buildDir⟩) w₁ c w₂)
    (hsome : c.outputs.isEmpty = false) (hkeep : o.keepBuild = true)
    (hpackage : Gives (package s ms o c output) w₂ report w') : Gives (bundle compiler o) w report w' := by
  have hbuild : Gives (build compiler s ms o (dir.join o.buildDir) output) w₁ report w' := by
    refine gives_bind.2 ⟨c, w₂, hcompile, ?_⟩
    rw [hsome]
    exact hpackage
  have hclean : Gives (cleanUp o (dir.join o.buildDir)) w' () w' := by
    refine gives_bind.2 ⟨w'.disk, w', Action.gives_disk.2 ⟨rfl, rfl⟩, ?_⟩
    rw [hkeep]
    exact gives_pure.2 ⟨rfl, rfl⟩
  have hcleaned : Gives (do
      let report ← build compiler s ms o (dir.join o.buildDir) output
      cleanUp o (dir.join o.buildDir)
      return report) w₁ report w' :=
    gives_bind.2 ⟨report, w', hbuild, gives_bind.2 ⟨(), w', hclean, gives_pure.2 ⟨rfl, rfl⟩⟩⟩
  have honce : Gives (buildOnce compiler s ms o (dir.join o.buildDir) output) w₁ report w' := by
    unfold Gives at hcleaned ⊢
    unfold buildOnce
    rw [run_tryCatch, hcleaned]
  refine gives_bind.2 ⟨output, w, Action.gives_ofExcept.2 ⟨houtput, rfl⟩, ?_⟩
  refine gives_bind.2 ⟨dir, w, Action.gives_ask.2 ⟨hdir, rfl⟩, ?_⟩
  refine gives_bind.2 ⟨w.disk, w, Action.gives_disk.2 ⟨rfl, rfl⟩, ?_⟩
  refine gives_bind.2 ⟨(s, ms), w, gives_ask.2 ⟨congrArg Prod.fst hs, (congrArg Prod.snd hs).symm, rfl⟩, ?_⟩
  exact gives_bind.2 ⟨(), w₁, hclear, honce⟩

/-! ## The project -/

/-- The project of a service looks for files on the disk. -/
theorem openProject_ok {d : Disk} {dir : Path} {type : SourceType} {ms ms' : Manifests} {s : Project}
    (h : Gives (openProject d dir type) ms s ms') :
    ∃ root, (Workspace.root d dir).answer ms = .ok root ∧ s.resolver = Resolver.resolve
      ⟨[dir / Package.modulesDir, root / Package.modulesDir], type.conditions,
        Specifier.isBuiltin⟩ := by
  obtain ⟨root, ms₁, hroot, h₁⟩ := gives_bind.1 h
  obtain ⟨start, ms₂, -, h₂⟩ := gives_bind.1 h₁
  obtain ⟨root', ms₃, -, h₃⟩ := gives_bind.1 h₂
  obtain ⟨rfl, -⟩ := gives_pure.1 h₃
  exact ⟨root, congrArg Prod.fst hroot, rfl⟩

theorem gives_openProject {d : Disk} {dir start root above : Path} {type : SourceType}
    (hs : shown (openProject d dir type) .empty (fun s _ => (s.start, s.root)) = some (start, root))
    (habove : ((Workspace.root d dir).answer .empty).toOption = some above) :
    Gives (openProject d dir type) .empty
      ⟨start, root, Resolver.resolve ⟨[dir / Package.modulesDir, above / Package.modulesDir],
        type.conditions, Specifier.isBuiltin⟩⟩ ((openProject d dir type).after .empty) := by
  obtain ⟨⟨start', root', resolver⟩, ms, hgives, hshown⟩ := exists_gives hs
  obtain ⟨above', habove', hresolver⟩ := openProject_ok hgives
  rw [habove'] at habove
  cases habove
  cases hresolver
  cases hshown
  rw [show (openProject d dir type).after .empty = ms from congrArg Prod.snd hgives]
  exact hgives

/-- What a bundle has come to before the trace is what its first steps give. -/
theorem Gathers.eq_of_steps {g : Gathering} (hg : Gathers compiler o w report g) {dir : Path} {s : Project}
    {ms : Manifests} {c : Compiled} {limits : Trace.Limits} {w₁ w₂ : World}
    (hdir : w.disk.canonicalize o.serviceDir = .ok dir)
    (hs : Gives (openProject w.disk dir o.sourceType) .empty s ms)
    (hclear : Gives (clear (dir.join o.buildDir)) w () w₁)
    (hcompile : Gives (compiler ⟨o.entries, o.externals, o.sourceType, s.start, dir.join o.buildDir⟩) w₁ c w₂)
    (hlimits : traceLimits o c.workDir = .ok limits) :
    ∃ traced x a, g = ⟨s, ms, c, w₂.disk, limits, traced, x, a⟩ := by
  obtain ⟨s', ms', c', d', limits', traced, x, a⟩ := g
  obtain ⟨dir', hdir', hs', v₁, v₂, hclear', hcompile', hdisk⟩ := hg.opened
  cases hdir.symm.trans hdir'
  cases hs.symm.trans hs'
  cases hclear.symm.trans hclear'
  cases hcompile.symm.trans hcompile'
  cases hlimits.symm.trans hg.limits
  obtain rfl : d' = w₂.disk := hdisk
  exact ⟨traced, x, a, rfl⟩

theorem Gathers.resolver {g : Gathering} (hg : Gathers compiler o w report g) :
    ∃ r : Resolver, g.project.resolver = r.resolve := by
  obtain ⟨dir, -, hs, -⟩ := hg.opened
  obtain ⟨root, -, hr⟩ := openProject_ok hs
  exact ⟨_, hr⟩

theorem stays_clear (workDir : Path) : Action.Stays (clear workDir) := by
  refine Action.stays_bind Action.stays_disk fun d => ?_
  split
  · exact Action.stays_change (Disk.stays_removeTree _)
  · exact Action.stays_pure _

theorem Gathers.here {g : Gathering} (hg : Gathers compiler o w report g) (hc : compiler.Stays) :
    g.disk.here = w.disk.here := by
  obtain ⟨dir, -, -, w₁, w₂, h₁, h₂, hd⟩ := hg.opened
  rw [hd]
  exact h₂.keeps (hc _ _) (h₁.keeps (stays_clear _ _) rfl)

/-! ## What is expanded -/

theorem expandForced_ok {s : Project} {d : Disk} {ms : Manifests} {x : Expansion}
    (h : (expandForced s o d ms).1 = .ok x) :
    ∃ st, Gives (Expand.expandAll s ⟨o.optionalModules, o.exclude⟩ d s.start
      (o.forceInclude.map fun name => (name, []))) ⟨ms, .empty⟩ () st ∧ st.expansion = x := by
  unfold Gives
  unfold expandForced at h
  dsimp only at h
  rcases hr : (Expand.expandAll s ⟨o.optionalModules, o.exclude⟩ d s.start
    (o.forceInclude.map fun name => (name, []))).run.run ⟨ms, .empty⟩ with ⟨e | _, st⟩
  · rw [hr] at h; cases h
  · rw [hr] at h
    exact ⟨st, rfl, Except.ok.inj h⟩

section
variable {g : Gathering} (hg : Gathers compiler o w report g) (hc : compiler.Stays)
  (hd : Disk.Spelled w.disk.here)
include hg hc hd

theorem Gathers.fixed : Fixed g.disk g.known g.project.resolver := by
  obtain ⟨r, hr⟩ := hg.resolver
  exact hr ▸ r.fixed_resolve (hg.here hc ▸ hd)

theorem Gathers.extends : Extends g.disk g.known (g.trace.after g.known) :=
  Trace.extends_traceWithin (hg.fixed hc hd) (hg.here hc ▸ hd) hg.traced

/-- The expansion of a bundle holds exactly what its forced modules bring in. -/
theorem Gathers.exact : Expand.Exact g.project ⟨o.optionalModules, o.exclude⟩ g.disk g.known
    g.project.start o.forceInclude g.expansion := by
  obtain ⟨st, hst, hx⟩ := expandForced_ok hg.expanded
  have hnames : (o.forceInclude.map fun name => (name, ([] : List String))).map Prod.fst =
      o.forceInclude := by
    rw [List.map_map]
    exact List.map_id' _
  have hproper : Expand.Proper g.disk g.known ⟨g.trace.after g.known, .empty⟩ :=
    ⟨hg.extends hc hd, fun _ h => nomatch h⟩
  obtain ⟨-, ⟨visits, hw⟩, hdealt⟩ := Expand.walked_expandWithin (hg.fixed hc hd) hproper hst
  rw [hnames, hx] at hw hdealt
  exact hw.exact hdealt

end

/-! ## What is collected -/

section
open Archive Contents

variable {d : Disk} {location : String} {dir : Path} {traced : Trace.Result} {x : Expansion}
  {extras : List String} {a a' : Archive.Contents}

theorem scripted_collect (d : Disk) (location : String) (dir : Path) (traced : Trace.Result) (x : Expansion)
    (extras : List String) : Scripted (collect d location dir traced x extras) :=
  scripted_bind (scripted_putFiles _) fun _ => scripted_bind (scripted_addAllNamed d _) fun _ =>
    scripted_bind (scripted_putFiles _) fun _ => scripted_bind (scripted_addAllNamed d _) fun _ =>
      scripted_bind (scripted_replaceTree d _ _) fun _ => scripted_addAllNamed d _

/-- The stages in which the entries are collected. -/
theorem gives_collect (h : Gives (collect d location dir traced x extras) a () a') : ∃ a₁ a₂ a₃,
    Gives (addAllNamed d traced.links) (a.putFiles traced.files) () a₁ ∧
    Gives (addAllNamed d x.extras) (a₁.putFiles x.files) () a₂ ∧
    Gives (replaceTree d location dir) a₂ () a₃ ∧
    Gives (addAllNamed d (extras.map (extraName location))) a₃ () a' := by
  obtain ⟨_, b₁, hfiles, h₁⟩ := gives_bind.1 h
  obtain ⟨_, a₁, hlinks, h₂⟩ := gives_bind.1 h₁
  obtain ⟨_, b₂, hexpanded, h₃⟩ := gives_bind.1 h₂
  obtain ⟨_, a₂, hplaces, h₄⟩ := gives_bind.1 h₃
  obtain ⟨_, a₃, hgenerated, h₅⟩ := gives_bind.1 h₄
  rw [gives_modify.1 hfiles] at hlinks
  rw [gives_modify.1 hexpanded] at hplaces
  exact ⟨a₁, a₂, a₃, hlinks, hplaces, hgenerated, h₅⟩

/-- The names of what is collected, by where they come from. -/
theorem mem_names_collect {root : Path} (h : Gives (collect d location dir traced x extras) (create d root) () a)
    {n : String} : n ∈ a.names ↔ n ∈ traced.files.map Path.bareText ∨ Brings d root traced.links n ∨
      n ∈ x.files.map Path.bareText ∨ Brings d root x.extras n ∨
      (∃ entries, d.tree dir = .ok entries ∧ ∃ source, .entry n source ∈ generatedFiles location dir entries) ∨
      Brings d root (extras.map (extraName location)) n := by
  obtain ⟨a₁, a₂, a₃, hlinks, hplaces, hgenerated, hextras⟩ := gives_collect h
  have hroot₁ : a₁.root = (create d root).root :=
    ((scripted_addAllNamed d _).root_eq hlinks).trans (by rw [putFiles_eq, root_addAll])
  have hroot₂ : a₂.root = (create d root).root :=
    ((scripted_addAllNamed d _).root_eq hplaces).trans (by rw [putFiles_eq, root_addAll, hroot₁])
  have hroot₃ := ((scripted_replaceTree d _ _).root_eq hgenerated).trans hroot₂
  have htree : n ∈ a₃.names ↔ n ∈ a₂.names ∨
      ∃ entries, d.tree dir = .ok entries ∧ ∃ source, .entry n source ∈ generatedFiles location dir entries := by
    unfold Gives at hgenerated
    rw [run_replaceTree] at hgenerated
    rcases ht : d.tree dir with e | entries
    · rw [ht] at hgenerated; cases hgenerated
    · rw [ht] at hgenerated
      obtain ⟨-, rfl⟩ := Prod.mk.inj hgenerated
      rw [mem_names_addAll]
      simp
  rw [mem_names_addAllNamed hroot₃ hextras, htree,
    mem_names_addAllNamed (by rw [putFiles_eq, root_addAll, hroot₁]) hplaces, mem_names_putFiles,
    mem_names_addAllNamed (by rw [putFiles_eq, root_addAll]) hlinks, mem_names_putFiles]
  have hempty : n ∉ (create d root).names := List.not_mem_nil
  rw [or_iff_right hempty]
  simp only [or_assoc]

/-- The files that were expanded are in the archive. -/
theorem Gathers.mem_names {g : Gathering} (hg : Gathers compiler o w report g) {n : String}
    (hn : n ∈ g.expansion.files) : Path.bareText n ∈ g.contents.names := by
  obtain ⟨d, name, -, h⟩ := hg.collected
  exact (mem_names_collect h).2 (.inr (.inr (.inl (List.mem_map_of_mem hn))))

end

end Stowage.Bundle
