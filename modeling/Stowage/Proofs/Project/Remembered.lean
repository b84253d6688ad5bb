/-
The root of a package and its manifest. A directory is told to be a root only after its manifest was read under the very
path that is told, and what is known of a path stays known as long as a project is used. So the manifest is there for
every later request, whatever becomes of the files, and an expansion never misses it.
-/
import Stowage.Proofs.Expansion.Faults
import Stowage.Proofs.Project.Uses
import Stowage.Proofs.Package.Requests

open Stowage.Path

namespace Stowage

open Manifests

/-! ## What is known -/

/-- It is known whether the location has a manifest, and which. -/
def Knows (p : Path) (m : Option Manifest) (ms : Manifests) : Prop := ms.lookup? p = some m

theorem keeps_load_knows (p : Path) (m : Option Manifest) (d : Disk) (q : Path) : Keeps (Knows p m) (load d q) := by
  intro ms h
  rw [run_load]
  split
  · exact h
  · split
    · show (ms.insert q _).lookup? p = some m
      rw [lookup?_insert, show ms.lookup? p = some m from h]
      rfl
    · exact h

/-- The manifest of a location is known once it is loaded. -/
theorem knows_of_load {d : Disk} {p : Path} {ms ms' : Manifests} {m : Option Manifest} (h : Gives (load d p) ms m ms') :
    Knows p m ms' := by
  unfold Gives at h
  rw [run_load] at h
  unfold Knows
  rcases hl : ms.lookup? p with _ | known
  · rw [hl] at h
    rcases hr : readAt d p with e | found
    · rw [hr] at h
      cases h
    · rw [hr] at h
      cases h
      rw [lookup?_insert, hl, if_pos (same_refl p)]
      rfl
  · rw [hl] at h
    cases h
    exact hl

/-- A manifest that is known is what a request for it is told, whatever the disk holds. -/
theorem require_of_knows {p : Path} {m : Manifest} {ms : Manifests} (h : Knows p (some m) ms) (d : Disk) :
    (require d p).answer ms = .ok m ∧ (require d p).after ms = ms := by
  have hrun : (load d p).run.run ms = (.ok (some m), ms) := by
    rw [run_load, show ms.lookup? p = some (some m) from h]
  unfold Query.answer Query.after require
  rw [run_bind, hrun]
  exact ⟨rfl, rfl⟩

/-! ## Roots -/

namespace Package

variable {d : Disk} {ms ms' : Manifests} {test : Path → Query Bool} {dirs : List Path} {root entry : Path}
  {name : String}

theorem knows_of_isDescribed {what : Manifest → Bool} (h : Gives (isDescribed d what root) ms true ms') :
    ∃ m, Knows root (some m) ms' := by
  unfold isDescribed at h
  obtain ⟨r, ms₁, houtcome, hrest⟩ := gives_bind.1 h
  unfold Gives at houtcome
  rw [Query.run_outcome] at houtcome
  rcases hr : (load d root).answer ms with e | _ | m
  · rw [hr] at houtcome
    cases houtcome
    cases (gives_pure.1 hrest).1
  · rw [hr] at houtcome
    cases houtcome
    cases (gives_pure.1 hrest).1
  · rw [hr] at houtcome
    cases houtcome
    obtain ⟨-, rfl⟩ := gives_pure.1 hrest
    exact ⟨m, knows_of_load (show Gives (load d root) ms (some m) _ from Prod.ext hr rfl)⟩

/-- The first of some directories that satisfies a test was tested last. -/
theorem gives_firstWith (h : Gives (firstWith test dirs) ms (some root) ms') :
    root ∈ dirs ∧ ∃ ms₁, Gives (test root) ms₁ true ms' := by
  induction dirs generalizing ms with
  | nil => cases (gives_pure.1 h).1
  | cons dir rest ih =>
    unfold firstWith at h
    obtain ⟨found, ms₁, htest, hrest⟩ := gives_bind.1 h
    rcases found with _ | _
    · obtain ⟨hmem, hlast⟩ := ih hrest
      exact ⟨List.mem_cons_of_mem _ hmem, hlast⟩
    · obtain ⟨hroot, rfl⟩ := gives_pure.1 hrest
      cases hroot
      exact ⟨List.mem_cons_self .., ms, htest⟩

/-- The root of a package is the entry itself, if that is a directory, or above it, and its manifest is known. -/
theorem gives_rootDirectory (h : Gives (rootDirectory d name entry) ms (some root) ms') :
    root ∈ entry.ancestors ∧ (root = entry → d.isDirectory entry = true) ∧ ∃ m, Knows root (some m) ms' := by
  unfold rootDirectory at h
  rcases hstart : (if d.isDirectory entry then some entry else entry.parent?) with _ | start
  · rw [hstart] at h
    cases (gives_pure.1 h).1
  · rw [hstart] at h
    have hup : ∀ x ∈ start.ancestors, x ∈ entry.ancestors ∧ (x = entry → d.isDirectory entry = true) := by
      intro x hx
      split at hstart
      · rename_i hdir
        cases hstart
        exact ⟨hx, fun _ => hdir⟩
      · rw [← ancestors_tail hstart] at hx
        refine ⟨List.mem_of_mem_tail hx, ?_⟩
        rintro rfl
        exact absurd (length_lt_of_mem_tail_ancestors hx) (Nat.lt_irrefl _)
    obtain ⟨found, ms₁, hfirst, hrest⟩ := gives_bind.1 h
    rcases found with _ | dir
    · obtain ⟨hmem, ms₂, hlast⟩ := gives_firstWith hrest
      exact ⟨(hup root hmem).1, (hup root hmem).2, knows_of_isDescribed hlast⟩
    · obtain ⟨hroot, rfl⟩ := gives_pure.1 hrest
      cases hroot
      obtain ⟨hmem, ms₂, hlast⟩ := gives_firstWith hfirst
      refine ⟨(hup root hmem).1, (hup root hmem).2, ?_⟩
      split at hlast
      · exact knows_of_isDescribed hlast
      · cases (gives_pure.1 hlast).1

end Package

theorem Project.gives_packageRoot {s : Project} {d : Disk} {name : String} {base root : Path} {needing : Option Path}
    {ms ms' : Manifests} (h : Gives (s.packageRoot d name base needing) ms (.directory root) ms') :
    (∃ entry, (s.resolveFor d base needing name).answer ms = .ok (.file entry) ∧ root ∈ entry.ancestors ∧
      (root = entry → d.isDirectory entry = true)) ∧ ∃ m, Knows root (some m) ms' := by
  unfold packageRoot at h
  obtain ⟨r, ms₁, hresolved, hrest⟩ := gives_bind.1 h
  rcases r with n | entry
  · cases (gives_pure.1 hrest).1
  · obtain ⟨found, ms₂, hfound, hlast⟩ := gives_bind.1 hrest
    rcases found with _ | dir
    · exact absurd hlast gives_throw
    · obtain ⟨hroot, rfl⟩ := gives_pure.1 hlast
      cases hroot
      obtain ⟨habove, hdir, hknown⟩ := Package.gives_rootDirectory hfound
      exact ⟨⟨entry, congrArg Prod.fst hresolved, habove, hdir⟩, hknown⟩

/-! ## Manifests that are missed -/

/-- The error says that a manifest is missed only where the way modules are resolved has said so. -/
def Blamed (s : Project) (d : Disk) (e : Error) : Prop := ∀ file, e = .manifestNotFound file →
  ∃ base specifier ms, (s.resolver d base specifier).answer ms = .error e

theorem blamed_of_ne {s : Project} {d : Disk} {e : Error} (h : ∀ file, e ≠ .manifestNotFound file) : Blamed s d e :=
  fun file he => absurd he (h file)

theorem Project.blamed_of_packageRoot {s : Project} {d : Disk} (name : String) (base : Path) (needing : Option Path) :
    Fails (Blamed s d) (s.packageRoot d name base needing) := by
  have hresolver : ∀ base specifier, Fails (Blamed s d) (s.resolver d base specifier) :=
    fun base specifier ms e h _ _ => ⟨base, specifier, ms, h⟩
  refine fails_packageRoot hresolver (fun e h => blamed_of_ne fun file he => ?_) name base needing
  rw [he] at h
  cases h

namespace Expand

variable {project : Project} {d : Disk}

theorem blamed_of_isLocal (e : Error) (h : e.IsLocal) : Blamed project d e := by
  cases h <;> exact blamed_of_ne fun _ h => nomatch h

/-- A visit does not miss the manifest of a root if it is known. -/
theorem blamed_of_visit {base root : Path} {name : String} {m : Manifest} {st : Expansion.State} {e : Error}
    (hknown : Knows root (some m) st.manifests)
    (h : ((visit project d base root name).run.run st).1 = .error e) : Blamed project d e := by
  have hrequired := (require_of_knows hknown d).1
  have hrest : ∀ m, Fails (Blamed project d)
      (addListed project d root m >>= fun _ => addPlace project d name base >>= fun _ => pure m) := fun m =>
    fails_bind (fails_addListed blamed_of_isLocal root m) fun _ =>
      fails_bind (fails_addPlace blamed_of_isLocal name base) fun _ => fails_pure m
  change ((change _ >>= fun _ => ask (require d root) >>= fun m =>
    addListed project d root m >>= fun _ => addPlace project d name base >>= fun _ => pure m).run.run st).1 = _ at h
  rw [run_bind] at h
  change ((ask (require d root) >>= _).run.run _).1 = _ at h
  rw [run_bind, run_ask, hrequired] at h
  exact hrest m _ e h

theorem fails_passOver {settings : ExpansionSettings} {name : String} {needing : Option Needing} {parents : List String}
    {e : Error} (he : Blamed project d e) : Fails (Blamed project d) (passOver settings name needing parents e) := by
  unfold passOver
  split
  · split
    · exact fails_change _
    · exact fails_throw (blamed_of_ne fun _ h => nomatch h)
  · exact fails_throw he

/-- A root that is told has its manifest when it is visited, so that no module misses one. -/
theorem fails_module {settings : ExpansionSettings} {stop : Expand Unit} (hstop : Fails (Blamed project d) stop)
    (base : Path) (levels : Nat) (name : String) (needing : Option Needing) (parents : List String) :
    Fails (Blamed project d) (module project settings d stop base levels name needing parents) := by
  induction levels generalizing name needing parents with
  | zero => exact hstop
  | succ levels ih =>
    -- `fails_bind` forgets what the first step gives, and here the visit needs that the manifest is known
    intro st e h
    unfold module at h
    split at h
    · cases h
    · rw [run_bind, run_ask, Query.answer_outcome, Query.after_outcome] at h
      dsimp only at h
      rcases hr : (project.packageRoot d name base (needing.map (·.root))).answer st.manifests with e' | n | root
      · rw [hr] at h
        exact fails_passOver (Project.blamed_of_packageRoot name base _ st.manifests e' hr) _ e h
      · rw [hr] at h
        cases h
      · obtain ⟨-, m, hknown⟩ := Project.gives_packageRoot (show Gives (project.packageRoot d name base _)
          st.manifests (.directory root) _ from Prod.ext hr rfl)
        rw [hr] at h
        change ((if _ then pure () else _ : Expand Unit).run.run _).1 = _ at h
        split at h
        · cases h
        · rw [run_bind] at h
          rcases hv : (visit project d ((needing.map (·.root)).getD base) root name).run.run
            ⟨(project.packageRoot d name base (needing.map (·.root))).after st.manifests, st.expansion⟩ with
            ⟨e' | manifest, st'⟩
          · rw [hv] at h
            cases h
            exact blamed_of_visit hknown (congrArg Prod.fst hv)
          · rw [hv] at h
            exact fails_forM (fun dependency => ih dependency _ _) _ st' e h

end Expand

/-! ## Uses of a project -/

/-- The way modules are resolved may load manifests, and forgets none. -/
def Remembers (r : Resolve) : Prop := ∀ d base specifier p m, Keeps (Knows p m) (r d base specifier)

theorem Resolver.remembers (r : Resolver) : Remembers r.resolve := fun d base specifier p m =>
  r.keeps_resolve (keeps_load_knows p m) d base specifier

theorem Resolver.answer_ne_notFound (r : Resolver) (d : Disk) (base : Path) (specifier : String) (ms : Manifests)
    (file : Path) : (r.resolve d base specifier).answer ms ≠ .error (.manifestNotFound file) := by
  have hload : ∀ p, Fails (fun e => e ≠ .manifestNotFound file) (load d p) := fun p => fails_load fun e he => by
    rintro rfl
    exact readAt_ne_notFound he
  exact fun h => r.fails_resolve hload (fun _ _ h => nomatch h) base specifier ms _ h rfl

/-- What a project is used for, on the disk as it is then. -/
inductive Use where
  | load (d : Disk) (location : Path)
  | require (d : Disk) (location : Path)
  | resolve (d : Disk) (base : Path) (specifier : String)
  | packageRoot (d : Disk) (name : String) (base : Path) (needing : Option Path)
  | trace (d : Disk) (limits : Trace.Limits) (analyze : Trace.Analyze) (entries : List Path)
  | expand (d : Disk) (settings : ExpansionSettings) (x : Expansion) (name : String) (base : Path)
    (parents : List String)

namespace Project

variable (s : Project)

/-- The manifests that are known after a use, whether it fails or not. -/
def afterUse (ms : Manifests) : Use → Manifests
  | .load d location => (Manifests.load d location).after ms
  | .require d location => (Manifests.require d location).after ms
  | .resolve d base specifier => (s.resolve d base specifier).after ms
  | .packageRoot d name base needing => (s.packageRoot d name base needing).after ms
  | .trace d limits analyze entries => (Trace.trace ⟨s, limits, analyze⟩ d entries).after ms
  | .expand d settings x name base parents =>
    ((Expand.expand s settings d name base parents).run.run ⟨ms, x⟩).2.manifests

def afterUses (uses : List Use) (ms : Manifests) : Manifests := uses.foldl s.afterUse ms

variable {s}

theorem knows_afterUse (hs : Remembers s.resolver) {p : Path} {m : Option Manifest} {ms : Manifests} (h : Knows p m ms)
    (use : Use) : Knows p m (s.afterUse ms use) := by
  have hload := keeps_load_knows p m
  have hresolver : ∀ d base specifier, Keeps (Knows p m) (s.resolver d base specifier) := fun d base specifier =>
    hs d base specifier p m
  cases use with
  | load d location => exact hload d location ms h
  | require d location => exact keeps_require hload d location ms h
  | resolve d base specifier => exact keeps_resolve hresolver d base specifier ms h
  | packageRoot d name base needing => exact keeps_packageRoot hresolver hload d name base needing ms h
  | trace d limits analyze entries => exact Trace.keeps_trace hload hresolver d entries ms h
  | expand d settings x name base parents =>
    exact Expand.keeps_expand hresolver hload settings name base parents ⟨ms, x⟩ h

theorem knows_afterUses (hs : Remembers s.resolver) {p : Path} {m : Option Manifest} (uses : List Use) {ms : Manifests}
    (h : Knows p m ms) : Knows p m (s.afterUses uses ms) := by
  induction uses generalizing ms with
  | nil => exact h
  | cons use uses ih => exact ih (knows_afterUse hs h use)

/-- The root of a package is the entry that its name is resolved to, if that is a directory, or above it. Its manifest
is what every later request is told, whatever the project is used for and the disk becomes in between. An expansion does
not miss a manifest unless the way modules are resolved says that one is missed, which looking for them on the disk never
does. -/
theorem root_remembered (hs : Remembers s.resolver) :
    (∀ d ms name base needing root, (s.packageRoot d name base needing).answer ms = .ok (.directory root) →
      (∃ entry, (s.resolveFor d base needing name).answer ms = .ok (.file entry) ∧ root ∈ entry.ancestors ∧
        (root = entry → d.isDirectory entry = true)) ∧
      ∃ m, ∀ uses d', (require d' root).answer
        (s.afterUses uses ((s.packageRoot d name base needing).after ms)) = .ok m) ∧
    (∀ settings d name base parents st file,
      ((Expand.expand s settings d name base parents).run.run st).1 = .error (.manifestNotFound file) →
      ∃ base specifier ms, (s.resolver d base specifier).answer ms = .error (.manifestNotFound file)) ∧
    ∀ r : Resolver, s.resolver = r.resolve → ∀ settings d name base parents st file,
      ((Expand.expand s settings d name base parents).run.run st).1 ≠ .error (.manifestNotFound file) := by
  have hexpand : ∀ settings d name base parents st file,
      ((Expand.expand s settings d name base parents).run.run st).1 = .error (.manifestNotFound file) →
      ∃ base specifier ms, (s.resolver d base specifier).answer ms = .error (.manifestNotFound file) := by
    intro settings d name base parents st file h
    have hstop : Fails (Blamed s d) (throw (.file .other) : Expand Unit) :=
      fails_throw (blamed_of_ne fun _ h => nomatch h)
    exact Expand.fails_module hstop base _ name none parents st _ h file rfl
  refine ⟨fun d ms name base needing root h => ?_, hexpand, fun r hr settings d name base parents st file h => ?_⟩
  · obtain ⟨hentry, m, hknown⟩ := gives_packageRoot (show Gives (s.packageRoot d name base needing) ms
      (.directory root) _ from Prod.ext h rfl)
    exact ⟨hentry, m, fun uses d' => (require_of_knows (knows_afterUses hs uses hknown) d').1⟩
  · obtain ⟨base', specifier, ms, hraised⟩ := hexpand settings d name base parents st file h
    rw [hr] at hraised
    exact r.answer_ne_notFound d base' specifier ms file hraised

/-- A package that is installed. -/
def stocked : Disk where
  entries := [(["node_modules"], .directory), (["node_modules", "pad"], .directory),
    (["node_modules", "pad", "index.js"], .file (.text "")),
    (["node_modules", "pad", "package.json"], .file (.text "\x7b\"name\":\"pad\"\x7d"))]
  here := []

/-- Nothing is left of it. -/
def cleared : Disk := ⟨[], []⟩

def stockedProject : Project := ⟨⟨"/"⟩, ⟨"/"⟩, Resolver.standard.resolve⟩

theorem root_remembered_cleared :
    (stockedProject.packageRoot stocked "pad" ⟨"/"⟩ none).answer .empty = .ok (.directory ⟨"/node_modules/pad"⟩) ∧
    (∃ m : Manifest, m.name = some "pad" ∧ ∀ uses, (require cleared ⟨"/node_modules/pad"⟩).answer
      (stockedProject.afterUses uses ((stockedProject.packageRoot stocked "pad" ⟨"/"⟩ none).after .empty)) = .ok m) ∧
    readAt cleared ⟨"/node_modules/pad"⟩ = .ok none ∧
    ∀ settings st file, ((Expand.expand stockedProject settings stocked "pad" ⟨"/"⟩ []).run.run st).1 ≠
      .error (.manifestNotFound file) := by
  have hroot : (stockedProject.packageRoot stocked "pad" ⟨"/"⟩ none).answer .empty =
      .ok (.directory ⟨"/node_modules/pad"⟩) := ok_of_toOption (by decide +kernel)
  obtain ⟨hroots, -, hexpand⟩ := root_remembered (s := stockedProject) Resolver.standard.remembers
  obtain ⟨-, m, hm⟩ := hroots stocked .empty "pad" ⟨"/"⟩ none _ hroot
  have hname : ((require stocked ⟨"/node_modules/pad"⟩).answer
      ((stockedProject.packageRoot stocked "pad" ⟨"/"⟩ none).after .empty)).toOption.map (·.name) =
      some (some "pad") := by decide +kernel
  refine ⟨hroot, ⟨m, ?_, fun uses => hm uses cleared⟩, ?_, fun settings => hexpand _ rfl settings stocked "pad" _ _⟩
  · have hfirst : (require stocked ⟨"/node_modules/pad"⟩).answer
        ((stockedProject.packageRoot stocked "pad" ⟨"/"⟩ none).after .empty) = .ok m := hm [] stocked
    rw [hfirst] at hname
    exact Option.some.inj hname
  · unfold readAt
    exact if_neg (by decide +kernel)

/-- A way to resolve modules that needs the manifest of the base, and fails as that does. -/
def resolveByManifest : Resolve := fun d base _ => do
  let manifest ← require d base
  return .file manifest.path

/-- An expansion misses a manifest if that is what the way modules are resolved answers. -/
theorem root_remembered_missing : Remembers resolveByManifest ∧
    (((Expand.expand ⟨⟨"/"⟩, ⟨"/"⟩, resolveByManifest⟩ default cleared "pad" ⟨"/"⟩ []).run.run default).1 =
      .error (.manifestNotFound ⟨"/package.json"⟩)) :=
  ⟨fun d base _ p m => keeps_bind (keeps_require (keeps_load_knows p m) d base) fun _ => keeps_pure _, by rfl⟩

end Project

end Stowage
