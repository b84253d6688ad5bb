/-
What every use of a project keeps. The manifests that are known change only where one is loaded, so whatever loading
keeps of them, and the way modules are resolved does, is kept by all that a project is used for: resolving, telling roots
of packages, tracing and expanding, whether they fail or not.
-/
import Stowage.Trace.Closure
import Stowage.Proofs.Expansion.Listed

namespace Stowage

variable {P : Manifests → Prop} {α : Type}

/-! ## Questions -/

namespace Query

theorem keeps_ofExcept (r : Except Error α) : Keeps P (ofExcept r) := by
  rcases r with e | a
  · exact keeps_throw e
  · exact keeps_pure a

theorem keeps_ofDisk (r : Except FileFault α) : Keeps P (ofDisk r) := by
  rcases r with e | a
  · exact keeps_throw _
  · exact keeps_pure a

theorem keeps_outcome {q : Query α} (h : Keeps P q) : Keeps P (outcome q) :=
  keeps_tryCatch (keeps_bind h fun _ => keeps_pure _) fun _ => keeps_pure _

end Query

open Query

section
variable (hload : ∀ d p, Keeps P (Manifests.load d p))
include hload

theorem keeps_require (d : Disk) (p : Path) : Keeps P (Manifests.require d p) := by
  refine keeps_bind (hload d p) fun m => ?_
  rcases m with _ | m
  · exact keeps_throw _
  · exact keeps_pure m

namespace Package

theorem keeps_isDescribed (d : Disk) (test : Manifest → Bool) (dir : Path) : Keeps P (isDescribed d test dir) := by
  refine keeps_bind (keeps_outcome (hload d dir)) fun r => ?_
  rcases r with e | _ | m
  · exact keeps_pure _
  · exact keeps_pure _
  · exact keeps_pure _

omit hload in
theorem keeps_firstWith {test : Path → Query Bool} (h : ∀ dir, Keeps P (test dir)) (dirs : List Path) :
    Keeps P (firstWith test dirs) := by
  induction dirs with
  | nil => exact keeps_pure none
  | cons dir rest ih =>
    unfold firstWith
    refine keeps_bind (h dir) fun found => ?_
    split
    · exact keeps_pure _
    · exact ih

theorem keeps_rootDirectory (d : Disk) (name : String) (entry : Path) : Keeps P (rootDirectory d name entry) := by
  unfold rootDirectory
  dsimp only
  split
  · exact keeps_pure none
  · refine keeps_bind (keeps_firstWith (fun dir => ?_) _) fun found => ?_
    · split
      · exact keeps_isDescribed hload d _ dir
      · exact keeps_pure false
    · split
      · exact keeps_pure _
      · exact keeps_firstWith (fun dir => keeps_isDescribed hload d _ dir) _

end Package

namespace Resolver

variable (r : Resolver) (d : Disk)

theorem keeps_exported (dir : Path) (sub : Option String) : Keeps P (r.exported d dir sub) := by
  refine keeps_bind (hload d dir) fun m => ?_
  split
  · exact keeps_pure none
  · split
    · exact keeps_pure none
    · exact keeps_pure _

theorem keeps_package (base : Path) (specifier : String) : Keeps P (r.package d base specifier) := by
  unfold package
  dsimp only
  split
  · exact keeps_bind (keeps_exported hload r d _ _) fun _ => keeps_pure _
  · exact keeps_bind (keeps_pure none) fun _ => keeps_pure _

theorem keeps_resolve (base : Path) (specifier : String) : Keeps P (r.resolve d base specifier) := by
  unfold resolve fromDirectory
  split
  · exact keeps_pure _
  · dsimp only
    split
    · refine keeps_bind (keeps_pure _) fun found => ?_
      rcases found with _ | resolution
      · exact keeps_throw _
      · exact keeps_pure resolution
    · refine keeps_bind (keeps_package hload r d _ specifier) fun found => ?_
      rcases found with _ | resolution
      · exact keeps_throw _
      · exact keeps_pure resolution

end Resolver

end

/-! ## Projects -/

namespace Project

variable {s : Project} (hs : ∀ d base specifier, Keeps P (s.resolver d base specifier))
include hs

theorem keeps_resolve (d : Disk) (base : Path) (specifier : String) : Keeps P (s.resolve d base specifier) :=
  keeps_tryCatch (hs d base specifier) fun _ => keeps_throw _

theorem keeps_findEntry (d : Disk) (base : Path) (name : String) : Keeps P (s.findEntry d base name) := by
  refine keeps_tryCatch (keeps_resolve hs d base name) fun e => ?_
  split
  · exact keeps_tryCatch (keeps_resolve hs d base _) fun _ => keeps_throw e
  · exact keeps_throw e

theorem keeps_resolveFor (d : Disk) (base : Path) (needing : Option Path) (name : String) :
    Keeps P (s.resolveFor d base needing name) := by
  unfold resolveFor
  split
  · exact keeps_findEntry hs d base name
  · refine keeps_tryCatch (keeps_findEntry hs d _ name) fun e => ?_
    split
    · exact keeps_findEntry hs d base name
    · exact keeps_throw e

theorem keeps_packageRoot (hload : ∀ d p, Keeps P (Manifests.load d p)) (d : Disk) (name : String) (base : Path)
    (needing : Option Path) : Keeps P (s.packageRoot d name base needing) := by
  refine keeps_bind (keeps_resolveFor hs d base needing name) fun r => ?_
  split
  · exact keeps_pure _
  · refine keeps_bind (Package.keeps_rootDirectory hload d name _) fun found => ?_
    split
    · exact keeps_pure _
    · exact keeps_throw _

end Project

/-! ## Traces -/

namespace Trace

section
variable {s : Setting} (hload : ∀ d p, Keeps P (Manifests.load d p))

theorem keeps_addManifest (dir : Path) (parent : String) (p : Progress) : Keeps P (addManifest s dir parent p) :=
  keeps_bind (keeps_ofExcept _) fun _ => keeps_pure _

theorem keeps_addFound (dir : Path) (parent : String) (m : Option Manifest) (p : Progress) :
    Keeps P (addFound s dir parent m p) := by
  unfold addFound
  split
  · exact keeps_addManifest dir parent p
  · exact keeps_pure p

theorem keeps_addInstalled (d : Disk) (file : Path) (specifier parent : String) (p : Progress) :
    Keeps P (addInstalled s d file specifier parent p) := by
  unfold addInstalled
  split
  · split
    · exact keeps_bind (keeps_ofExcept _) fun _ => keeps_pure _
    · exact keeps_pure p
  · exact keeps_pure p

include hload

theorem keeps_addManifests (d : Disk) (parent : String) (dirs : List Path) (p : Progress) :
    Keeps P (addManifests s d parent dirs p) := by
  induction dirs generalizing p with
  | nil => exact keeps_pure p
  | cons dir rest ih =>
    unfold addManifests
    split
    · refine keeps_bind (hload d dir) fun m => keeps_bind (keeps_addFound dir parent m p) fun p => ?_
      split
      · exact keeps_pure p
      · exact ih p
    · exact keeps_pure p

theorem keeps_addNamedManifest (d : Disk) (file : Path) (specifier parent : String) (p : Progress) :
    Keeps P (addNamedManifest s d file specifier parent p) := by
  unfold addNamedManifest
  split
  · exact keeps_pure p
  · split
    · exact keeps_bind (keeps_ofDisk _) fun dir => keeps_bind (hload d dir) fun m => keeps_addFound dir parent m p
    · exact keeps_pure p

theorem keeps_addRoot (d : Disk) (specifier : String) (target : Path) (parent : String) (p : Progress) :
    Keeps P (addRoot s d specifier target parent p) := by
  refine keeps_bind (Package.keeps_rootDirectory hload d _ target) fun found => ?_
  split
  · exact keeps_addManifest _ parent p
  · exact keeps_pure p

theorem keeps_addAround (d : Disk) (file : Path) (specifier : String) (target : Path) (parent : String) (p : Progress) :
    Keeps P (addAround s d file specifier target parent p) := by
  refine keeps_bind (keeps_addNamedManifest hload d file specifier parent p) fun p => ?_
  split
  · exact keeps_bind (keeps_addRoot hload d specifier target parent p) fun p =>
      keeps_addInstalled d file specifier parent p
  · exact keeps_pure p

variable (hs : ∀ d base specifier, Keeps P (s.project.resolver d base specifier))
include hs

theorem keeps_follow (d : Disk) (file : Path) (parent : String) (p : Progress) (reference : String × ReferenceKind) :
    Keeps P (follow s d file parent p reference) := by
  refine keeps_bind (keeps_outcome (Project.keeps_resolve hs d file reference.1)) fun r => ?_
  unfold followTo
  split
  · exact keeps_pure p
  · split
    · exact keeps_pure _
    · exact keeps_throw _
  · refine keeps_bind (keeps_ofExcept _) fun name => ?_
    split
    · exact keeps_pure p
    · exact keeps_bind (keeps_addAround hload d file reference.1 _ parent p) fun _ => keeps_pure _

theorem keeps_visit (d : Disk) (file : Path) (p : Progress) : Keeps P (visit s d file p) := by
  refine keeps_bind (keeps_ofExcept _) fun name =>
    keeps_bind (keeps_addManifests hload d name file.ancestors.tail p) fun p => ?_
  unfold followAll
  split
  · split
    · exact keeps_pure _
    · exact keeps_foldlM (keeps_follow hload hs d file name) _ _
  · exact keeps_pure p

theorem keeps_visitAll (d : Disk) (visits : Nat) (p : Progress) : Keeps P (visitAll s d visits p) := by
  induction visits generalizing p with
  | zero => exact keeps_pure p
  | succ visits ih =>
    unfold visitAll
    split
    · exact keeps_pure p
    · exact keeps_bind (keeps_visit hload hs d _ _) ih

theorem keeps_trace (d : Disk) (entries : List Path) : Keeps P (trace s d entries) := by
  have henter : ∀ (p : Progress) (entry : Path), Keeps P (enter s d p entry) := fun p entry =>
    keeps_bind (keeps_ofDisk _) fun _ => keeps_bind (keeps_ofExcept _) fun _ => keeps_pure _
  have hexplore : ∀ visits, Keeps P (explore s d visits entries) := fun visits =>
    keeps_bind (keeps_foldlM henter entries Progress.start) (keeps_visitAll hload hs d visits)
  exact keeps_bind (hexplore _) fun _ => keeps_ofExcept _

end

end Trace

/-! ## Expansions -/

namespace Expand

variable {project : Project} {d : Disk}

/-- The step keeps `P` of the manifests that are known. -/
abbrev KeepsKnown (P : Manifests → Prop) (x : Expand α) : Prop := Keeps (fun st : Expansion.State => P st.manifests) x

theorem keeps_ask {q : Query α} (h : Keeps P q) : KeepsKnown P (ask q) := fun st hst => h st.manifests hst

theorem keeps_change (f : Expansion → Expansion) : KeepsKnown P (change f) := fun _ h => h

theorem keeps_ofExcept (r : Except Error α) : KeepsKnown P (ofExcept r) := keeps_ask (Query.keeps_ofExcept r)

theorem keeps_addFile (path : Path) : KeepsKnown P (addFile project path) :=
  keeps_bind (keeps_ofExcept _) fun _ => keeps_change _

theorem keeps_addLink (path : Path) : KeepsKnown P (addLink project path) :=
  keeps_bind (keeps_ofExcept _) fun _ => keeps_change _

theorem keeps_addAt (root : Path) (negated : List Glob.Pattern) (path : Path) :
    KeepsKnown P (addAt project d root negated path) := by
  refine keeps_bind (keeps_ask (keeps_ofDisk _)) fun entries => keeps_forM (fun entry => ?_) entries
  unfold addEntry
  split
  · exact keeps_pure _
  · split
    · exact keeps_addLink _
    · exact keeps_addFile _
    · exact keeps_pure _

theorem keeps_addPlace (name : String) (base : Path) : KeepsKnown P (addPlace project d name base) := by
  unfold addPlace
  split
  · split
    · exact keeps_addLink _
    · exact keeps_pure _
  · exact keeps_pure _

section
variable (hs : ∀ d base specifier, Keeps P (project.resolver d base specifier))
include hs

theorem keeps_addListed (root : Path) (m : Manifest) : KeepsKnown P (addListed project d root m) := by
  have hall : KeepsKnown P (addAll project d root m) := by
    unfold addAll
    split
    · exact keeps_bind (keeps_ofExcept _) fun r => keeps_forM (keeps_addAt root r.1) r.2
    · exact keeps_addAt root [] root
  have hmain : KeepsKnown P (addMain project d root m) := by
    refine keeps_bind (keeps_ask (keeps_outcome (Project.keeps_resolve hs d root _))) fun r => ?_
    split
    · split
      · exact keeps_addFile _
      · exact keeps_pure _
    · exact keeps_pure _
  exact keeps_bind hall fun _ => keeps_bind (keeps_addFile _) fun _ => hmain

variable (hload : ∀ d p, Keeps P (Manifests.load d p))
include hload

theorem keeps_visit (base root : Path) (name : String) : KeepsKnown P (visit project d base root name) :=
  keeps_bind (keeps_change _) fun _ => keeps_bind (keeps_ask (keeps_require hload d root)) fun m =>
    keeps_bind (keeps_addListed hs root m) fun _ => keeps_bind (keeps_addPlace name base) fun _ => keeps_pure m

theorem keeps_module {settings : ExpansionSettings} {stop : Expand Unit} (hstop : KeepsKnown P stop) (base : Path)
    (levels : Nat) (name : String) (needing : Option Needing) (parents : List String) :
    KeepsKnown P (module project settings d stop base levels name needing parents) := by
  induction levels generalizing name needing parents with
  | zero => exact hstop
  | succ levels ih =>
    unfold module
    split
    · exact keeps_pure _
    · refine keeps_bind (keeps_ask (keeps_outcome (Project.keeps_packageRoot hs hload d name base _))) fun r => ?_
      split
      · exact keeps_pure _
      · unfold passOver
        split
        · split
          · exact keeps_change _
          · exact keeps_throw _
        · exact keeps_throw _
      · refine keeps_bind keeps_get fun st => ?_
        split
        · exact keeps_pure _
        · exact keeps_bind (keeps_visit hs hload _ _ name) fun m =>
            keeps_forM (fun dependency => ih dependency _ _) _

theorem keeps_expand (settings : ExpansionSettings) (name : String) (base : Path) (parents : List String) :
    KeepsKnown P (expand project settings d name base parents) :=
  keeps_module hs hload (keeps_throw _) base _ name none parents

end

end Expand

end Stowage
