/-
Questions to a project whose resolver is a fixed function: they are steady, and the files and package
roots that they give are plain paths.
-/
import Stowage.Project
import Stowage.Proofs.Resolution.Resolver

open Stowage.Path

namespace Stowage

namespace Project

variable {d : Disk} {known : Manifests} {s : Project}

section
variable {P : Resolution → Prop}
  (hs : ∀ base specifier, Settled d known P (s.resolver d base specifier))
include hs

theorem settled_resolve (base : Path) (specifier : String) :
    Settled d known P (s.resolve d base specifier) :=
  agree_tryCatch (hs base specifier) fun _ => agree_throw _

theorem settled_findEntry (base : Path) (name : String) :
    Settled d known P (s.findEntry d base name) := by
  refine agree_tryCatch (settled_resolve hs base name) fun e => ?_
  split
  · exact agree_tryCatch (settled_resolve hs base _) fun _ => agree_throw e
  · exact agree_throw e

theorem settled_resolveFor (base : Path) (needing : Option Path) (name : String) :
    Settled d known P (s.resolveFor d base needing name) := by
  unfold resolveFor
  split
  · exact settled_findEntry hs base name
  · refine agree_tryCatch (settled_findEntry hs _ name) fun e => ?_
    split
    · exact settled_findEntry hs base name
    · exact agree_throw e

/-- The root of a package lies above a file that the resolver leads to. -/
theorem settled_packageRoot_above (hP : ∀ t, P (.file t) → t.IsPlain) (name : String) (base : Path)
    (needing : Option Path) : Settled d known
      (fun r => ∀ dir, r = .directory dir → ∃ t, P (.file t) ∧ dir ∈ t.ancestors)
      (s.packageRoot d name base needing) := by
  unfold packageRoot
  refine settled_bind (settled_resolveFor hs base needing name) ?_
  rintro (name | entry) hentry
  · exact agree_pure ⟨rfl, fun _ h => nomatch h⟩
  · refine settled_bind (Package.settled_rootDirectory name (hP entry hentry)) ?_
    rintro (_ | dir) hdir
    · exact agree_throw _
    · refine agree_pure ⟨rfl, fun x hx => ?_⟩
      cases hx
      exact ⟨entry, hentry, hdir dir rfl⟩

end

/-- The root of a package is a plain path. -/
theorem settled_packageRoot (hs : Fixed d known s.resolver) (name : String) (base : Path)
    (needing : Option Path) : Settled d known (fun r => ∀ dir, r = .directory dir → dir.IsPlain)
      (s.packageRoot d name base needing) := by
  refine agree_mono (settled_packageRoot_above hs (fun _ h => h) name base needing) fun a b hab =>
    ⟨hab.1, fun dir hdir => ?_⟩
  obtain ⟨t, ht, hmem⟩ := hab.2 dir hdir
  exact isPlain_of_mem_ancestors ht hmem

/-- The root of a package has a manifest. -/
theorem manifest_of_packageRoot (hs : Fixed d known s.resolver) {name : String} {base root : Path}
    {needing : Option Path} (h : (s.packageRoot d name base needing).answer known = .ok (.directory root)) :
    ∃ m, manifestAt d known root = .ok (some m) := by
  unfold packageRoot at h
  obtain ⟨r, -, ⟨-, hplain⟩, h⟩ := (settled_resolveFor hs base needing name).bind_ok (fun r r' hr => by
    obtain ⟨rfl, hplain⟩ := hr
    rcases r with n | entry
    · exact agree_pure rfl
    · refine steady_bind (Package.settled_rootDirectory name hplain).steady fun found => ?_
      rcases found with _ | dir
      · exact agree_throw _
      · exact agree_pure rfl) h
  rcases r with n | entry
  · cases h
  · obtain ⟨found, hfound, h⟩ :=
      steady_bind_ok (Package.settled_rootDirectory name hplain).steady (fun found => by
        rcases found with _ | dir
        · exact agree_throw _
        · exact agree_pure rfl) h
    rcases found with _ | dir
    · cases h
    · cases h
      exact Package.manifest_of_rootDirectory hplain hfound

/-- A specifier leads nowhere from a file or a directory: the module is missing. -/
def misses (s : Project) (d : Disk) (known : Manifests) (base : Path) (specifier : String) : Bool :=
  match (s.resolver d base specifier).answer known with
  | .error e => e.isMissing
  | .ok _ => false

theorem answer_resolve_of_misses {base : Path} {specifier : String} (h : s.misses d known base specifier = true) :
    (s.resolve d base specifier).answer known = .error (.moduleNotFound specifier base) := by
  unfold misses at h
  unfold resolve
  rw [Query.answer_tryCatch]
  split at h
  · rename_i e he
    rw [he]
    dsimp only
    rw [if_pos h]
    rfl
  · cases h

/-- A package has no entry if neither its name nor its manifest leads anywhere. -/
theorem answer_findEntry_of_misses (hs : Fixed d known s.resolver) {base : Path} {name : String}
    (h : s.misses d known base name = true) (hm : s.misses d known base (name ++ "/" ++ manifestName) = true) :
    (s.findEntry d base name).answer known = .error (.moduleNotFound name base) := by
  have hq := settled_resolve hs base name
  have hq' := (settled_resolve hs base (name ++ "/" ++ manifestName)).steady
  unfold findEntry
  rw [Query.answer_tryCatch, answer_resolve_of_misses h]
  dsimp only
  rw [if_pos (show (Error.moduleNotFound name base).isMissing = true from rfl), Query.answer_tryCatch,
    hq'.answer_eq (hq.left (Manifests.extends_refl known)), answer_resolve_of_misses hm]
  rfl

/-- A package that has no entry from the package that needs it, and none from `base`, is missing. -/
theorem answer_packageRoot_of_misses (hs : Fixed d known s.resolver) {base dir : Path} {name : String}
    (h : ∀ from_ ∈ [dir, base], s.misses d known from_ name = true ∧
      s.misses d known from_ (name ++ "/" ++ manifestName) = true) :
    (s.packageRoot d name base (some dir)).answer known = .error (.moduleNotFound name base) := by
  obtain ⟨hdir, hbase⟩ : _ ∧ _ := by simpa using h
  have hq := settled_findEntry hs dir name
  unfold packageRoot resolveFor
  rw [Query.answer_bind, Query.answer_tryCatch, answer_findEntry_of_misses hs hdir.1 hdir.2]
  dsimp only
  rw [if_pos (show (Error.moduleNotFound name dir).isMissing = true from rfl),
    (settled_findEntry hs base name).steady.answer_eq (hq.left (Manifests.extends_refl known)),
    answer_findEntry_of_misses hs hbase.1 hbase.2]

/-- A project leads to a file where its resolver does. -/
theorem resolver_of_resolve {base : Path} {specifier : String} {target : Path}
    (h : (s.resolve d base specifier).answer known = .ok (.file target)) :
    (s.resolver d base specifier).answer known = .ok (.file target) := by
  unfold resolve at h
  rw [Query.answer_tryCatch] at h
  rcases hr : (s.resolver d base specifier).answer known with e | x
  · rw [hr] at h; cases h
  · rw [hr] at h; exact h

/-- In a project that looks for files on the disk the root of a package lies above a stored file. -/
theorem mem_directories_of_packageRoot {r : Resolver} (hr : s.resolver = r.resolve)
    (hd : Disk.Spelled d.here) {name : String} {base root : Path} {needing : Option Path}
    (h : (s.packageRoot d name base needing).answer known = .ok (.directory root)) :
    root ∈ d.directories := by
  have hs : ∀ base specifier, Settled d known
      (fun x => ∀ t, x = .file t → t.IsPlain ∧ t ∈ d.stored) (s.resolver d base specifier) := by
    intro base specifier
    rw [hr]
    exact agree_mono (r.settled_stored hd base specifier) fun a b hab => hab
  obtain ⟨t, ht, hmem⟩ :=
    (settled_packageRoot_above hs (fun t ht => (ht t rfl).1) name base needing).holds h root rfl
  obtain ⟨e, he, rfl⟩ := List.mem_map.1 (ht t rfl).2
  exact List.mem_flatMap.2 ⟨e, he, hmem⟩

/-- The root of a package lies above a file that is named without links. -/
theorem canonicalize_of_packageRoot {r : Resolver} (hr : s.resolver = r.resolve)
    (hd : Disk.Spelled d.here) {name : String} {base root : Path} {needing : Option Path}
    (h : (s.packageRoot d name base needing).answer known = .ok (.directory root)) :
    ∃ t q, d.canonicalize q = .ok t ∧ root ∈ t.ancestors := by
  have hs : ∀ base specifier, Settled d known
      (fun x => ∀ t, x = .file t → ∃ q, d.canonicalize q = .ok t) (s.resolver d base specifier) := by
    intro base specifier
    rw [hr]
    exact r.settled_canonical base specifier
  have hplain : ∀ t, (∀ t', Resolution.file t = .file t' → ∃ q, d.canonicalize q = .ok t') → t.IsPlain := by
    intro t ht
    obtain ⟨q, hq⟩ := ht t rfl
    exact d.isPlain_of_canonicalize hd hq
  obtain ⟨t, ht, hmem⟩ := (settled_packageRoot_above hs hplain name base needing).holds h root rfl
  obtain ⟨q, hq⟩ := ht t rfl
  exact ⟨t, q, hq, hmem⟩

end Project
end Stowage
