/-
Resolution as a question. The resolver may read manifests of packages, but what it answers is told by the
disk and the manifests that were known, and a file that it finds is named by its plain path.
-/
import Stowage.Resolution.Resolver
import Stowage.Proofs.Package.Place
import Stowage.Proofs.Resolution.Lookup

open Stowage.Path

namespace Stowage

open Manifests

/-- A file that a specifier stands for is named by its plain path. -/
def Resolution.IsPlain : Resolution → Prop
  | .builtin _ => True
  | .file path => path.IsPlain

/-- Resolution is a function of the base and the specifier: its answers do not depend on what was read
before, and files are named by their plain paths. -/
def Fixed (d : Disk) (known : Manifests) (r : Resolve) : Prop :=
  ∀ base specifier, Settled d known Resolution.IsPlain (r d base specifier)

variable {d : Disk} {known : Manifests}

namespace Resolver

variable (r : Resolver) {P : Resolution → Prop}

/-- What a search gives, if anything, satisfies `P`. -/
def Finds (P : Resolution → Prop) (found : Option Resolution) : Prop := ∀ x, found = some x → P x

theorem isDirectory_of_packageDir {name : String} {base dir : Path}
    (h : r.packageDir d name base = some dir) : d.isDirectory dir = true := by
  unfold packageDir at h
  exact List.find?_some h

section
variable (hP : ∀ base specifier, Finds P (Lookup.find d base specifier))
include hP

theorem settled_exported {dir : Path} (hdir : d.isDirectory dir = true) (sub : Option String) :
    Settled d known (Finds P) (r.exported d dir sub) := by
  unfold exported
  refine agree_bind (agree_load (.inr hdir)) ?_
  intro m m' hm
  have he : m.bind (·.exported) = m'.bind (·.exported) := by
    obtain ⟨rfl, rfl⟩ | ⟨x, p, rfl, rfl⟩ := hm.cases <;> rfl
  rw [he]
  split
  · exact agree_pure ⟨rfl, fun _ h => nomatch h⟩
  · split
    · exact agree_pure ⟨rfl, fun _ h => nomatch h⟩
    · exact agree_pure ⟨rfl, hP _ _⟩

theorem settled_package (base : Path) (specifier : String) :
    Settled d known (Finds P) (r.package d base specifier) := by
  unfold package
  have hrest : ∀ found, Finds P found → Settled d known (Finds P) (pure (found <|>
      Lookup.find d base specifier <|> (r.searchPaths.filter fun dir =>
        d.isDirectory (dir / (Specifier.split specifier).1)).findSome? fun dir =>
          Lookup.find d dir ("./" ++ specifier))) := by
    refine fun found hfound => agree_pure ⟨rfl, fun x hx => ?_⟩
    rcases found with _ | y
    · rcases hn : Lookup.find d base specifier with _ | y
      · rw [hn] at hx
        obtain ⟨dir, -, hdir⟩ :=
          List.exists_of_findSome?_eq_some (show List.findSome? _ _ = some x from hx)
        exact hP _ _ x hdir
      · rw [hn] at hx
        cases hx
        exact hP _ _ _ hn
    · cases hx
      exact hfound _ rfl
  dsimp only
  split
  · rename_i dir hdir
    exact settled_bind (r.settled_exported hP (r.isDirectory_of_packageDir hdir) _) hrest
  · exact settled_bind (agree_pure ⟨rfl, fun _ h => nomatch h⟩) hrest

/-- What is found satisfies what all modules of the runtime and all that a lookup finds satisfy. -/
theorem settled_resolve (hbuiltin : ∀ name, P (.builtin name)) (base : Path) (specifier : String) :
    Settled d known P (r.resolve d base specifier) := by
  unfold resolve fromDirectory
  split
  · exact agree_pure ⟨rfl, hbuiltin specifier⟩
  · dsimp only
    split
    · refine settled_bind (agree_pure ⟨rfl, hP _ _⟩) fun found hfound => ?_
      split
      · exact agree_pure ⟨rfl, hfound _ rfl⟩
      · exact agree_throw _
    · refine settled_bind (r.settled_package hP _ specifier) fun found hfound => ?_
      split
      · exact agree_pure ⟨rfl, hfound _ rfl⟩
      · exact agree_throw _

end

/-- Every file that a specifier leads to is stored on the disk and named by its plain path. -/
theorem settled_stored (hd : Disk.Spelled d.here) (base : Path) (specifier : String) :
    Settled d known (fun x => ∀ t, x = .file t → t.IsPlain ∧ t ∈ d.stored)
      (r.resolve d base specifier) := by
  have hP : ∀ base specifier, Finds (fun x => ∀ t, x = .file t → t.IsPlain ∧ t ∈ d.stored)
      (Lookup.find d base specifier) := by
    intro base specifier x hx t ht
    obtain ⟨name, rfl⟩ | ⟨p, q, hp, hq, rfl⟩ := Lookup.find_cases hx
    · cases ht
    · cases ht
      exact ⟨d.isPlain_of_canonicalize hd hq, d.mem_stored_of_isFile hp hq⟩
  exact r.settled_resolve hP (fun _ _ h => nomatch h) base specifier

theorem fixed_resolve (hd : Disk.Spelled d.here) : Fixed d known r.resolve := fun base specifier =>
  agree_mono (r.settled_stored hd base specifier) fun a _ hab => ⟨hab.1, by
    rcases a with _ | t
    · trivial
    · exact (hab.2 t rfl).1⟩

theorem mem_stored_of_resolve (hd : Disk.Spelled d.here) {base : Path} {specifier : String}
    {target : Path} (h : (r.resolve d base specifier).answer known = .ok (.file target)) :
    target ∈ d.stored := ((r.settled_stored hd base specifier).holds h target rfl).2

/-- A file that a specifier leads to is named without links. -/
theorem settled_canonical (base : Path) (specifier : String) :
    Settled d known (fun x => ∀ t, x = .file t → ∃ q, d.canonicalize q = .ok t) (r.resolve d base specifier) := by
  have hP : ∀ base specifier, Finds (fun x => ∀ t, x = .file t → ∃ q, d.canonicalize q = .ok t)
      (Lookup.find d base specifier) := by
    intro base specifier x hx t ht
    obtain ⟨name, rfl⟩ | ⟨p, q, hp, hq, rfl⟩ := Lookup.find_cases hx
    · cases ht
    · cases ht
      exact ⟨p, hq⟩
  exact r.settled_resolve hP (fun _ _ h => nomatch h) base specifier

theorem canonicalize_of_resolve {base : Path} {specifier : String} {target : Path}
    (h : (r.resolve d base specifier).answer known = .ok (.file target)) :
    ∃ q, d.canonicalize q = .ok target := (r.settled_canonical base specifier).holds h target rfl

/-- Resolution fails where a manifest cannot be loaded or a module is missing. -/
theorem fails_resolve {P : Error → Prop} (hload : ∀ p, Fails P (load d p))
    (hmissing : ∀ specifier base, P (.moduleNotFound specifier base)) (base : Path) (specifier : String) :
    Fails P (r.resolve d base specifier) := by
  have hexported : ∀ dir sub, Fails P (r.exported d dir sub) := by
    intro dir sub
    refine fails_bind (hload dir) fun m => ?_
    split
    · exact fails_pure _
    · split
      · exact fails_pure _
      · exact fails_pure _
  unfold resolve fromDirectory
  split
  · exact fails_pure _
  · dsimp only
    split
    · refine fails_bind (fails_pure _) fun found => ?_
      rcases found with _ | resolution
      · exact fails_throw (hmissing _ _)
      · exact fails_pure _
    · refine fails_bind ?_ fun found => ?_
      · unfold package
        dsimp only
        split
        · exact fails_bind (hexported _ _) fun _ => fails_pure _
        · exact fails_bind (fails_pure _) fun _ => fails_pure _
      · rcases found with _ | resolution
        · exact fails_throw (hmissing _ _)
        · exact fails_pure _

end Resolver
end Stowage
