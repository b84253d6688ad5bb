/-
The two searches for the place of a package. Resolution looks for the nearest directory of its name, links followed;
what is recorded is the nearest place of its name, whatever it is. They come to the same place unless something that is
no directory, such as a link that leads nowhere, stands nearer: then that is what is recorded, and not the place that the
package was resolved through.
-/
import Stowage.Proofs.Disk.Direct
import Stowage.Proofs.Expansion.Listed
import Stowage.Proofs.Trace.Visit

namespace Stowage.Package

open Manifests

variable (d : Disk) (name : String) (base : Path)

/-- The places where the package is looked for, the nearest first. -/
def places : List Path := (modulesDirs base).map (· / name)

/-- The nearest place of the package that leads to a directory. -/
def FoundAt (dir : Path) : Prop := (places name base).find? d.isDirectory = some dir

/-- The place is nearer than any that leads to a directory, and something has its name. -/
def Obstructs (place : Path) : Prop :=
  place ∈ (places name base).takeWhile (fun x => !d.isDirectory x) ∧ d.hasName place = true

variable {d name base}

theorem hasName_of_isDirectory {p : Path} (h : d.isDirectory p = true) : d.hasName p = true := by
  unfold Disk.isDirectory at h
  rcases hf : d.find p with e | ⟨l, e⟩
  · rw [hf] at h
    cases h
  · obtain ⟨type, htype⟩ := Disk.exists_typeOf_of_find hf
    unfold Disk.hasName
    rw [htype]
    rfl

theorem packageDir_of_foundAt (r : Resolver) {dir : Path} (h : FoundAt d name base dir) :
    r.packageDir d name base = some dir := by
  unfold Resolver.packageDir
  rw [List.map_append, List.find?_append]
  exact congrArg (Option.or · _) h

/-- Beside the directory the places that something has the name of are those that obstruct it. -/
theorem locate_eq_of_foundAt {dir : Path} (h : FoundAt d name base dir) : locate d name base =
    (((places name base).takeWhile fun x => !d.isDirectory x).find? d.hasName).or (some dir) := by
  obtain ⟨hdir, before, after, hsplit, hbefore⟩ := List.find?_eq_some_iff_append.1 h
  show (places name base).find? d.hasName = _
  rw [hsplit, List.takeWhile_append_of_pos hbefore, List.takeWhile_cons_of_neg (by simp [hdir]), List.append_nil,
    List.find?_append, List.find?_cons_of_pos (hasName_of_isDirectory hdir)]

/-- No place that comes before this one obstructs the package. -/
def IsNearest (d : Disk) (name : String) (base place : Path) : Prop := ∃ before after,
  places name base = before ++ place :: after ∧ ∀ x ∈ before, ¬ Obstructs d name base x

/-- The place that a search for a name comes to: the directory itself, or the nearest place that obstructs it. -/
theorem locate_of_foundAt {dir : Path} (h : FoundAt d name base dir) : ∃ place, locate d name base = some place ∧
    (place = dir ↔ ∀ x, ¬ Obstructs d name base x) ∧
    (place ≠ dir → Obstructs d name base place ∧ IsNearest d name base place) := by
  have hdir : d.isDirectory dir = true := List.find?_some h
  rw [locate_eq_of_foundAt h]
  rcases hnearer : ((places name base).takeWhile fun x => !d.isDirectory x).find? d.hasName with _ | place
  · refine ⟨dir, rfl, iff_of_true rfl fun x hx => ?_, fun hne => absurd rfl hne⟩
    exact List.find?_eq_none.1 hnearer x hx.1 hx.2
  · obtain ⟨hname, before, after, hsplit, hbefore⟩ := List.find?_eq_some_iff_append.1 hnearer
    have hobstructs : Obstructs d name base place := ⟨List.mem_of_find?_eq_some hnearer, hname⟩
    have hne : place ≠ dir := by
      rintro rfl
      have hno := List.mem_takeWhile_imp hobstructs.1
      rw [hdir] at hno
      cases hno
    refine ⟨place, rfl, iff_of_false hne fun hnone => hnone place hobstructs, fun _ => ⟨hobstructs, before,
      after ++ (places name base).dropWhile fun x => !d.isDirectory x, ?_, fun x hx hx' => ?_⟩⟩
    · have hall : (places name base).takeWhile (fun x => !d.isDirectory x) ++ (places name base).dropWhile _ =
          places name base := List.takeWhile_append_dropWhile
      rw [hsplit, List.append_assoc, List.cons_append] at hall
      exact hall.symm
    · have hno := hbefore x hx
      rw [hx'.2] at hno
      cases hno

/-- A package that is resolved in a directory is recorded at the nearest place of its name. That is the directory unless
a place obstructs it; then the nearest such place is the one that is recorded, if it is a link. -/
theorem recorded_of_foundAt {dir : Path} (h : FoundAt d name base dir) :
    (∀ r : Resolver, r.packageDir d name base = some dir) ∧ ∃ place, locate d name base = some place ∧
      (place = dir ↔ ∀ x, ¬ Obstructs d name base x) ∧
      (place ≠ dir → Obstructs d name base place ∧ IsNearest d name base place) ∧
      (∀ project known, Expand.Adding project d known (Expand.addPlace project d name base) Expand.NoPath
        fun x => x = place ∧ d.isLink place = true) ∧
      ∀ (s : Trace.Setting) known file specifier parent p p', (Specifier.split specifier).1 = name →
        file.parent?.getD file = base → (Trace.addInstalled s d file specifier parent p).answer known = .ok p' →
        Trace.Grows s (some parent) p p' (fun x k => x = place ∧ d.isLink place = true ∧ k = .link) Trace.NoFile := by
  obtain ⟨place, hplace, heq, hobstructs⟩ := locate_of_foundAt h
  have honly : ∀ {x}, locate d name base = some x ↔ x = place := fun {x} => by
    rw [hplace, Option.some.injEq, eq_comm]
  refine ⟨fun r => packageDir_of_foundAt r h, place, hplace, heq, hobstructs, fun project known => ?_, ?_⟩
  · refine (Expand.adding_addPlace name base).congr (fun _ => Iff.rfl) fun x => ?_
    unfold Expand.IsPlace
    rw [honly]
    exact and_congr_right fun hx => by rw [hx]
  · rintro s known file specifier parent p p' rfl rfl hp
    refine (Trace.grows_addInstalled hp).congr (fun x k => ?_) fun _ => Iff.rfl
    rw [honly]
    exact and_congr_right fun hx => by rw [hx]

/-- A package that is linked at the top, and a link of its name further down that leads nowhere. -/
def dangling : Disk where
  entries := [(["node_modules"], .directory), (["node_modules", "lib"], .link "../packages/lib"),
    (["packages"], .directory), (["packages", "lib"], .directory), (["sub"], .directory),
    (["sub", "node_modules"], .directory), (["sub", "node_modules", "lib"], .link "../../gone")]
  here := []

/-- The package is resolved through the link at the top, and the link that leads nowhere is recorded. -/
theorem recorded_of_foundAt_dangling : FoundAt dangling "lib" ⟨"/sub"⟩ ⟨"/node_modules/lib"⟩ ∧
    Obstructs dangling "lib" ⟨"/sub"⟩ ⟨"/sub/node_modules/lib"⟩ ∧
    (∀ r : Resolver, r.packageDir dangling "lib" ⟨"/sub"⟩ = some ⟨"/node_modules/lib"⟩) ∧
    locate dangling "lib" ⟨"/sub"⟩ = some ⟨"/sub/node_modules/lib"⟩ ∧
    ∀ project known, Expand.Adding project dangling known (Expand.addPlace project dangling "lib" ⟨"/sub"⟩)
      Expand.NoPath fun x => x = ⟨"/sub/node_modules/lib"⟩ := by
  have hfound : FoundAt dangling "lib" ⟨"/sub"⟩ ⟨"/node_modules/lib"⟩ := by
    unfold FoundAt
    decide +kernel
  have hplace : locate dangling "lib" ⟨"/sub"⟩ = some ⟨"/sub/node_modules/lib"⟩ := by decide +kernel
  have hlink : dangling.isLink ⟨"/sub/node_modules/lib"⟩ = true := by decide +kernel
  obtain ⟨hresolved, place, hlocated, -, hobstructs, hexpanded, -⟩ := recorded_of_foundAt hfound
  rw [hplace] at hlocated
  cases hlocated
  refine ⟨hfound, (hobstructs (by decide)).1, hresolved, hplace, fun project known => ?_⟩
  exact (hexpanded project known).congr (fun _ => Iff.rfl) fun x => and_iff_left hlink

end Stowage.Package
