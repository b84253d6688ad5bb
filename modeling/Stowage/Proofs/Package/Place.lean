/-
The root directory of a package as a question: its answer depends on the disk and on the manifests that
were known, not on those that were read in between, and it lies above the file that it is asked for.
-/
import Stowage.Package.Place
import Stowage.Proofs.Package.Manifests

open Stowage.Path

namespace Stowage.Package

open Manifests

variable {d : Disk} {known : Manifests}

/-- A question about a manifest that only what it says decides. -/
theorem steady_isDescribed {dir : Path} (hdir : Loadable d dir) {test : Manifest → Bool}
    (ht : ∀ m p, test { m with path := p } = test m) :
    Steady d known (isDescribed d test dir) := by
  unfold isDescribed
  refine agree_bind (agree_outcome (agree_load hdir)) ?_
  intro r r' h
  obtain ⟨m, m', rfl, rfl, hm⟩ | ⟨e, rfl, rfl⟩ := h.cases
  · obtain ⟨rfl, rfl⟩ | ⟨x, p, rfl, rfl⟩ := hm.cases
    · exact agree_pure rfl
    · exact agree_pure (ht x p).symm
  · exact agree_pure rfl

/-- The first of some directories that satisfies a test is one of them. -/
theorem settled_firstWith {test : Path → Query Bool} {dirs : List Path}
    (h : ∀ dir ∈ dirs, Steady d known (test dir)) :
    Settled d known (fun r => ∀ dir, r = some dir → dir ∈ dirs) (firstWith test dirs) := by
  induction dirs with
  | nil => exact agree_pure ⟨rfl, fun _ h => nomatch h⟩
  | cons dir rest ih =>
    unfold firstWith
    refine agree_bind (h dir (List.mem_cons_self ..)) ?_
    rintro (_ | _) _ rfl
    · refine agree_mono (ih fun x hx => h x (List.mem_cons_of_mem _ hx)) ?_
      exact fun a b hab => ⟨hab.1, fun x hx => List.mem_cons_of_mem _ (hab.2 x hx)⟩
    · refine agree_pure ⟨rfl, fun x hx => ?_⟩
      cases hx
      exact List.mem_cons_self ..

/-- The root of a package is the start of its search or lies above it. -/
theorem settled_rootDirectory (name : String) {entry : Path} (he : entry.IsPlain) :
    Settled d known (fun r => ∀ dir, r = some dir → dir ∈ entry.ancestors)
      (rootDirectory d name entry) := by
  unfold rootDirectory
  have hstart : ∀ start, (if d.isDirectory entry then some entry else entry.parent?) = some start →
      start.IsPlain ∧ ∀ dir ∈ start.ancestors, dir ∈ entry.ancestors := by
    intro start h
    split at h
    · cases h; exact ⟨he, fun _ h => h⟩
    · exact ⟨isPlain_of_parent he h, fun _ => mem_ancestors_of_parent h⟩
  revert hstart
  generalize (if d.isDirectory entry then some entry else entry.parent?) = start?
  intro hstart
  rcases start? with _ | start
  · exact agree_pure ⟨rfl, fun _ h => nomatch h⟩
  · obtain ⟨hplain, hup⟩ := hstart start rfl
    have hall : ∀ dir ∈ start.ancestors, dir.IsPlain := fun dir => isPlain_of_mem_ancestors hplain
    refine settled_bind (settled_firstWith fun dir hdir => ?_) ?_
    · split
      · exact steady_isDescribed (.inl (hall dir hdir)) fun _ _ => rfl
      · exact agree_pure rfl
    · rintro (_ | dir) hr
      · refine agree_mono (settled_firstWith fun dir hdir =>
          steady_isDescribed (.inl (hall dir hdir)) fun _ _ => rfl) ?_
        exact fun a b hab => ⟨hab.1, fun dir h => hup dir (hab.2 dir h)⟩
      · exact agree_pure ⟨rfl, fun dir h => hup dir (hr dir h)⟩

/-! ## Failures -/

section
variable {P : Error → Prop}

theorem fails_isDescribed (d : Disk) (what : Manifest → Bool) (dir : Path) : Fails P (isDescribed d what dir) := by
  have houtcome : Fails P (Query.outcome (load d dir)) := by
    intro ms e h
    rw [Query.run_outcome] at h
    cases h
  refine fails_bind houtcome fun r => ?_
  split
  · exact fails_pure _
  · exact fails_pure _

theorem fails_firstWith {test : Path → Query Bool} (h : ∀ dir, Fails P (test dir)) (dirs : List Path) :
    Fails P (firstWith test dirs) := by
  induction dirs with
  | nil => exact fails_pure none
  | cons dir rest ih =>
    unfold firstWith
    refine fails_bind (h dir) fun found => ?_
    split
    · exact fails_pure _
    · exact ih

/-- The search for the root of a package never fails. -/
theorem fails_rootDirectory (d : Disk) (name : String) (entry : Path) : Fails P (rootDirectory d name entry) := by
  unfold rootDirectory
  dsimp only
  split
  · exact fails_pure none
  · refine fails_bind (fails_firstWith (fun dir => ?_) _) fun found => ?_
    · split
      · exact fails_isDescribed d _ dir
      · exact fails_pure false
    · split
      · exact fails_pure _
      · exact fails_firstWith (fun dir => fails_isDescribed d _ dir) _

end

/-! ## Manifests of roots -/

theorem answer_firstWith {test : Path → Query Bool} {dirs : List Path} {dir : Path}
    (htest : ∀ dir ∈ dirs, Steady d known (test dir))
    (h : (firstWith test dirs).answer known = .ok (some dir)) : (test dir).answer known = .ok true := by
  induction dirs with
  | nil => cases h
  | cons first rest ih =>
    rw [List.forall_mem_cons] at htest
    unfold firstWith at h
    obtain ⟨found, hfound, h⟩ := steady_bind_ok htest.1 (fun found => by
      split
      · exact agree_pure rfl
      · exact (settled_firstWith htest.2).steady) h
    rcases found with _ | _
    · exact ih htest.2 h
    · cases h
      exact hfound

theorem manifest_of_isDescribed {dir : Path} {test : Manifest → Bool}
    (h : (isDescribed d test dir).answer known = .ok true) : ∃ m, manifestAt d known dir = .ok (some m) := by
  unfold isDescribed at h
  rw [Query.answer_bind, Query.answer_outcome] at h
  rcases hl : (load d dir).answer known with e | _ | m
  · rw [hl] at h
    cases h
  · rw [hl] at h
    cases h
  · exact ⟨m, hl⟩

/-- The root of a package has a manifest. -/
theorem manifest_of_rootDirectory {name : String} {entry dir : Path} (he : entry.IsPlain)
    (h : (rootDirectory d name entry).answer known = .ok (some dir)) :
    ∃ m, manifestAt d known dir = .ok (some m) := by
  unfold rootDirectory at h
  rcases hstart : (if d.isDirectory entry then some entry else entry.parent?) with _ | start
  · rw [hstart] at h
    cases h
  · rw [hstart] at h
    have hplain : start.IsPlain := by
      split at hstart
      · cases hstart
        exact he
      · exact isPlain_of_parent he hstart
    have hall : ∀ dir ∈ start.ancestors, Loadable d dir := fun dir hdir =>
      .inl (isPlain_of_mem_ancestors hplain hdir)
    have hdeclared : ∀ dir ∈ start.ancestors,
        Steady d known (isDescribed d (fun m => m.name.getD "" = name) dir) := fun dir hdir =>
      steady_isDescribed (hall dir hdir) fun _ _ => rfl
    have hcalled : ∀ dir ∈ start.ancestors, Steady d known (if dir.fileName = some (Specifier.basename name)
        then isDescribed d (fun _ => true) dir else return false) := by
      intro dir hdir
      split
      · exact steady_isDescribed (hall dir hdir) fun _ _ => rfl
      · exact agree_pure rfl
    obtain ⟨found, hfound, h⟩ := steady_bind_ok (settled_firstWith hcalled).steady (fun found => by
      split
      · exact agree_pure rfl
      · exact (settled_firstWith hdeclared).steady) h
    rcases found with _ | found
    · exact manifest_of_isDescribed (answer_firstWith hdeclared h)
    · cases h
      have htrue := answer_firstWith hcalled hfound
      split at htrue
      · exact manifest_of_isDescribed htrue
      · cases htrue

end Stowage.Package
