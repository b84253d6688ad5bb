/-
Steps of a trace apart from their warnings. A step is wordless if it does the same whatever the warnings
are so far and gives none; of all that a visit does, only following a reference that is missing and
reading a file give any.
-/
import Stowage.Proofs.Trace.Closure

open Stowage.Path

namespace Stowage.Trace

open Manifests

namespace Progress

def mapWarnings (f : List Warning → List Warning) (p : Progress) : Progress :=
  { p with warnings := f p.warnings }

end Progress

variable {s : Setting} {d : Disk} {known : Manifests}

/-! ## Steps that give no warning -/

/-- Whatever the warnings are so far, the step does the same and leaves them as they are. -/
def Wordless (step : Progress → Query Progress) : Prop :=
  ∀ f p, step (p.mapWarnings f) = Progress.mapWarnings f <$> step p

theorem wordless_pure : Wordless pure := fun _ p => (map_pure _ p).symm

theorem wordless_bind {α : Type} (q : Query α) {step : α → Progress → Query Progress}
    (h : ∀ a, Wordless (step a)) : Wordless fun p => q >>= fun a => step a p := by
  intro f p
  dsimp only
  rw [map_bind]
  exact bind_congr fun a => h a f p

theorem wordless_comp {step step' : Progress → Query Progress} (h : Wordless step)
    (h' : Wordless step') : Wordless fun p => step p >>= step' := by
  intro f p
  dsimp only
  rw [h f p, bind_map_left, map_bind]
  exact bind_congr fun p' => h' f p'

theorem wordless_addManifest (dir : Path) (parent : String) : Wordless (addManifest s dir parent) :=
  wordless_bind _ fun _ _ _ => (map_pure _ _).symm

theorem wordless_addFound (dir : Path) (parent : String) (m : Option Manifest) :
    Wordless (addFound s dir parent m) := by
  unfold addFound
  split
  · exact wordless_addManifest dir parent
  · exact wordless_pure

theorem wordless_addManifests (parent : String) (dirs : List Path) :
    Wordless (addManifests s d parent dirs) := by
  induction dirs with
  | nil => exact wordless_pure
  | cons dir rest ih =>
    have hrest : ∀ m, Wordless fun p =>
        if isTop s dir m then pure p else addManifests s d parent rest p := by
      intro m
      split
      · exact wordless_pure
      · exact ih
    intro f p
    unfold addManifests
    split
    · exact wordless_bind _ (fun m => wordless_comp (wordless_addFound dir parent m) (hrest m)) f p
    · exact wordless_pure f p

theorem wordless_addNamedManifest (file : Path) (specifier parent : String) :
    Wordless (addNamedManifest s d file specifier parent) := by
  unfold addNamedManifest
  split
  · exact wordless_pure
  · split
    · exact wordless_bind _ fun dir => wordless_bind _ fun m => wordless_addFound dir parent m
    · exact wordless_pure

theorem wordless_addRoot (specifier : String) (target : Path) (parent : String) :
    Wordless (addRoot s d specifier target parent) := by
  refine wordless_bind _ fun r => ?_
  split
  · exact wordless_addManifest _ parent
  · exact wordless_pure

theorem wordless_addInstalled (file : Path) (specifier parent : String) :
    Wordless (addInstalled s d file specifier parent) := by
  unfold addInstalled
  split
  · split
    · exact wordless_bind _ fun _ _ p => (map_pure _ _).symm
    · exact wordless_pure
  · exact wordless_pure

theorem wordless_addAround (file : Path) (specifier : String) (target : Path) (parent : String) :
    Wordless (addAround s d file specifier target parent) := by
  refine wordless_comp (wordless_addNamedManifest file specifier parent) ?_
  split
  · exact wordless_comp (wordless_addRoot specifier target parent)
      (wordless_addInstalled file specifier parent)
  · exact wordless_pure

theorem mapWarnings_reach (f : List Warning → List Warning) (p : Progress) (file : Path) :
    (p.mapWarnings f).reach file = (p.reach file).mapWarnings f := by
  unfold Progress.reach Progress.mapWarnings
  dsimp only
  split <;> rfl

/-- Going on with a file gives no warning. -/
theorem wordless_followFile (file : Path) (parent specifier : String) (kind : ReferenceKind)
    (target : Path) :
    Wordless fun p => followTo s d file parent p specifier kind (.ok (.file target)) := by
  refine wordless_bind _ fun name => ?_
  split
  · exact wordless_pure
  · refine wordless_comp (wordless_addAround file specifier target parent) fun f p => ?_
    rw [map_pure, ← mapWarnings_reach]
    rfl

theorem wordless_enter (e : Path) : Wordless fun p => enter s d p e := by
  refine wordless_bind _ fun file => wordless_bind _ fun name f p => ?_
  rw [map_pure, ← mapWarnings_reach]
  rfl

theorem wordless_foldlM {α : Type} {f : Progress → α → Query Progress}
    (h : ∀ a, Wordless fun p => f p a) (l : List α) : Wordless fun p => l.foldlM f p := by
  induction l with
  | nil => exact wordless_pure
  | cons a l ih => exact wordless_comp (h a) ih

theorem Wordless.warnings_eq {step : Progress → Query Progress} (h : Wordless step)
    {p p' : Progress} {ms : Manifests} (hp : (step p).answer ms = .ok p') :
    p'.warnings = p.warnings := by
  have he : step p = Progress.mapWarnings (fun _ => p.warnings) <$> step p := h (fun _ => p.warnings) p
  rw [he, map_eq_pure_bind, Query.answer_bind] at hp
  rcases hq : (step p).answer ms with e | p₁
  · rw [hq] at hp; cases hp
  · rw [hq] at hp
    cases hp
    rfl

/-! ## References by what they resolve to -/

theorem answer_follow (hs : Fixed d known s.project.resolver) (hd : Disk.Spelled d.here) (file : Path)
    (parent : String) (p : Progress) (r : String × ReferenceKind) :
    (follow s d file parent p r).answer known =
      (followTo s d file parent p r.1 r.2
        ((s.project.resolve d file r.1).answer known)).answer known := by
  have hres := Project.settled_resolve hs file r.1
  have hm := hres.answers (extends_refl known) (extends_refl known)
  unfold follow
  rw [Query.answer_bind, Query.answer_outcome, Query.after_outcome]
  exact (agree_followTo hd file parent p r.1 r.2 _ _ hm).answer_eq (hres.left (extends_refl known))

/-- Of a setting only the project matters to the manifests above a file. -/
theorem addManifests_congr (s s' : Setting) (h : s'.project = s.project) (parent : String)
    (dirs : List Path) (p : Progress) :
    addManifests s' d parent dirs p = addManifests s d parent dirs p := by
  induction dirs generalizing p with
  | nil => rfl
  | cons dir rest ih =>
    simp only [addManifests, addFound, addManifest, isTop, h, ih]
    rfl

end Stowage.Trace
