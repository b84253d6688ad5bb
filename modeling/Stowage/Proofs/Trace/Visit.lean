/-
What one visit of a trace does. Which files a file leads to and which paths it contributes is said
without the progress of the trace; a visit adds these names with the file as their parent, reaches these
files, and changes nothing else that counts.
-/
import Stowage.Trace.Closure
import Stowage.Proofs.Project
import Stowage.Proofs.Trace.Reasons

open Stowage.Path

namespace Stowage.Trace

open Manifests

variable (s : Setting) (d : Disk) (known : Manifests)

/-! ## What a file needs -/

/-- The manifest of `dir` is read on the way up through `dirs`: no directory before it is the top, and
all of them are in the workspace. -/
def Above (dirs : List Path) (dir : Path) : Prop :=
  ∃ before after m, dirs = before ++ dir :: after ∧ dir.startsWith s.project.root = true ∧
    manifestAt d known dir = .ok (some m) ∧ ∀ x ∈ before, x.startsWith s.project.root = true ∧
      ∃ m, manifestAt d known x = .ok m ∧ isTop s x m = false

/-- The specifier leads from `file` to `target` and is not left out. -/
structure Leads (file : Path) (specifier : String) (target : Path) : Prop where
  resolved : (s.project.resolve d file specifier).answer known = .ok (.file target)
  kept : ∃ name, s.project.relative target = .ok name ∧ isLeftOut s specifier name = false

/-- A reference in `file` is followed to `target`. -/
structure Follows (file : Path) (specifier : String) (kind : ReferenceKind) (target : Path) : Prop where
  script : isScript file = true
  stated : ∃ refs, s.analyze d file = .ok refs ∧ (specifier, kind) ∈ refs.static
  leads : Leads s d known file specifier target

/-- What the runtime needs besides `target`, where `specifier` leads from `file`. -/
inductive Around (file : Path) (specifier : String) (target : Path) : Path → ReasonKind → Prop
  /-- The manifest of a directory that the specifier names. -/
  | directory {place dir : Path} {m : Manifest} (named : namedDirectory d file specifier = some place)
      (there : d.isDirectory place = true) (real : d.canonicalize place = .ok dir)
      (found : manifestAt d known dir = .ok (some m)) :
      Around file specifier target (dir / manifestName) .manifest
  /-- The manifest of the package that owns the target. -/
  | root {dir : Path} (dependency : Specifier.isDependency specifier = true)
      (owner : (Package.rootDirectory d (Specifier.split specifier).1 target).answer known =
        .ok (some dir)) :
      Around file specifier target (dir / manifestName) .manifest
  /-- The place where the package is installed, if that is a link. -/
  | place {place : Path} (dependency : Specifier.isDependency specifier = true)
      (located : Package.locate d (Specifier.split specifier).1 (file.parent?.getD file) =
        some place) (link : d.isLink place = true) :
      Around file specifier target place .link

/-- What a visit of `file` contributes. -/
inductive Contributes (file : Path) : Path → ReasonKind → Prop
  | above {dir : Path} (h : Above s d known file.ancestors.tail dir) :
      Contributes file (dir / manifestName) .manifest
  | around {specifier : String} {k : ReferenceKind} {target path : Path} {kind : ReasonKind}
      (h : Follows s d known file specifier k target)
      (ha : Around d known file specifier target path kind) : Contributes file path kind
  | target {specifier : String} {k : ReferenceKind} {target : Path}
      (h : Follows s d known file specifier k target) : Contributes file target (.reference k)

/-! ## Progress -/

/-- The progress goes on from `p` to `p'`: the names of the paths in `C` are added for `parent`, and the
files in `T` are reached. -/
structure Grows (parent : Option String) (p p' : Progress) (C : Path → ReasonKind → Prop)
    (T : Path → Prop) : Prop where
  reasons : ∃ log : Log, p'.reasons = p.reasons.addAll log ∧ ∀ n k q, (n, k, q) ∈ log ↔
    q = parent ∧ ∃ path, C path k ∧ s.project.relative path = .ok n
  named : ∀ path k, C path k → ∃ n, s.project.relative path = .ok n
  reached : ∃ new, p'.seen = p.seen ++ new ∧ p'.queue = p.queue ++ new ∧ ∀ f ∈ new, T f
  complete : ∀ t, T t → ∃ f ∈ p'.seen, f.same t = true
  nodup : p.seen.Nodup → p'.seen.Nodup

/-- Nothing. -/
abbrev NoPath : Path → ReasonKind → Prop := fun _ _ => False

abbrev NoFile : Path → Prop := fun _ => False

variable {s d known} {parent : Option String} {p p' p'' : Progress}
variable {C C' : Path → ReasonKind → Prop} {T T' : Path → Prop}

theorem grows_of_eq (hr : p'.reasons = p.reasons) (hs : p'.seen = p.seen) (hq : p'.queue = p.queue) :
    Grows s parent p p' NoPath NoFile := by
  refine ⟨⟨[], hr, fun n k q => ?_⟩, fun _ _ h => h.elim, ⟨[], ?_, ?_, fun _ h => (nomatch h)⟩,
    fun _ h => h.elim, fun h => hs ▸ h⟩
  · simp
  · rw [hs, List.append_nil]
  · rw [hq, List.append_nil]

theorem grows_refl (p : Progress) : Grows s parent p p NoPath NoFile := grows_of_eq rfl rfl rfl

theorem Grows.trans (h : Grows s parent p p' C T) (h' : Grows s parent p' p'' C' T') :
    Grows s parent p p'' (fun path k => C path k ∨ C' path k) (fun t => T t ∨ T' t) := by
  obtain ⟨log, hlog, hmem⟩ := h.reasons
  obtain ⟨log', hlog', hmem'⟩ := h'.reasons
  obtain ⟨new, hseen, hqueue, hT⟩ := h.reached
  obtain ⟨new', hseen', hqueue', hT'⟩ := h'.reached
  refine ⟨⟨log ++ log', ?_, fun n k q => ?_⟩, ?_, ⟨new ++ new', ?_, ?_, ?_⟩, ?_,
    fun hn => h'.nodup (h.nodup hn)⟩
  · rw [hlog', hlog, Reasons.addAll_append]
  · rw [List.mem_append, hmem, hmem']
    grind
  · rintro path k (hc | hc)
    · exact h.named path k hc
    · exact h'.named path k hc
  · rw [hseen', hseen, List.append_assoc]
  · rw [hqueue', hqueue, List.append_assoc]
  · intro f hf
    exact (List.mem_append.1 hf).imp (hT f) (hT' f)
  · rintro t (ht | ht)
    · obtain ⟨f, hf, hs⟩ := h.complete t ht
      exact ⟨f, hseen' ▸ List.mem_append_left _ hf, hs⟩
    · exact h'.complete t ht

theorem Grows.congr (h : Grows s parent p p' C T) (hC : ∀ path k, C path k ↔ C' path k)
    (hT : ∀ t, T t ↔ T' t) : Grows s parent p p' C' T' := by
  have hC' : C = C' := funext fun path => funext fun k => propext (hC path k)
  have hT' : T = T' := funext fun t => propext (hT t)
  exact hC' ▸ hT' ▸ h

theorem grows_add {path : Path} {n : String} (hn : s.project.relative path = .ok n)
    (kind : ReasonKind) (p : Progress) :
    Grows s parent p (p.add n kind parent) (fun x k => x = path ∧ k = kind) NoFile := by
  refine ⟨⟨[(n, kind, parent)], rfl, fun m k q => ?_⟩, ?_, ⟨[], ?_, ?_, fun _ h => (nomatch h)⟩,
    fun _ h => h.elim, id⟩
  · rw [List.mem_singleton, Prod.mk.injEq, Prod.mk.injEq]
    constructor
    · rintro ⟨rfl, rfl, rfl⟩
      exact ⟨rfl, path, ⟨rfl, rfl⟩, hn⟩
    · rintro ⟨rfl, x, ⟨rfl, rfl⟩, hx⟩
      rw [hn] at hx
      cases hx
      exact ⟨rfl, rfl, rfl⟩
  · rintro x k ⟨rfl, rfl⟩
    exact ⟨n, hn⟩
  · exact (List.append_nil _).symm
  · exact (List.append_nil _).symm

theorem grows_reach (file : Path) (p : Progress) :
    Grows s parent p (p.reach file) NoPath (fun t => t = file) := by
  unfold Progress.reach
  split
  · rename_i h
    obtain ⟨f, hf, hs⟩ := List.any_eq_true.1 h
    have hg : Grows s parent p p NoPath NoFile := grows_refl p
    refine ⟨hg.reasons, hg.named, ⟨[], ?_, ?_, fun _ h => (nomatch h)⟩, ?_, id⟩
    · exact (List.append_nil _).symm
    · exact (List.append_nil _).symm
    · rintro t rfl
      exact ⟨f, hf, hs⟩
  · rename_i h
    refine ⟨⟨[], rfl, by simp⟩, fun _ _ h => h.elim, ⟨[file], rfl, rfl, ?_⟩, ?_, fun hn => ?_⟩
    · exact fun f hf => List.mem_singleton.1 hf
    · rintro t rfl
      exact ⟨t, List.mem_append_right _ (List.mem_singleton_self _), same_refl t⟩
    · refine List.nodup_append.2 ⟨hn, List.nodup_singleton _, fun a ha b hb hab => ?_⟩
      rw [List.mem_singleton] at hb
      subst hb hab
      exact h (List.any_eq_true.2 ⟨a, ha, same_refl a⟩)

/-! ## Manifests and links -/

section
variable (s d known)

theorem steady_addManifest (dir : Path) (parent : String) (p : Progress) :
    Steady d known (addManifest s dir parent p) :=
  steady_bind (steady_ofExcept _) fun _ => agree_pure rfl

theorem agree_addFound (dir : Path) (parent : String) (p : Progress) {m m' : Option Manifest}
    (h : SameFacts m m') :
    Agree d known Eq (addFound s dir parent m p) (addFound s dir parent m' p) := by
  obtain ⟨rfl, rfl⟩ | ⟨x, q, rfl, rfl⟩ := h.cases
  · exact agree_pure rfl
  · exact steady_addManifest s d known dir parent p

theorem isTop_of_sameFacts (dir : Path) {m m' : Option Manifest} (h : SameFacts m m') :
    isTop s dir m = isTop s dir m' := by
  obtain ⟨rfl, rfl⟩ | ⟨x, q, rfl, rfl⟩ := h.cases <;> rfl

theorem agree_climb (dir : Path) (parent : String) (rest : List Path) (p : Progress)
    (hrest : ∀ p, Steady d known (addManifests s d parent rest p)) (m m' : Option Manifest)
    (h : SameFacts m m') : Agree d known Eq
      (addFound s dir parent m p >>= fun p =>
        if isTop s dir m then pure p else addManifests s d parent rest p)
      (addFound s dir parent m' p >>= fun p =>
        if isTop s dir m' then pure p else addManifests s d parent rest p) := by
  refine agree_bind (agree_addFound s d known dir parent p h) ?_
  rintro p' _ rfl
  rw [isTop_of_sameFacts s dir h]
  split
  · exact agree_pure rfl
  · exact hrest p'

theorem steady_addManifests (parent : String) {dirs : List Path} (hdirs : ∀ dir ∈ dirs, dir.IsPlain)
    (p : Progress) : Steady d known (addManifests s d parent dirs p) := by
  induction dirs generalizing p with
  | nil => exact agree_pure rfl
  | cons dir rest ih =>
    unfold addManifests
    split
    · exact steady_load_bind (.inl (hdirs dir (List.mem_cons_self ..)))
        (agree_climb s d known dir parent rest p fun p =>
          ih (fun x hx => hdirs x (List.mem_cons_of_mem _ hx)) p)
    · exact agree_pure rfl

end

theorem grows_addManifest {dir : Path} {parent : String}
    (h : (addManifest s dir parent p).answer known = .ok p') :
    Grows s (some parent) p p' (fun x k => x = dir / manifestName ∧ k = .manifest) NoFile := by
  obtain ⟨n, hn, hp⟩ := steady_bind_ok (d := default) (steady_ofExcept _)
    (fun _ => agree_pure rfl) h
  rw [Query.answer_ofExcept] at hn
  cases hp
  exact grows_add hn .manifest p

theorem grows_addFound {dir : Path} {parent : String} {m : Option Manifest}
    (h : (addFound s dir parent m p).answer known = .ok p') :
    Grows s (some parent) p p'
      (fun x k => m.isSome = true ∧ x = dir / manifestName ∧ k = .manifest) NoFile := by
  unfold addFound at h
  split at h
  · rename_i hm
    exact (grows_addManifest h).congr (by simp [hm]) fun _ => Iff.rfl
  · rename_i hm
    cases h
    exact (grows_refl p).congr (by simp [hm]) fun _ => Iff.rfl

theorem above_cons {dir x : Path} {rest : List Path} {m : Option Manifest}
    (hin : dir.startsWith s.project.root = true) (hm : manifestAt d known dir = .ok m) :
    Above s d known (dir :: rest) x ↔
      (x = dir ∧ m.isSome = true) ∨ (isTop s dir m = false ∧ Above s d known rest x) := by
  constructor
  · rintro ⟨before, after, mx, hsplit, hx, hmx, hb⟩
    rcases before with _ | ⟨y, before⟩
    · cases hsplit
      rw [hm] at hmx
      cases hmx
      exact .inl ⟨rfl, rfl⟩
    · cases hsplit
      obtain ⟨-, m', hm', htop⟩ := hb dir (List.mem_cons_self ..)
      rw [hm] at hm'
      cases hm'
      exact .inr ⟨htop, before, after, mx, rfl, hx, hmx, fun y hy =>
        hb y (List.mem_cons_of_mem _ hy)⟩
  · rintro (⟨rfl, hs⟩ | ⟨htop, before, after, mx, rfl, hx, hmx, hb⟩)
    · obtain ⟨m', rfl⟩ := Option.isSome_iff_exists.1 hs
      exact ⟨[], rest, m', rfl, hin, hm, fun _ h => (nomatch h)⟩
    · refine ⟨dir :: before, after, mx, rfl, hx, hmx, fun y hy => ?_⟩
      rcases List.mem_cons.1 hy with rfl | hy
      · exact ⟨hin, m, hm, htop⟩
      · exact hb y hy

/-- Going up adds the manifests that are read on the way. -/
theorem grows_addManifests {parent : String} {dirs : List Path} (hdirs : ∀ dir ∈ dirs, dir.IsPlain)
    (h : (addManifests s d parent dirs p).answer known = .ok p') :
    Grows s (some parent) p p'
      (fun x k => ∃ dir, Above s d known dirs dir ∧ x = dir / manifestName ∧ k = .manifest) NoFile := by
  induction dirs generalizing p with
  | nil =>
    cases h
    refine (grows_refl _).congr (fun x k => ⟨False.elim, ?_⟩) fun _ => Iff.rfl
    rintro ⟨dir, ⟨before, after, -, hsplit, -⟩, -⟩
    exact absurd hsplit (by simp)
  | cons dir rest ih =>
    have hrest : ∀ x ∈ rest, x.IsPlain := fun x hx => hdirs x (List.mem_cons_of_mem _ hx)
    unfold addManifests at h
    split at h
    · rename_i hin
      obtain ⟨m, hm, -, h⟩ := (agree_load (.inl (hdirs dir (List.mem_cons_self ..)))).bind_ok
        (agree_climb s d known dir parent rest p (steady_addManifests s d known parent hrest)) h
      obtain ⟨p₁, h₁, h⟩ := steady_bind_ok (d := d)
        (agree_addFound s d known dir parent p (m := m) rfl) (fun p => by
          split
          · exact agree_pure rfl
          · exact steady_addManifests s d known parent hrest p) h
      split at h
      · rename_i htop
        cases h
        refine (grows_addFound h₁).congr (fun x k => ?_) fun _ => Iff.rfl
        simp only [above_cons hin hm, htop, Bool.true_eq_false, false_and, or_false]
        constructor
        · exact fun ⟨hsome, hx⟩ => ⟨dir, ⟨rfl, hsome⟩, hx⟩
        · rintro ⟨_, ⟨rfl, hsome⟩, hx⟩
          exact ⟨hsome, hx⟩
      · rename_i htop
        refine ((grows_addFound h₁).trans (ih hrest h)).congr (fun x k => ?_) (by simp)
        simp only [above_cons hin hm, Bool.eq_false_of_not_eq_true htop, true_and]
        constructor
        · rintro (⟨hsome, hx⟩ | ⟨y, hy, hx⟩)
          · exact ⟨dir, .inl ⟨rfl, hsome⟩, hx⟩
          · exact ⟨y, .inr hy, hx⟩
        · rintro ⟨y, ⟨rfl, hsome⟩ | hy, hx⟩
          · exact .inl ⟨hsome, hx⟩
          · exact .inr ⟨y, hy, hx⟩
    · rename_i hin
      cases h
      refine (grows_refl _).congr (fun x k => ⟨False.elim, ?_⟩) fun _ => Iff.rfl
      rintro ⟨x, ⟨before, after, m, hsplit, hx, -, hb⟩, -⟩
      rcases before with _ | ⟨y, before⟩
      · cases hsplit
        exact hin hx
      · cases hsplit
        exact hin (hb dir (List.mem_cons_self ..)).1

/-! ## Around a reference -/

section
variable (s known) (hd : Disk.Spelled d.here)

include hd in
theorem steady_addNamedManifest (file : Path) (specifier parent : String) (p : Progress) :
    Steady d known (addNamedManifest s d file specifier parent p) := by
  unfold addNamedManifest
  split
  · exact agree_pure rfl
  · rename_i place _
    split
    · rcases hc : d.canonicalize place with e | dir
      · exact agree_throw _
      · exact steady_load_bind (.inl (d.isPlain_of_canonicalize hd hc))
          fun m m' h => agree_addFound s d known dir parent p h
    · exact agree_pure rfl

theorem steady_addRoot (specifier : String) {target : Path} (ht : target.IsPlain) (parent : String)
    (p : Progress) : Steady d known (addRoot s d specifier target parent p) := by
  refine settled_bind (Package.settled_rootDirectory _ ht) ?_
  rintro (_ | dir) _
  · exact agree_pure rfl
  · exact steady_addManifest s d known dir parent p

theorem steady_addInstalled (file : Path) (specifier parent : String) (p : Progress) :
    Steady d known (addInstalled s d file specifier parent p) := by
  unfold addInstalled
  split
  · split
    · exact steady_bind (steady_ofExcept _) fun _ => agree_pure rfl
    · exact agree_pure rfl
  · exact agree_pure rfl

include hd in
theorem steady_addAround (file : Path) (specifier : String) {target : Path} (ht : target.IsPlain)
    (parent : String) (p : Progress) :
    Steady d known (addAround s d file specifier target parent p) := by
  refine steady_bind (steady_addNamedManifest s known hd file specifier parent p) fun p => ?_
  split
  · exact steady_bind (steady_addRoot s known specifier ht parent p) fun p =>
      steady_addInstalled s known file specifier parent p
  · exact agree_pure rfl

end

variable {file target : Path} {specifier : String} {name : String}

theorem grows_addNamedManifest (hd : Disk.Spelled d.here)
    (h : (addNamedManifest s d file specifier name p).answer known = .ok p') :
    Grows s (some name) p p' (fun x k => ∃ place dir m, namedDirectory d file specifier = some place ∧
      d.isDirectory place = true ∧ d.canonicalize place = .ok dir ∧
      manifestAt d known dir = .ok (some m) ∧ x = dir / manifestName ∧ k = .manifest) NoFile := by
  unfold addNamedManifest at h
  split at h
  · rename_i hn
    cases h
    refine (grows_refl _).congr (fun x k => ⟨False.elim, ?_⟩) fun _ => Iff.rfl
    rintro ⟨place, dir, m, hplace, -⟩
    rw [hn] at hplace
    cases hplace
  · rename_i place hn
    split at h
    · rename_i hdir
      rcases hc : d.canonicalize place with e | dir
      · rw [hc] at h; cases h
      · rw [hc] at h
        obtain ⟨m, hm, -, h⟩ := (agree_load (.inl (d.isPlain_of_canonicalize hd hc))).bind_ok
          (fun m m' h => agree_addFound s d known dir name p h) h
        refine (grows_addFound h).congr (fun x k => ⟨?_, ?_⟩) fun _ => Iff.rfl
        · rintro ⟨hsome, hx⟩
          obtain ⟨m', rfl⟩ := Option.isSome_iff_exists.1 hsome
          exact ⟨place, dir, m', hn, hdir, hc, hm, hx⟩
        · rintro ⟨place', dir', m', hn', -, hc', hm', hx⟩
          rw [hn] at hn'
          cases hn'
          rw [hc] at hc'
          cases hc'
          change manifestAt d known dir = .ok m at hm
          rw [hm'] at hm
          cases hm
          exact ⟨rfl, hx⟩
    · rename_i hdir
      cases h
      refine (grows_refl _).congr (fun x k => ⟨False.elim, ?_⟩) fun _ => Iff.rfl
      rintro ⟨place', dir, m, hn', hdir', -⟩
      rw [hn] at hn'
      cases hn'
      exact hdir hdir'

theorem grows_addRoot (ht : target.IsPlain)
    (h : (addRoot s d specifier target name p).answer known = .ok p') :
    Grows s (some name) p p' (fun x k => ∃ dir,
      (Package.rootDirectory d (Specifier.split specifier).1 target).answer known = .ok (some dir) ∧
      x = dir / manifestName ∧ k = .manifest) NoFile := by
  obtain ⟨r, hr, h⟩ := steady_bind_ok (Package.settled_rootDirectory _ ht).steady (fun r => by
    split
    · exact steady_addManifest s d known _ name p
    · exact agree_pure rfl) h
  rcases r with _ | dir
  · cases h
    refine (grows_refl _).congr (fun x k => ⟨False.elim, ?_⟩) fun _ => Iff.rfl
    rintro ⟨dir, hdir, -⟩
    rw [hr] at hdir
    cases hdir
  · refine (grows_addManifest h).congr (fun x k => ⟨fun hx => ⟨dir, hr, hx⟩, ?_⟩) fun _ => Iff.rfl
    rintro ⟨dir', hdir, hx⟩
    rw [hr] at hdir
    cases hdir
    exact hx

theorem grows_addInstalled (h : (addInstalled s d file specifier name p).answer known = .ok p') :
    Grows s (some name) p p' (fun x k =>
      Package.locate d (Specifier.split specifier).1 (file.parent?.getD file) = some x ∧
      d.isLink x = true ∧ k = .link) NoFile := by
  unfold addInstalled at h
  split at h
  · rename_i place hplace
    split at h
    · rename_i hlink
      obtain ⟨n, hn, h⟩ := steady_bind_ok (d := d) (steady_ofExcept _) (fun _ => agree_pure rfl) h
      rw [Query.answer_ofExcept] at hn
      cases h
      refine (grows_add hn .link _).congr (fun x k => ⟨?_, ?_⟩) fun _ => Iff.rfl
      · rintro ⟨rfl, rfl⟩
        exact ⟨hplace, hlink, rfl⟩
      · rintro ⟨hx, -, rfl⟩
        rw [hplace] at hx
        cases hx
        exact ⟨rfl, rfl⟩
    · rename_i hlink
      cases h
      refine (grows_refl _).congr (fun x k => ⟨False.elim, ?_⟩) fun _ => Iff.rfl
      rintro ⟨hx, hl, -⟩
      rw [hplace] at hx
      cases hx
      exact hlink hl
  · rename_i hplace
    cases h
    refine (grows_refl _).congr (fun x k => ⟨False.elim, ?_⟩) fun _ => Iff.rfl
    rintro ⟨hx, -⟩
    rw [hplace] at hx
    cases hx

theorem grows_addAround (hd : Disk.Spelled d.here) (ht : target.IsPlain)
    (h : (addAround s d file specifier target name p).answer known = .ok p') :
    Grows s (some name) p p' (Around d known file specifier target) NoFile := by
  obtain ⟨p₁, h₁, h⟩ := steady_bind_ok (steady_addNamedManifest s known hd file specifier name p)
    (fun p => by
      split
      · exact steady_bind (steady_addRoot s known specifier ht name p) fun p =>
          steady_addInstalled s known file specifier name p
      · exact agree_pure rfl) h
  have hg₁ := grows_addNamedManifest hd h₁
  split at h
  · rename_i hdep
    obtain ⟨p₂, h₂, h⟩ := steady_bind_ok (steady_addRoot s known specifier ht name p₁)
      (fun p => steady_addInstalled s known file specifier name p) h
    refine (hg₁.trans ((grows_addRoot ht h₂).trans (grows_addInstalled h))).congr
      (fun x k => ⟨?_, ?_⟩) (by simp)
    · rintro (⟨place, dir, m, hn, hdir, hc, hm, rfl, rfl⟩ | ⟨dir, howner, rfl, rfl⟩ |
        ⟨hplace, hlink, rfl⟩)
      · exact .directory hn hdir hc hm
      · exact .root hdep howner
      · exact .place hdep hplace hlink
    · rintro (⟨hn, hdir, hc, hm⟩ | ⟨-, howner⟩ | ⟨-, hplace, hlink⟩)
      · exact .inl ⟨_, _, _, hn, hdir, hc, hm, rfl, rfl⟩
      · exact .inr (.inl ⟨_, howner, rfl, rfl⟩)
      · exact .inr (.inr ⟨hplace, hlink, rfl⟩)
  · rename_i hdep
    cases h
    refine hg₁.congr (fun x k => ⟨?_, ?_⟩) fun _ => Iff.rfl
    · rintro ⟨place, dir, m, hn, hdir, hc, hm, rfl, rfl⟩
      exact .directory hn hdir hc hm
    · rintro (⟨hn, hdir, hc, hm⟩ | ⟨hdep', -⟩ | ⟨hdep', -, -⟩)
      · exact ⟨_, _, _, hn, hdir, hc, hm, rfl, rfl⟩
      · exact absurd hdep' hdep
      · exact absurd hdep' hdep

/-! ## References -/

theorem steady_foldlM {α β : Type} {f : β → α → Query β} (hf : ∀ b a, Steady d known (f b a))
    (l : List α) (b : β) : Steady d known (l.foldlM f b) := by
  induction l generalizing b with
  | nil => exact agree_pure rfl
  | cons a l ih => exact steady_bind (hf b a) ih

/-- A fold of steps that each go on from the progress before. -/
theorem grows_foldlM {α : Type} {f : Progress → α → Query Progress} {l : List α}
    {C : α → Path → ReasonKind → Prop} {T : α → Path → Prop}
    (hf : ∀ p a, Steady d known (f p a))
    (h : ∀ a ∈ l, ∀ p p', (f p a).answer known = .ok p' → Grows s parent p p' (C a) (T a))
    (hp : (l.foldlM f p).answer known = .ok p') :
    Grows s parent p p' (fun x k => ∃ a ∈ l, C a x k) (fun t => ∃ a ∈ l, T a t) := by
  induction l generalizing p with
  | nil =>
    cases hp
    exact (grows_refl _).congr (by simp) (by simp)
  | cons a l ih =>
    rw [List.foldlM_cons] at hp
    obtain ⟨p₁, h₁, hp⟩ := steady_bind_ok (hf p a) (steady_foldlM hf l) hp
    refine ((h a (List.mem_cons_self ..) p p₁ h₁).trans
      (ih (fun b hb => h b (List.mem_cons_of_mem _ hb)) hp)).congr (by simp) (by simp)

/-- What following one reference contributes. -/
def FollowedTo (s : Setting) (d : Disk) (known : Manifests) (file : Path) (r : String × ReferenceKind)
    (x : Path) (k : ReasonKind) : Prop :=
  ∃ target, Leads s d known file r.1 target ∧
    (Around d known file r.1 target x k ∨ (x = target ∧ k = .reference r.2))

section
variable (hs : Fixed d known s.project.resolver) (hd : Disk.Spelled d.here)
include hd

theorem agree_followTo (file : Path) (parent : String) (p : Progress) (specifier : String)
    (kind : ReferenceKind) (r r' : Except Error Resolution)
    (h : Matches (fun a b => a = b ∧ a.IsPlain) r r') :
    Agree d known Eq (followTo s d file parent p specifier kind r)
      (followTo s d file parent p specifier kind r') := by
  obtain ⟨a, _, rfl, rfl, rfl, ha⟩ | ⟨e, rfl, rfl⟩ := h.cases
  · rcases a with _ | target
    · exact agree_pure rfl
    · refine steady_bind (steady_ofExcept _) fun n => ?_
      split
      · exact agree_pure rfl
      · exact steady_bind (steady_addAround s known hd file specifier ha parent p)
          fun _ => agree_pure rfl
  · unfold followTo
    dsimp only
    split
    · exact agree_pure rfl
    · exact agree_throw e

include hs

theorem steady_follow (file : Path) (parent : String) (p : Progress)
    (r : String × ReferenceKind) : Steady d known (follow s d file parent p r) :=
  agree_bind (agree_outcome (Project.settled_resolve hs file r.1))
    (agree_followTo hd file parent p r.1 r.2)

theorem grows_follow {r : String × ReferenceKind}
    (h : (follow s d file name p r).answer known = .ok p') :
    Grows s (some name) p p' (FollowedTo s d known file r) (Leads s d known file r.1) := by
  obtain ⟨o, ho, hmatch, h⟩ := (agree_outcome (Project.settled_resolve hs file r.1)).bind_ok
    (agree_followTo hd file name p r.1 r.2) h
  rw [Query.answer_outcome] at ho
  cases ho
  -- a reference that does not lead to a file leaves nothing
  have hnone : p'.reasons = p.reasons → p'.seen = p.seen → p'.queue = p.queue →
      (∀ t, ¬ Leads s d known file r.1 t) →
      Grows s (some name) p p' (FollowedTo s d known file r) (Leads s d known file r.1) := by
    intro hr hse hq hno
    refine (grows_of_eq hr hse hq).congr (fun x k => ⟨False.elim, ?_⟩) fun t => ?_
    · rintro ⟨t, ht, -⟩
      exact hno t ht
    · exact ⟨False.elim, hno t⟩
  rcases hres : (s.project.resolve d file r.1).answer known with e | ⟨_ | target⟩
  · rw [hres] at h
    have hno : ∀ t, ¬ Leads s d known file r.1 t := fun t ht => by
      have := ht.resolved
      rw [hres] at this
      cases this
    unfold followTo at h
    dsimp only at h
    split at h
    · cases h
      exact hnone rfl rfl rfl hno
    · cases h
  · rw [hres] at h
    cases h
    refine hnone rfl rfl rfl fun t ht => ?_
    have := ht.resolved
    rw [hres] at this
    cases this
  · rw [hres] at h hmatch
    obtain ⟨_, _, ha, -, -, hplain⟩ | ⟨_, he, -⟩ := hmatch.cases
    · cases ha
      obtain ⟨n, hn, h⟩ := steady_bind_ok (d := d) (steady_ofExcept _) (fun n => by
        split
        · exact agree_pure rfl
        · exact steady_bind (steady_addAround s known hd file r.1 hplain name p)
            fun _ => agree_pure rfl) h
      rw [Query.answer_ofExcept] at hn
      have honly : ∀ t, Leads s d known file r.1 t → t = target := fun t ht => by
        have := ht.resolved
        rw [hres] at this
        cases this
        rfl
      split at h
      · rename_i hleft
        cases h
        refine hnone rfl rfl rfl fun t ht => ?_
        obtain rfl := honly t ht
        obtain ⟨n', hn', hkept⟩ := ht.kept
        rw [hn] at hn'
        cases hn'
        rw [hleft] at hkept
        cases hkept
      · rename_i hkept
        have hleads : Leads s d known file r.1 target :=
          ⟨hres, n, hn, Bool.eq_false_of_not_eq_true hkept⟩
        obtain ⟨p₁, h₁, h⟩ := steady_bind_ok (steady_addAround s known hd file r.1 hplain name p)
          (fun _ => agree_pure rfl) h
        cases h
        refine (((grows_addAround hd hplain h₁).trans (grows_add hn _ p₁)).trans
          (grows_reach target _)).congr (fun x k => ⟨?_, ?_⟩) fun t => ⟨?_, ?_⟩
        · rintro ((ha | hx) | hf)
          · exact ⟨target, hleads, .inl ha⟩
          · exact ⟨target, hleads, .inr hx⟩
          · exact hf.elim
        · rintro ⟨t, ht, hx⟩
          obtain rfl := honly t ht
          exact .inl hx
        · rintro ((hf | hf) | rfl)
          · exact hf.elim
          · exact hf.elim
          · exact hleads
        · exact fun ht => .inr (honly t ht)
    · cases he

end

/-! ## A visit -/

theorem plain_above (hf : file.IsPlain) : ∀ dir ∈ file.ancestors.tail, dir.IsPlain := fun _ hdir =>
  isPlain_of_mem_ancestors hf (List.mem_of_mem_tail hdir)

theorem reasons_warnAll (name : String) (l : List (ReferenceKind × Nat)) (p : Progress) :
    let p' := l.foldl (fun p c => p.warn (computedWarning name c)) p
    p'.reasons = p.reasons ∧ p'.seen = p.seen ∧ p'.queue = p.queue := by
  induction l generalizing p with
  | nil => exact ⟨rfl, rfl, rfl⟩
  | cons c l ih => exact ih (p.warn (computedWarning name c))

section
variable (hs : Fixed d known s.project.resolver) (hd : Disk.Spelled d.here)
include hs hd

theorem steady_followAll (file : Path) (name : String) (p : Progress) :
    Steady d known (followAll s d file name p) := by
  unfold followAll
  split
  · split
    · exact agree_pure rfl
    · exact steady_foldlM (steady_follow hs hd file name) _ _
  · exact agree_pure rfl

theorem grows_followAll (h : (followAll s d file name p).answer known = .ok p') :
    Grows s (some name) p p'
      (fun x k => ∃ specifier kind target, Follows s d known file specifier kind target ∧
        (Around d known file specifier target x k ∨ (x = target ∧ k = .reference kind)))
      (fun t => ∃ specifier kind, Follows s d known file specifier kind t) := by
  unfold followAll at h
  split at h
  · rename_i hscript
    split at h
    · rename_i message hrefs
      cases h
      have hg : Grows s (some name) p (p.warn ⟨.parse, name, none, message⟩) NoPath NoFile :=
        grows_of_eq rfl rfl rfl
      refine hg.congr (fun x k => ⟨False.elim, ?_⟩) fun t => ⟨False.elim, ?_⟩
      · rintro ⟨_, _, _, ⟨-, ⟨refs, hr, -⟩, -⟩, -⟩
        rw [hrefs] at hr
        cases hr
      · rintro ⟨_, _, -, ⟨refs, hr, -⟩, -⟩
        rw [hrefs] at hr
        cases hr
    · rename_i refs hrefs
      obtain ⟨hr, hse, hq⟩ := reasons_warnAll name refs.computed p
      have hfollows : ∀ {specifier kind target}, Follows s d known file specifier kind target ↔
          (specifier, kind) ∈ refs.static ∧ Leads s d known file specifier target := by
        refine ⟨?_, fun ⟨hmem, hl⟩ => ⟨hscript, ⟨refs, hrefs, hmem⟩, hl⟩⟩
        rintro ⟨-, ⟨refs', hr', hmem⟩, hl⟩
        rw [hrefs] at hr'
        cases hr'
        exact ⟨hmem, hl⟩
      refine ((grows_of_eq hr hse hq).trans (grows_foldlM (steady_follow hs hd file name)
        (fun r _ p p' h => grows_follow hs hd h) h)).congr (fun x k => ?_) fun t => ?_
      · simp only [false_or, FollowedTo, hfollows]
        constructor
        · rintro ⟨⟨specifier, kind⟩, hmem, target, hl, hx⟩
          exact ⟨specifier, kind, target, ⟨hmem, hl⟩, hx⟩
        · rintro ⟨specifier, kind, target, ⟨hmem, hl⟩, hx⟩
          exact ⟨(specifier, kind), hmem, target, hl, hx⟩
      · simp only [false_or, hfollows]
        constructor
        · rintro ⟨⟨specifier, kind⟩, hmem, hl⟩
          exact ⟨specifier, kind, hmem, hl⟩
        · rintro ⟨specifier, kind, hmem, hl⟩
          exact ⟨(specifier, kind), hmem, hl⟩
  · rename_i hscript
    cases h
    refine (grows_refl _).congr (fun x k => ⟨False.elim, ?_⟩) fun t => ⟨False.elim, ?_⟩
    · rintro ⟨_, _, _, ⟨hs', -, -⟩, -⟩
      exact hscript hs'
    · rintro ⟨_, _, hs', -, -⟩
      exact hscript hs'

theorem steady_visit (hf : file.IsPlain) (p : Progress) : Steady d known (visit s d file p) :=
  steady_bind (steady_ofExcept _) fun name =>
    steady_bind (steady_addManifests s d known name (plain_above hf) p) fun p =>
      steady_followAll hs hd file name p

/-- A visit adds what the file contributes, with the file as the parent, and reaches the files that it
leads to. -/
theorem grows_visit (hf : file.IsPlain) (h : (visit s d file p).answer known = .ok p') :
    ∃ name, s.project.relative file = .ok name ∧
      Grows s (some name) p p' (Contributes s d known file)
        (fun t => ∃ specifier kind, Follows s d known file specifier kind t) := by
  have habove : ∀ name, Steady d known (addManifests s d name file.ancestors.tail p) := fun name =>
    steady_addManifests s d known name (plain_above hf) p
  obtain ⟨name, hname, h⟩ := steady_bind_ok (steady_ofExcept _) (fun name =>
    steady_bind (habove name) fun p => steady_followAll hs hd file name p) h
  rw [Query.answer_ofExcept] at hname
  obtain ⟨p₁, h₁, h⟩ := steady_bind_ok (habove name)
    (fun p => steady_followAll hs hd file name p) h
  refine ⟨name, hname, ((grows_addManifests (plain_above hf) h₁).trans
    (grows_followAll hs hd h)).congr (fun x k => ⟨?_, ?_⟩) (by simp)⟩
  · rintro (⟨dir, hdir, rfl, rfl⟩ | ⟨specifier, kind, target, hfo, ha | ⟨rfl, rfl⟩⟩)
    · exact .above hdir
    · exact .around hfo ha
    · exact .target hfo
  · rintro (hdir | ⟨hfo, ha⟩ | hfo)
    · exact .inl ⟨_, hdir, rfl, rfl⟩
    · exact .inr ⟨_, _, _, hfo, .inl ha⟩
    · exact .inr ⟨_, _, _, hfo, .inr ⟨rfl, rfl⟩⟩

end

end Stowage.Trace
