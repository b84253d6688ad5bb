/-
A trace against the trace of the same files with the references to ignored packages erased. A reference
to an ignored package is resolved before it is passed over, so it is seen after all if it leads nowhere or
out of the workspace; if no reference of a reached file does, the two traces end alike.

The two runs go side by side, visit by visit: the progress of the second one is that of the first without
the warnings about ignored packages. A progress is quiet if it has no such warnings, and stays quiet as
long as every reference to an ignored package is passed over in silence.
-/
import Stowage.Proofs.Trace.Wordless

open Stowage.Path

namespace Stowage.Trace

open Manifests

/-! ## The same program without some references -/

/-- The specifier names a package that is not followed. -/
def Limits.ignores (limits : Limits) (specifier : String) : Bool :=
  Specifier.isDependency specifier &&
    limits.ignorePackages.any fun package => package = (Specifier.split specifier).1

/-- The references of a file without those to packages that are not followed. -/
def Limits.erase (limits : Limits) (refs : Script.References) : Script.References :=
  { refs with static := refs.static.filter fun r => !limits.ignores r.1 }

/-- The same program with the references to ignored packages erased from every file. -/
def Setting.erased (s : Setting) : Setting :=
  { s with analyze := fun d file => (s.analyze d file).map s.limits.erase }

/-- The warning is about a reference to a package that is not followed. -/
def Limits.concerns (limits : Limits) (w : Warning) : Bool :=
  w.kind = .unresolved && w.specifier.any limits.ignores

section
variable (s : Setting) (d : Disk) (known : Manifests)

/-- A file refers to a package that is not followed. -/
def RefersToIgnored (file : Path) (specifier : String) : Prop :=
  isScript file = true ∧ s.limits.ignores specifier = true ∧
    ∃ refs kind, s.analyze d file = .ok refs ∧ (specifier, kind) ∈ refs.static

/-- The specifier stands for a module of the runtime or for a file of the workspace. -/
def Settles (file : Path) (specifier : String) : Prop :=
  ∃ r, (s.project.resolve d file specifier).answer known = .ok r ∧
    ∀ target, r = .file target → ∃ name, s.project.relative target = .ok name

/-- Every reference of the file to an ignored package stands for a module of the runtime or for a file
of the workspace. -/
def Silent (file : Path) : Prop :=
  ∀ specifier, RefersToIgnored s d file specifier → Settles s d known file specifier

end

namespace Progress

/-- The progress without the warnings about ignored packages. -/
def muted (limits : Limits) (p : Progress) : Progress :=
  p.mapWarnings (·.filter fun w => !limits.concerns w)

/-- There is no warning about an ignored package. -/
def Quiet (limits : Limits) (p : Progress) : Prop := ∀ w ∈ p.warnings, limits.concerns w = false

variable {limits : Limits} {p p' : Progress}

theorem muted_eq_iff : p.muted limits = p ↔ p.Quiet limits := by
  unfold muted mapWarnings Quiet
  constructor
  · intro h w hw
    rw [← congrArg warnings h] at hw
    simpa using (List.mem_filter.1 hw).2
  · intro h
    have hf : (p.warnings.filter fun w => !limits.concerns w) = p.warnings :=
      List.filter_eq_self.2 fun w hw => by rw [h w hw]; rfl
    simp only [hf]

theorem quiet_congr (h : p'.warnings = p.warnings) : p'.Quiet limits ↔ p.Quiet limits := by
  unfold Quiet; rw [h]

theorem quiet_warn (w : Warning) :
    (p.warn w).Quiet limits ↔ p.Quiet limits ∧ limits.concerns w = false := by
  unfold Quiet warn
  simp only [List.mem_append, List.mem_singleton, or_imp, forall_and, forall_eq]

theorem muted_warn_of_concerns {w : Warning} (h : limits.concerns w = true) :
    (p.warn w).muted limits = p.muted limits := by
  simp [muted, mapWarnings, warn, h]

theorem muted_warn {w : Warning} (h : limits.concerns w = false) :
    (p.warn w).muted limits = (p.muted limits).warn w := by
  simp [muted, mapWarnings, warn, h]

end Progress

variable {s : Setting} {d : Disk} {known : Manifests} {limits : Limits}

theorem isLeftOut_of_ignores {specifier : String} (h : s.limits.ignores specifier = true)
    (name : String) : isLeftOut s specifier name = true := by
  unfold Limits.ignores at h
  simp only [Bool.and_eq_true, List.any_eq_true, decide_eq_true_eq] at h
  obtain ⟨hdep, package, hmem, he⟩ := h
  unfold isLeftOut
  rw [Bool.or_eq_true, List.any_eq_true (l := s.limits.ignorePackages)]
  exact .inr ⟨package, hmem, by simp [hdep, he]⟩

/-! ## Two runs side by side -/

/-- What a step from `p` gives, next to what the same step gives without the references to ignored
packages; `U` says that all of these are passed over in silence. -/
inductive Alike (limits : Limits) (U : Prop) (p : Progress) :
    Except Error Progress → Except Error Progress → Prop
  | ok {p' : Progress} (h : p'.Quiet limits ↔ p.Quiet limits ∧ U) :
      Alike limits U p (.ok p') (.ok (p'.muted limits))
  | error (e : Error) : Alike limits U p (.error e) (.error e)
  /-- The step fails for a reference that is not there the other time. -/
  | noisy {e : Error} {r : Except Error Progress} (h : ¬ U) : Alike limits U p (.error e) r

section
variable {U U' : Prop} {p : Progress} {r r' : Except Error Progress}

theorem Alike.congr (h : Alike limits U p r r') (hU : U ↔ U') : Alike limits U' p r r' :=
  propext hU ▸ h

theorem Alike.bind {k k' : Progress → Except Error Progress} (h : Alike limits U p r r')
    (hk : ∀ p', r = .ok p' → Alike limits U' p' (k p') (k' (p'.muted limits))) :
    Alike limits (U ∧ U') p (r >>= k) (r' >>= k') := by
  cases h with
  | error e => exact .error e
  | noisy hU => exact .noisy fun h => hU h.1
  | ok hq =>
    rename_i p'
    have h' := hk p' rfl
    show Alike limits (U ∧ U') p (k p') (k' (p'.muted limits))
    revert h'
    generalize k p' = r₁
    generalize k' (p'.muted limits) = r₁'
    rintro (hq' | e | hU')
    · exact .ok (by rw [hq', hq, and_assoc])
    · exact .error e
    · exact .noisy fun h => hU' h.2

/-- The other run has no such step. -/
theorem Alike.skip {k : Progress → Except Error Progress}
    (h : Alike limits U p r (.ok (p.muted limits)))
    (hk : ∀ p', p'.muted limits = p.muted limits → Alike limits U' p' (k p') r') :
    Alike limits (U ∧ U') p (r >>= k) r' := by
  generalize hm : p.muted limits = m at h hk
  cases h with
  | noisy hU => exact .noisy fun h => hU h.1
  | ok hq =>
    rename_i p'
    show Alike limits (U ∧ U') p (.ok p' >>= k) (.ok (p'.muted limits) >>= fun _ => r')
    refine Alike.bind (.ok hq) fun p' hp' => ?_
    cases hp'
    exact hk _ rfl

/-- A step without a warning goes alike with and without the warnings so far. -/
theorem Wordless.alike {step : Progress → Query Progress} (h : Wordless step) (p : Progress)
    (ms : Manifests) :
    Alike limits True p ((step p).answer ms) ((step (p.muted limits)).answer ms) := by
  unfold Progress.muted
  rw [h, map_eq_pure_bind, Query.answer_bind]
  rcases hp : (step p).answer ms with e | p'
  · exact .error e
  · exact .ok (by rw [Progress.quiet_congr (h.warnings_eq hp), and_true])

end

/-! ## References -/

section
variable (hs : Fixed d known s.project.resolver) (hd : Disk.Spelled d.here)
include hs hd

/-- A reference to an ignored package changes nothing but the warnings, and these only if it is not
settled. -/
theorem alike_ignored {file : Path} {parent : String} (p : Progress) {r : String × ReferenceKind}
    (hr : s.limits.ignores r.1 = true) :
    Alike s.limits (Settles s d known file r.1) p ((follow s d file parent p r).answer known)
      (.ok (p.muted s.limits)) := by
  rw [answer_follow hs hd]
  unfold followTo Settles
  rcases (s.project.resolve d file r.1).answer known with e | ⟨name | target⟩
  · have hno : ¬ ∃ x, (Except.error e : Except Error Resolution) = .ok x ∧ ∀ target,
        x = .file target → ∃ name, s.project.relative target = .ok name := fun ⟨_, h, _⟩ => nomatch h
    dsimp only
    split
    · have hw : s.limits.concerns
          ⟨.unresolved, parent, some r.1, "could not be resolved"⟩ = true := by
        simp [Limits.concerns, hr]
      rw [← Progress.muted_warn_of_concerns hw]
      exact .ok (by rw [Progress.quiet_warn, hw]; simp)
    · exact .noisy hno
  · exact .ok (by simp)
  · dsimp only
    rw [Query.answer_bind, Query.answer_ofExcept]
    rcases hrel : s.project.relative target with e | name
    · refine .noisy ?_
      rintro ⟨_, h, hin⟩
      cases h
      obtain ⟨name, hname⟩ := hin target rfl
      rw [hrel] at hname
      cases hname
    · dsimp only
      rw [if_pos (isLeftOut_of_ignores hr name)]
      exact .ok (by simp [hrel])

/-- Any other reference is followed alike. -/
theorem alike_followed {file : Path} {parent : String} (p : Progress) {r : String × ReferenceKind}
    (hr : s.limits.ignores r.1 = false) :
    Alike s.limits True p ((follow s d file parent p r).answer known)
      ((follow s.erased d file parent (p.muted s.limits) r).answer known) := by
  have herased : (follow s.erased d file parent (p.muted s.limits) r).answer known =
      (follow s d file parent (p.muted s.limits) r).answer known := rfl
  rw [herased, answer_follow hs hd, answer_follow hs hd]
  rcases (s.project.resolve d file r.1).answer known with e | ⟨name | target⟩
  · unfold followTo
    dsimp only
    split
    · have hw : s.limits.concerns
          ⟨.unresolved, parent, some r.1, "could not be resolved"⟩ = false := by
        simp [Limits.concerns, hr]
      show Alike s.limits True p (.ok (p.warn _)) (.ok ((p.muted s.limits).warn _))
      rw [← Progress.muted_warn hw]
      exact .ok (by rw [Progress.quiet_warn, hw]; simp)
    · exact .error e
  · exact .ok (by simp)
  · exact (wordless_followFile file parent r.1 r.2 target).alike p known

theorem alike_follow_foldlM (file : Path) (parent : String) (l : List (String × ReferenceKind))
    (p : Progress) :
    Alike s.limits (∀ r ∈ l, s.limits.ignores r.1 = true → Settles s d known file r.1) p
      ((l.foldlM (follow s d file parent) p).answer known)
      (((l.filter fun r => !s.limits.ignores r.1).foldlM (follow s.erased d file parent)
        (p.muted s.limits)).answer known) := by
  have hs' : Fixed d known s.erased.project.resolver := hs
  induction l generalizing p with
  | nil => exact .ok (by simp)
  | cons r l ih =>
    have hleft : ((r :: l).foldlM (follow s d file parent) p).answer known =
        (follow s d file parent p r).answer known >>= fun p =>
          (l.foldlM (follow s d file parent) p).answer known :=
      Agree.answer_bind (steady_follow hs hd file parent p r)
        (steady_foldlM (steady_follow hs hd file parent) l)
    rw [hleft]
    rcases hr : s.limits.ignores r.1
    · have hright : ((r :: l.filter fun r => !s.limits.ignores r.1).foldlM
          (follow s.erased d file parent) (p.muted s.limits)).answer known =
          (follow s.erased d file parent (p.muted s.limits) r).answer known >>= fun p =>
            ((l.filter fun r => !s.limits.ignores r.1).foldlM
              (follow s.erased d file parent) p).answer known :=
        Agree.answer_bind (steady_follow hs' hd file parent (p.muted s.limits) r)
          (steady_foldlM (steady_follow hs' hd file parent) _)
      rw [List.filter_cons_of_pos (by simp [hr]), hright]
      exact Alike.congr (Alike.bind (alike_followed hs hd p hr) fun p' _ => ih p') (by simp [hr])
    · rw [List.filter_cons_of_neg (by simp [hr])]
      exact Alike.congr (Alike.skip (alike_ignored hs hd p hr) fun p' hm => hm ▸ ih p')
        (by simp [hr])

end

/-! ## Visits -/

theorem alike_warnAll (limits : Limits) (name : String) (l : List (ReferenceKind × Nat)) (p : Progress) :
    let p' := l.foldl (fun p c => p.warn (computedWarning name c)) p
    (p'.Quiet limits ↔ p.Quiet limits) ∧
      p'.muted limits = l.foldl (fun p c => p.warn (computedWarning name c)) (p.muted limits) := by
  have hno : ∀ c, limits.concerns (computedWarning name c) = false := fun _ => rfl
  induction l generalizing p with
  | nil => exact ⟨Iff.rfl, rfl⟩
  | cons c l ih =>
    obtain ⟨hq, hm⟩ := ih (p.warn (computedWarning name c))
    refine ⟨hq.trans (by rw [Progress.quiet_warn, hno]; simp), hm.trans ?_⟩
    rw [Progress.muted_warn (hno c)]
    rfl

section
variable (hs : Fixed d known s.project.resolver) (hd : Disk.Spelled d.here)
include hs hd

theorem alike_followAll (file : Path) (name : String) (p : Progress) :
    Alike s.limits (Silent s d known file) p ((followAll s d file name p).answer known)
      ((followAll s.erased d file name (p.muted s.limits)).answer known) := by
  unfold followAll
  split
  · rename_i hscript
    rcases hrefs : s.analyze d file with message | refs
    · have herased : s.erased.analyze d file = .error message := by
        show (s.analyze d file).map s.limits.erase = _
        rw [hrefs]; rfl
      rw [herased]
      have hw : s.limits.concerns ⟨.parse, name, none, message⟩ = false := rfl
      have hsilent : Silent s d known file := by
        rintro specifier ⟨-, -, refs, kind, h, -⟩
        rw [hrefs] at h
        cases h
      show Alike s.limits _ p (.ok (p.warn _)) (.ok ((p.muted s.limits).warn _))
      rw [← Progress.muted_warn hw]
      exact .ok (by rw [Progress.quiet_warn, hw]; simp [hsilent])
    · have herased : s.erased.analyze d file = .ok (s.limits.erase refs) := by
        show (s.analyze d file).map s.limits.erase = _
        rw [hrefs]; rfl
      rw [herased]
      obtain ⟨hq, hm⟩ := alike_warnAll s.limits name refs.computed p
      have hall := alike_follow_foldlM hs hd file name refs.static
        (refs.computed.foldl (fun p c => p.warn (computedWarning name c)) p)
      rw [hm] at hall
      have hsilent : (∀ r ∈ refs.static, s.limits.ignores r.1 = true → Settles s d known file r.1) ↔
          Silent s d known file := by
        constructor
        · rintro h specifier ⟨-, hig, refs', kind, hr, hmem⟩
          rw [hrefs] at hr
          cases hr
          exact h _ hmem hig
        · rintro h ⟨specifier, kind⟩ hmem hig
          exact h specifier ⟨hscript, hig, refs, kind, hrefs, hmem⟩
      revert hall
      dsimp only [Limits.erase]
      generalize (refs.static.foldlM (follow s d file name) _).answer known = r
      generalize (List.foldlM (follow s.erased d file name) _ _).answer known = r'
      rintro (hq' | e | hU)
      · exact .ok (by rw [hq', hq, hsilent])
      · exact .error e
      · exact .noisy fun h => hU (hsilent.2 h)
  · rename_i hscript
    have hsilent : Silent s d known file := fun _ h => absurd h.1 hscript
    exact .ok (by simp [hsilent])

theorem alike_visit {file : Path} (hf : file.IsPlain) (p : Progress) :
    Alike s.limits (Silent s d known file) p ((visit s d file p).answer known)
      ((visit s.erased d file (p.muted s.limits)).answer known) := by
  have hs' : Fixed d known s.erased.project.resolver := hs
  have hup : ∀ name (p : Progress), Steady d known (addManifests s d name file.ancestors.tail p) :=
    fun name p => steady_addManifests s d known name (plain_above hf) p
  have hproject : s.erased.project = s.project := rfl
  unfold visit
  rw [hproject, Query.answer_bind, Query.answer_bind, Query.answer_ofExcept, Query.after_ofExcept]
  rcases s.project.relative file with e | name
  · exact .error e
  · dsimp only
    rw [addManifests_congr s s.erased hproject,
      Agree.answer_bind (hup name p) (steady_followAll hs hd file name),
      Agree.answer_bind (hup name _) (steady_followAll hs' hd file name)]
    exact Alike.congr (Alike.bind ((wordless_addManifests name file.ancestors.tail).alike p known)
      fun p' _ => alike_followAll hs hd file name p') (by simp)

/-- Visits of both runs: either they come equally far, and the progress stays quiet as long as every visited
file is silent, or they fail alike, or the first one fails for a file that is not silent. -/
theorem alike_visitAll (visits : Nat) {entries : List Path} {done : List Path} {p : Progress}
    {ms ms' : Manifests} (hms : Extends d known ms) (hms' : Extends d known ms')
    (hp : Explored s d known entries done p) :
    (∃ p' visited, (visitAll s d visits p).answer ms = .ok p' ∧
      (visitAll s.erased d visits (p.muted s.limits)).answer ms' = .ok (p'.muted s.limits) ∧
      Explored s d known entries (done ++ visited) p' ∧
      (p'.Quiet s.limits ↔ p.Quiet s.limits ∧ ∀ file ∈ visited, Silent s d known file)) ∨
    ∃ e, (visitAll s d visits p).answer ms = .error e ∧
      ((visitAll s.erased d visits (p.muted s.limits)).answer ms' = .error e ∨
        ∃ file, Reached s d known entries file ∧ ¬ Silent s d known file) := by
  have hs' : Fixed d known s.erased.project.resolver := hs
  induction visits generalizing done p ms ms' with
  | zero => exact .inl ⟨p, [], rfl, rfl, by simpa using hp, by simp⟩
  | succ n ih =>
    -- both runs have the same files left, so they visit the same file next
    have hqueue : (p.muted s.limits).queue = p.queue := rfl
    unfold visitAll
    rw [hqueue]
    split
    · exact .inl ⟨p, [], rfl, rfl, by simpa using hp, by simp⟩
    · rename_i file rest hq
      have hfile : Reached s d known entries file := hp.sound file (by rw [hp.split, hq]; simp)
      have hplain := hfile.isPlain hs hd
      have hv := steady_visit hs hd hplain { p with queue := rest }
      have hv' := steady_visit hs' hd hplain { p.muted s.limits with queue := rest }
      rw [Query.answer_bind, Query.answer_bind, hv.answer_eq hms, hv'.answer_eq hms']
      have hboth : Alike s.limits (Silent s d known file) { p with queue := rest }
          ((visit s d file { p with queue := rest }).answer known)
          ((visit s.erased d file { p.muted s.limits with queue := rest }).answer known) :=
        alike_visit hs hd hplain { p with queue := rest }
      rcases h₁ : (visit s d file { p with queue := rest }).answer known with e | p₁
      · rw [h₁] at hboth
        refine .inr ⟨e, rfl, ?_⟩
        generalize (visit s.erased d file { p.muted s.limits with queue := rest }).answer known = r
          at hboth
        cases hboth with
        | error => exact .inl rfl
        | noisy hno => exact .inr ⟨file, hfile, hno⟩
      · rw [h₁] at hboth
        generalize hr : (visit s.erased d file
          { p.muted s.limits with queue := rest }).answer known = r at hboth
        cases hboth with
        | ok hquiet =>
          rcases ih (hv.left hms) (hv'.left hms') (hp.visit hs hd hq h₁) with
            ⟨p', visited, h, h', hdone, hquiet'⟩ | herror
          · refine .inl ⟨p', file :: visited, h, h', by simpa using hdone, ?_⟩
            have hsame : ({ p with queue := rest } : Progress).Quiet s.limits ↔ p.Quiet s.limits :=
              Iff.rfl
            rw [hquiet', hquiet, hsame, and_assoc, List.forall_mem_cons]
          · exact .inr herror

/-! ## Whole traces -/

theorem alike_explore (visits : Nat) (entries : List Path) :
    (∃ p visited, (explore s d visits entries).answer known = .ok p ∧
      (explore s.erased d visits entries).answer known = .ok (p.muted s.limits) ∧
      Explored s d known entries visited p ∧
      (p.Quiet s.limits ↔ ∀ file ∈ visited, Silent s d known file)) ∨
    ∃ e, (explore s d visits entries).answer known = .error e ∧
      ((explore s.erased d visits entries).answer known = .error e ∨
        ∃ file, Reached s d known entries file ∧ ¬ Silent s d known file) := by
  unfold explore
  have henter : entries.foldlM (enter s.erased d) Progress.start =
      entries.foldlM (enter s d) Progress.start := rfl
  rw [henter, Query.answer_bind, Query.answer_bind]
  rcases h₁ : (entries.foldlM (enter s d) Progress.start).answer known with e | p₁
  · exact .inr ⟨e, rfl, .inl rfl⟩
  · have hwarn : p₁.warnings = [] := (wordless_foldlM wordless_enter entries).warnings_eq h₁
    have hquiet : p₁.Quiet s.limits := fun w hw => by rw [hwarn] at hw; cases hw
    have hafter : Extends d known ((entries.foldlM (enter s d) Progress.start).after known) :=
      (steady_foldlM steady_enter entries Progress.start).left (extends_refl known)
    have hall := alike_visitAll hs hd visits hafter hafter (explored_start hs hd h₁)
    rw [Progress.muted_eq_iff.2 hquiet] at hall
    rcases hall with ⟨p, visited, h, h', hdone, hq⟩ | herror
    · exact .inl ⟨p, visited, h, h', by simpa using hdone, by simpa [hquiet] using hq⟩
    · exact .inr herror

omit hs hd in
/-- A trace that gives a result gives it without the warnings about ignored packages when these are left
out of the progress. -/
theorem conclude_muted {p : Progress} {result : Result} (h : conclude s d p = .ok result) :
    result.warnings = p.warnings ∧ conclude s d (p.muted s.limits) =
      .ok { result with warnings := result.warnings.filter fun w => !s.limits.concerns w } := by
  unfold conclude at h ⊢
  have hqueue : (p.muted s.limits).queue = p.queue := rfl
  rw [hqueue]
  split at h
  · cases h
  · split at h
    · cases h
    · rename_i hq hstrict
      cases h
      refine ⟨rfl, ?_⟩
      rw [if_neg hq, if_neg]
      · rfl
      · intro hno
        refine hstrict ?_
        simp only [Bool.and_eq_true, Bool.not_eq_true', List.isEmpty_eq_false_iff] at hno ⊢
        refine ⟨hno.1, fun he => hno.2 ?_⟩
        show p.warnings.filter _ = []
        rw [he]
        rfl

/-- A trace next to the trace of the same program without the references to ignored packages. If every
such reference of a reached file stands for a module of the runtime or a file of the workspace, both come to
the same end, an error or a result. A result that the trace gives is the other one's but for warnings about
references to ignored packages. And where the other trace gives a result, the trace gives the same one
exactly if there is no reference in a reached file to an ignored package that is missing, outside of the
workspace, or cannot be resolved for another fault. -/
theorem traceWithin_eq_erased_iff (entries : List Path) (visits : Nat) :
    ((∀ file, Reached s d known entries file → Silent s d known file) →
      (traceWithin s d visits entries).answer known =
        (traceWithin s.erased d visits entries).answer known) ∧
    (∀ result, (traceWithin s d visits entries).answer known = .ok result →
      (traceWithin s.erased d visits entries).answer known =
        .ok { result with warnings := result.warnings.filter fun w => !s.limits.concerns w }) ∧
    ∀ result, (traceWithin s.erased d visits entries).answer known = .ok result →
      ((traceWithin s d visits entries).answer known = .ok result ↔
        ∀ file, Reached s d known entries file → Silent s d known file) := by
  have hfull : (traceWithin s d visits entries).answer known =
      (explore s d visits entries).answer known >>= conclude s d := by
    unfold traceWithin
    rw [Query.answer_bind]
    rcases (explore s d visits entries).answer known with e | p
    · rfl
    · exact Query.answer_ofExcept _ _
  have herased : (traceWithin s.erased d visits entries).answer known =
      (explore s.erased d visits entries).answer known >>= conclude s d := by
    unfold traceWithin
    rw [Query.answer_bind]
    rcases (explore s.erased d visits entries).answer known with e | p
    · rfl
    · exact Query.answer_ofExcept _ _
  rw [hfull, herased]
  have hsame : (∀ file, Reached s d known entries file → Silent s d known file) →
      (explore s d visits entries).answer known >>= conclude s d =
        (explore s.erased d visits entries).answer known >>= conclude s d := by
    intro hsilent
    rcases alike_explore hs hd visits entries with
      ⟨p, visited, h, h', hdone, hq⟩ | ⟨e, h, h' | ⟨file, hfile, hno⟩⟩
    · have hvisited : ∀ file ∈ visited, Silent s d known file := fun file hf =>
        hsilent file (hdone.sound file (by rw [hdone.split]; exact List.mem_append_left _ hf))
      rw [h, h', Progress.muted_eq_iff.2 (hq.2 hvisited)]
    · rw [h, h']
    · exact absurd (hsilent file hfile) hno
  refine ⟨hsame, fun result hr => ?_, fun result hr => ⟨fun hr' => ?_, fun hsilent =>
    (hsame hsilent).trans hr⟩⟩
  · rcases alike_explore hs hd visits entries with ⟨p, visited, h, h', -, -⟩ | ⟨e, h, -⟩
    · rw [h] at hr
      rw [h']
      exact (conclude_muted hr).2
    · rw [h] at hr
      cases hr
  · rcases alike_explore hs hd visits entries with ⟨p, visited, h, h', hdone, hq⟩ | ⟨e, h, -⟩
    · rw [h] at hr'
      rw [h'] at hr
      change conclude s d p = .ok result at hr'
      change conclude s d (p.muted s.limits) = .ok result at hr
      have hwarn : p.warnings = result.warnings := (conclude_muted hr').1.symm
      have hmuted : (p.muted s.limits).warnings = result.warnings := (conclude_muted hr).1.symm
      have hquiet : p.Quiet s.limits := by
        intro w hw
        rw [hwarn, ← hmuted] at hw
        simpa using (List.mem_filter.1 hw).2
      exact fun file hfile =>
        hq.1 hquiet file ((hdone.mem_done (conclude_ok hr').1 file).2 hfile)
    · rw [h] at hr'
      cases hr'

end

/-! ### An ignored package that is not installed -/

/-- A main file that needs a package without having it. -/
def uninstalled : Disk where
  entries := [
    (["w"], .directory),
    (["w", "main.js"], .file (.text "require('aws');")),
    (["w", "package.json"], .file (.text "\x7b\"name\":\"app\"\x7d"))]
  here := ["w"]

def uninstalledSetting (strict : Bool) : Setting :=
  ⟨⟨⟨"/w"⟩, ⟨"/w"⟩, Resolver.standard.resolve⟩, ⟨[], ["aws"], [], strict⟩, readReferences⟩

theorem spelled_uninstalled : Disk.Spelled uninstalled.here := by
  intro n hn
  rw [List.mem_singleton.1 hn]
  exact ⟨by decide, by decide, by decide⟩

/-- The package is to be ignored, and yet the trace warns that it is missing, or fails for it if it is
strict. -/
theorem traceWithin_eq_erased_iff_uninstalled :
    (∃ result w, (trace (uninstalledSetting false) uninstalled [⟨"main.js"⟩]).answer .empty =
        .ok result ∧ result.warnings = [w] ∧
      (trace (uninstalledSetting false).erased uninstalled [⟨"main.js"⟩]).answer .empty =
        .ok { result with warnings := [] }) ∧
    ∃ result, (trace (uninstalledSetting true).erased uninstalled [⟨"main.js"⟩]).answer .empty =
        .ok result ∧
      (trace (uninstalledSetting true) uninstalled [⟨"main.js"⟩]).answer .empty ≠ .ok result ∧
      ∃ file, Reached (uninstalledSetting true) uninstalled .empty [⟨"main.js"⟩] file ∧
        ¬ Silent (uninstalledSetting true) uninstalled .empty file := by
  have hs : ∀ strict, Fixed uninstalled .empty (uninstalledSetting strict).project.resolver :=
    fun _ => Resolver.standard.fixed_resolve spelled_uninstalled
  let w : Warning := ⟨.unresolved, "main.js", some "aws", "could not be resolved"⟩
  constructor
  · have hwarn : ((trace (uninstalledSetting false) uninstalled [⟨"main.js"⟩]).answer
        .empty).toOption.map (·.warnings) = some [w] := by decide +kernel
    obtain ⟨result, hr, hw⟩ := exists_ok_of_toOption hwarn
    have herased := (traceWithin_eq_erased_iff (hs false) spelled_uninstalled _ _).2.1 result hr
    rw [hw] at herased
    exact ⟨result, w, hr, hw, herased⟩
  · have hnone : ((trace (uninstalledSetting true) uninstalled [⟨"main.js"⟩]).answer
        .empty).toOption.map (·.warnings) = none := by decide +kernel
    have hsome : ((trace (uninstalledSetting true).erased uninstalled [⟨"main.js"⟩]).answer
        .empty).toOption.map (·.warnings) = some [] := by decide +kernel
    obtain ⟨result, hr, -⟩ := exists_ok_of_toOption hsome
    have hne : (trace (uninstalledSetting true) uninstalled [⟨"main.js"⟩]).answer .empty ≠
        .ok result := fun h => by rw [h] at hnone; cases hnone
    have hiff := (traceWithin_eq_erased_iff (hs true) spelled_uninstalled _ _).2.2 result hr
    refine ⟨result, hr, hne, ?_⟩
    by_contra hall
    exact hne (hiff.2 fun file hf => by_contra fun hno => hall ⟨file, hf, hno⟩)

end Stowage.Trace
