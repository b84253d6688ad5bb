/-
What a trace warns of, and what strictness changes. The warnings are those of the visited files, one file
after another in the order of the visits, and what a single file warns of is told by its text and by what
its references resolve to. A strict trace makes the same visits; it only refuses a result with warnings.

Visits are followed with what they give, warnings and files to be visited, so that the order in which
files are seen is known along with the warnings.
-/
import Stowage.Proofs.Trace.Wordless
import Stowage.Proofs.Script.References

open Stowage.Path

namespace Stowage

instance : LawfulBEq Path where
  eq_of_beq := by
    rintro ⟨a⟩ ⟨b⟩ h
    exact congrArg Path.mk (eq_of_beq (show (a == b) = true from h))
  rfl := by
    rintro ⟨a⟩
    show (a == a) = true
    exact beq_self_eq_true a

namespace Trace

open Manifests

/-- Reading a script gives its computed references in the order of its syntax tree, and each specifier
once. -/
theorem readReferences_ok {d : Disk} {file : Path} {refs : Script.References}
    (h : readReferences d file = .ok refs) :
    ∃ text items, d.readText file = .ok text ∧ Script.Parser.parse text = some items ∧
      refs.computed = (Script.References.loadsOf items).filterMap Script.References.computed? ∧
      (refs.static.map Prod.fst).Nodup := by
  unfold readReferences at h
  split at h
  · cases h
  · rename_i text htext
    split at h
    · cases h
    · rename_i hrefs
      cases h
      obtain ⟨items, hitems, rfl⟩ := Option.map_eq_some_iff.1 hrefs
      exact ⟨text, items, htext, hitems, rfl, Script.References.nodup_dedupe _⟩

/-! ## What a file warns of, and where it leads -/

section
variable (s : Setting) (d : Disk) (known : Manifests)

/-- The module that a specifier names is missing. -/
def isUnresolved (file : Path) (specifier : String) : Bool :=
  match (s.project.resolve d file specifier).answer known with
  | .ok _ => false
  | .error e => e.isMissing

/-- The file that a specifier is followed to, if it leads to a file and is not left out. -/
def target? (file : Path) (specifier : String) : Option Path :=
  match (s.project.resolve d file specifier).answer known with
  | .ok (.file target) => match s.project.relative target with
    | .ok name => if isLeftOut s specifier name then none else some target
    | .error _ => none
  | _ => none

def unresolvedWarning (name specifier : String) : Warning :=
  ⟨.unresolved, name, some specifier, "could not be resolved"⟩

/-- What a script called `name` warns of: that it cannot be told what it refers to, or every computed
reference and then every specifier that is missing. -/
def scriptWarnings (file : Path) (name : String) : List Warning :=
  match s.analyze d file with
  | .error message => [⟨.parse, name, none, message⟩]
  | .ok refs => refs.computed.map (computedWarning name) ++
      ((refs.static.map Prod.fst).filter (isUnresolved s d known file)).map (unresolvedWarning name)

/-- What a visit of a file warns of. -/
def warningsOf (file : Path) : List Warning :=
  match s.project.relative file with
  | .ok name => if isScript file then scriptWarnings s d known file name else []
  | .error _ => []

/-- The files that a visit leads to, in the order of the references. -/
def targets (file : Path) : List Path :=
  if isScript file then
    match s.analyze d file with
    | .error _ => []
    | .ok refs => (refs.static.map Prod.fst).filterMap (target? s d known file)
  else []

/-- The entry files, without links. -/
def entryFiles (entries : List Path) : List Path :=
  entries.filterMap fun e => (d.canonicalize e).toOption

end

variable {s : Setting} {d : Disk} {known : Manifests} {p p' p'' : Progress}

/-! ## Steps and what they tell -/

/-- The progress from `p` to `p'` adds the warnings `W` and leads to the files `T`; of the files that were
led to so far, each is seen once, where it came first. -/
structure Tells (p p' : Progress) (W : List Warning) (T : List Path) : Prop where
  warnings : p'.warnings = p.warnings ++ W
  plain : ∀ t ∈ T, t.IsPlain
  seen : ∀ led : List Path, (∀ f ∈ led, f.IsPlain) → p.seen = led.eraseDups →
    p'.seen = (led ++ T).eraseDups

theorem tells_of_eq (hw : p'.warnings = p.warnings) (hs : p'.seen = p.seen) : Tells p p' [] [] := by
  refine ⟨?_, fun _ h => (nomatch h), fun led _ hled => ?_⟩
  · rw [hw, List.append_nil]
  · rw [hs, List.append_nil, hled]

theorem Tells.trans {W W' : List Warning} {T T' : List Path} (h : Tells p p' W T)
    (h' : Tells p' p'' W' T') : Tells p p'' (W ++ W') (T ++ T') := by
  refine ⟨?_, fun t ht => ?_, fun led hplain hled => ?_⟩
  · rw [h'.warnings, h.warnings, List.append_assoc]
  · exact (List.mem_append.1 ht).elim (h.plain t) (h'.plain t)
  · have hmid : ∀ f ∈ led ++ T, f.IsPlain := fun f hf =>
      (List.mem_append.1 hf).elim (hplain f) (h.plain f)
    rw [h'.seen (led ++ T) hmid (h.seen led hplain hled), List.append_assoc]

theorem tells_warn (p : Progress) (w : Warning) : Tells p (p.warn w) [w] [] :=
  ⟨rfl, fun _ h => (nomatch h), fun led _ hled => by rw [List.append_nil]; exact hled⟩

theorem tells_warnAll {α : Type} (f : α → Warning) (l : List α) (p : Progress) :
    Tells p (l.foldl (fun p a => p.warn (f a)) p) (l.map f) [] := by
  induction l generalizing p with
  | nil => exact tells_of_eq rfl rfl
  | cons a l ih => exact (tells_warn p (f a)).trans (ih (p.warn (f a)))

theorem tells_reach {file : Path} (hf : file.IsPlain) (p : Progress) :
    Tells p (p.reach file) [] [file] := by
  refine ⟨?_, fun t ht => List.mem_singleton.1 ht ▸ hf, fun led hplain hled => ?_⟩
  · unfold Progress.reach
    split <;> exact (List.append_nil _).symm
  · -- plain files that are the same are equal
    have hany : p.seen.any (·.same file) = true ↔ file ∈ led := by
      rw [hled, List.any_eq_true]
      constructor
      · rintro ⟨x, hx, hsame⟩
        have hx := List.mem_eraseDups.1 hx
        exact eq_of_same_of_isPlain (hplain x hx) hf hsame ▸ hx
      · exact fun hmem => ⟨file, List.mem_eraseDups.2 hmem, same_refl file⟩
    rw [List.eraseDups_append]
    unfold Progress.reach
    split
    · rename_i hold
      simp [List.removeAll, hany.1 hold, hled]
    · rename_i hnew
      have hnot : file ∉ led := fun hmem => hnew (hany.2 hmem)
      simp [List.removeAll, hnot, hled, List.eraseDups_cons]

/-- A wordless step that reaches no file tells nothing. -/
theorem tells_quietly {step : Progress → Query Progress} (hw : Wordless step) {parent : Option String}
    {C : Path → ReasonKind → Prop} (hg : Grows s parent p p' C NoFile)
    (h : (step p).answer known = .ok p') : Tells p p' [] [] := by
  obtain ⟨new, hseen, -, hnew⟩ := hg.reached
  have hnil : new = [] := List.eq_nil_iff_forall_not_mem.2 hnew
  refine tells_of_eq (hw.warnings_eq h) ?_
  rw [hseen, hnil, List.append_nil]

theorem tells_foldlM {α : Type} {f : Progress → α → Query Progress} {W : α → List Warning}
    {T : α → List Path} (hf : ∀ p a, Steady d known (f p a))
    (h : ∀ {p p' a}, (f p a).answer known = .ok p' → Tells p p' (W a) (T a)) {l : List α}
    (hp : (l.foldlM f p).answer known = .ok p') : Tells p p' (l.flatMap W) (l.flatMap T) := by
  induction l generalizing p with
  | nil =>
    cases hp
    exact tells_of_eq rfl rfl
  | cons a l ih =>
    rw [List.foldlM_cons] at hp
    obtain ⟨p₁, h₁, hp⟩ := steady_bind_ok (hf p a) (steady_foldlM hf l) hp
    rw [List.flatMap_cons, List.flatMap_cons]
    exact (h h₁).trans (ih hp)

/-! ## Visits -/

section
variable (hs : Fixed d known s.project.resolver) (hd : Disk.Spelled d.here)
include hs hd

theorem tells_follow {file : Path} {name : String} {r : String × ReferenceKind}
    (h : (follow s d file name p r).answer known = .ok p') :
    Tells p p' (if isUnresolved s d known file r.1 then [unresolvedWarning name r.1] else [])
      (target? s d known file r.1).toList := by
  have hplain : ∀ target, (s.project.resolve d file r.1).answer known = .ok (.file target) →
      target.IsPlain := fun target ht => (Project.settled_resolve hs file r.1).holds ht
  rw [answer_follow hs hd] at h
  unfold isUnresolved target?
  rcases hres : (s.project.resolve d file r.1).answer known with e | ⟨_ | target⟩
  · rw [hres] at h
    unfold followTo at h
    dsimp only at h ⊢
    split at h
    · rename_i hmissing
      cases h
      rw [if_pos hmissing]
      exact tells_warn p _
    · cases h
  · rw [hres] at h
    cases h
    exact tells_of_eq rfl rfl
  · rw [hres] at h
    have hround : ∀ p, Steady d known (addAround s d file r.1 target name p) := fun p =>
      steady_addAround s known hd file r.1 (hplain target hres) name p
    obtain ⟨n, hn, h⟩ := steady_bind_ok (d := d) (steady_ofExcept _) (fun n => by
      split
      · exact agree_pure rfl
      · exact steady_bind (hround p) fun _ => agree_pure rfl) h
    rw [Query.answer_ofExcept] at hn
    dsimp only
    rw [hn]
    dsimp only
    split at h
    · rename_i hout
      cases h
      rw [if_pos hout]
      exact tells_of_eq rfl rfl
    · rename_i hin
      obtain ⟨p₁, h₁, h⟩ := steady_bind_ok (hround p) (fun _ => agree_pure rfl) h
      cases h
      have haround : Tells p p₁ [] [] := tells_quietly (wordless_addAround file r.1 target name)
        (grows_addAround hd (hplain target hres) h₁) h₁
      have hadd : Tells p₁ (p₁.add n (.reference r.2) (some name)) [] [] := tells_of_eq rfl rfl
      rw [if_neg hin]
      exact (haround.trans hadd).trans (tells_reach (hplain target hres) _)

theorem tells_followAll {file : Path} {name : String}
    (h : (followAll s d file name p).answer known = .ok p') :
    Tells p p' (if isScript file then scriptWarnings s d known file name else [])
      (targets s d known file) := by
  unfold targets scriptWarnings
  unfold followAll at h
  split at h
  · rename_i hscript
    rw [if_pos hscript, if_pos hscript]
    rcases hrefs : s.analyze d file with message | refs
    · rw [hrefs] at h
      cases h
      exact tells_warn p _
    · rw [hrefs] at h
      have hfollow := tells_foldlM (steady_follow hs hd file name) (tells_follow hs hd) h
      have hall := (tells_warnAll (computedWarning name) refs.computed p).trans hfollow
      have hwarn : ((refs.static.map Prod.fst).filter (isUnresolved s d known file)).map
          (unresolvedWarning name) = refs.static.flatMap fun r =>
            if isUnresolved s d known file r.1 then [unresolvedWarning name r.1] else [] := by
        induction refs.static with
        | nil => rfl
        | cons r l ih => by_cases hr : isUnresolved s d known file r.1 <;> simp [hr, ih]
      dsimp only
      rw [hwarn, List.filterMap_map, List.filterMap_eq_flatMap_toList]
      exact hall
  · rename_i hscript
    cases h
    rw [if_neg hscript, if_neg hscript]
    exact tells_of_eq rfl rfl

/-- A visit adds the warnings of the file and leads where its references do. -/
theorem tells_visit {file : Path} (hf : file.IsPlain) (h : (visit s d file p).answer known = .ok p') :
    Tells p p' (warningsOf s d known file) (targets s d known file) := by
  have habove : ∀ name, Steady d known (addManifests s d name file.ancestors.tail p) := fun name =>
    steady_addManifests s d known name (plain_above hf) p
  obtain ⟨name, hname, h⟩ := steady_bind_ok (steady_ofExcept _) (fun name =>
    steady_bind (habove name) fun p => steady_followAll hs hd file name p) h
  rw [Query.answer_ofExcept] at hname
  obtain ⟨p₁, h₁, h⟩ := steady_bind_ok (habove name) (fun p => steady_followAll hs hd file name p) h
  unfold warningsOf
  rw [hname]
  exact (tells_quietly (wordless_addManifests name file.ancestors.tail)
    (grows_addManifests (plain_above hf) h₁) h₁).trans (tells_followAll hs hd h)

/-! ## The warnings of a trace -/

omit hs in
theorem tells_enter {e : Path} (h : (enter s d p e).answer known = .ok p') :
    Tells p p' [] (d.canonicalize e).toOption.toList := by
  obtain ⟨file, n, hfile, -, rfl⟩ := enter_ok h
  have hadd : Tells p (p.add n .entry none) [] [] := tells_of_eq rfl rfl
  rw [hfile]
  exact hadd.trans (tells_reach (d.isPlain_of_canonicalize hd hfile) _)

/-- The files that were visited have given their warnings, one after another, and the files seen are the
entries and where the visits led, each where it came first. -/
theorem explore_tells {entries : List Path} {visits : Nat}
    (h : (explore s d visits entries).answer known = .ok p) :
    ∃ visited, Explored s d known entries visited p ∧
      p.warnings = visited.flatMap (warningsOf s d known) ∧
      p.seen = (entryFiles d entries ++ visited.flatMap (targets s d known)).eraseDups := by
  have hstart : ∀ {p}, (entries.foldlM (enter s d) Progress.start).answer known = .ok p →
      Tells Progress.start p ([].flatMap (warningsOf s d known))
        (entryFiles d entries ++ [].flatMap (targets s d known)) := by
    intro p hp
    have ht := tells_foldlM (W := fun _ => []) (T := fun e => (d.canonicalize e).toOption.toList)
      steady_enter (tells_enter hd) hp
    rw [← List.filterMap_eq_flatMap_toList, List.flatMap_eq_nil_iff.2 fun _ _ => rfl] at ht
    simpa [entryFiles] using ht
  obtain ⟨-, visited, hvisited, htells, -⟩ := explore_induct
    (J := fun done p => Tells Progress.start p (done.flatMap (warningsOf s d known))
      (entryFiles d entries ++ done.flatMap (targets s d known))) hs hd hstart
    (fun {done p p' file rest} hp hj hq hv => by
      have hfile : Tells p p' (warningsOf s d known file) (targets s d known file) := by
        have := tells_visit hs hd (hp.isPlain hs hd hq) hv
        exact ⟨this.warnings, this.plain, this.seen⟩
      have := hj.trans hfile
      simpa [List.append_assoc] using this) h
  refine ⟨visited, hvisited, ?_, ?_⟩
  · exact htells.warnings.trans (List.nil_append _)
  · exact htells.seen [] (fun _ h => nomatch h) rfl

end

/-! ## Errors

A strict trace fails with its warnings at the very end, and nothing before that fails so. -/

/-- The question never fails the way that a strict trace with warnings does. -/
abbrev Definite {α : Type} (q : Query α) : Prop :=
  Fails (fun e : Error => ∀ misses, e ≠ .traceIncomplete misses) q

theorem definite_ofDisk {α : Type} (r : Except FileFault α) : Definite (Query.ofDisk r) := by
  rcases r with e | a
  · exact fails_throw fun _ h => nomatch h
  · exact fails_pure a

theorem definite_relative (project : Project) (path : Path) :
    Definite (Query.ofExcept (project.relative path)) := by
  unfold Project.relative nameBelow
  split
  · exact fails_pure _
  · exact fails_throw fun _ h => nomatch h

theorem definite_load (d : Disk) (dir : Path) : Definite (load d dir) := by
  refine fails_load fun e h => ?_
  unfold readAt at h
  dsimp only at h
  split at h
  · split at h
    · unfold Manifest.parse at h
      split at h
      · cases h
      · cases h
        exact fun _ h => nomatch h
    · cases h
      exact fun _ h => nomatch h
  · cases h

section
variable (s : Setting) (d : Disk)

theorem definite_addFound (dir : Path) (parent : String) (m : Option Manifest) (p : Progress) :
    Definite (addFound s dir parent m p) := by
  unfold addFound
  split
  · exact fails_bind (definite_relative _ _) fun _ => fails_pure _
  · exact fails_pure _

theorem definite_addManifests (parent : String) (dirs : List Path) (p : Progress) :
    Definite (addManifests s d parent dirs p) := by
  induction dirs generalizing p with
  | nil => exact fails_pure p
  | cons dir rest ih =>
    unfold addManifests
    split
    · refine fails_bind (definite_load d dir) fun m =>
        fails_bind (definite_addFound s dir parent m p) fun p => ?_
      split
      · exact fails_pure p
      · exact ih p
    · exact fails_pure p

theorem definite_addAround (file : Path) (specifier : String) (target : Path) (parent : String)
    (p : Progress) : Definite (addAround s d file specifier target parent p) := by
  refine fails_bind ?_ fun p => ?_
  · unfold addNamedManifest
    split
    · exact fails_pure p
    · split
      · exact fails_bind (definite_ofDisk _) fun dir => fails_bind (definite_load d dir) fun m =>
          definite_addFound s dir parent m p
      · exact fails_pure p
  · split
    · refine fails_bind (fails_bind (Package.fails_rootDirectory d _ target) fun r => ?_) fun p => ?_
      · split
        · exact fails_bind (definite_relative _ _) fun _ => fails_pure _
        · exact fails_pure p
      · unfold addInstalled
        split
        · split
          · exact fails_bind (definite_relative _ _) fun _ => fails_pure _
          · exact fails_pure p
        · exact fails_pure p
    · exact fails_pure p

variable (hr : ∀ base specifier, Definite (s.project.resolver d base specifier))
include hr

theorem definite_follow (file : Path) (parent : String) (p : Progress)
    (r : String × ReferenceKind) : Definite (follow s d file parent p r) := by
  have hresolve : Definite (s.project.resolve d file r.1) := by
    refine fails_tryCatch (hr file r.1) fun e he => fails_throw ?_
    split
    · exact fun _ h => nomatch h
    · exact he
  have hto : ∀ r', (∀ e, r' = .error e → ∀ misses, e ≠ .traceIncomplete misses) →
      Definite (followTo s d file parent p r.1 r.2 r') := by
    intro r' hr'
    rcases r' with e | ⟨_ | target⟩
    · unfold followTo
      dsimp only
      split
      · exact fails_pure _
      · exact fails_throw (hr' e rfl)
    · exact fails_pure p
    · refine fails_bind (definite_relative _ _) fun name => ?_
      split
      · exact fails_pure p
      · exact fails_bind (definite_addAround s d file r.1 target parent p) fun _ => fails_pure _
  intro ms e h
  change (follow s d file parent p r).answer ms = _ at h
  unfold follow at h
  rw [Query.answer_bind, Query.answer_outcome] at h
  exact hto _ (fun e he => hresolve ms e he) _ e h

theorem definite_visit (file : Path) (p : Progress) : Definite (visit s d file p) := by
  refine fails_bind (definite_relative _ _) fun name =>
    fails_bind (definite_addManifests s d name _ p) fun p => ?_
  unfold followAll
  split
  · split
    · exact fails_pure _
    · exact fails_foldlM (definite_follow s d hr file name) _ _
  · exact fails_pure p

theorem definite_explore (visits : Nat) (entries : List Path) :
    Definite (explore s d visits entries) := by
  have hvisits : ∀ visits p, Definite (visitAll s d visits p) := by
    intro visits
    induction visits with
    | zero => exact fails_pure
    | succ n ih =>
      intro p
      unfold visitAll
      split
      · exact fails_pure p
      · exact fails_bind (definite_visit s d hr _ _) ih
  refine fails_bind (fails_foldlM (fun p e => ?_) entries _) (hvisits visits)
  exact fails_bind (definite_ofDisk _) fun _ =>
    fails_bind (definite_relative _ _) fun _ => fails_pure _

end

/-- Looking for modules on the disk never fails so. -/
theorem definite_resolve (r : Resolver) (d : Disk) (base : Path) (specifier : String) :
    Definite (r.resolve d base specifier) :=
  r.fails_resolve (definite_load d) (fun _ _ _ h => nomatch h) base specifier

/-! ## Strict traces -/

/-- The same setting, but strict or not. -/
def Setting.strictly (s : Setting) (strict : Bool) : Setting :=
  { s with limits := { s.limits with strict } }

/-- What a strict trace makes of a result. -/
def verdict (result : Result) : Except Error Result :=
  if result.warnings = [] then .ok result
  else .error (.traceIncomplete (result.warnings.map Warning.text))

theorem explore_strictly (strict : Bool) (visits : Nat) (entries : List Path) :
    explore (s.strictly strict) d visits entries = explore s d visits entries := by
  have hvisit : ∀ file p, visit (s.strictly strict) d file p = visit s d file p := by
    intro file p
    have habove : ∀ name, addManifests (s.strictly strict) d name file.ancestors.tail p =
        addManifests s d name file.ancestors.tail p := fun name =>
      addManifests_congr s (s.strictly strict) rfl name _ p
    unfold visit
    simp only [habove]
    rfl
  have hvisits : ∀ p, visitAll (s.strictly strict) d visits p = visitAll s d visits p := by
    induction visits with
    | zero => exact fun _ => rfl
    | succ n ih =>
      intro p
      unfold visitAll
      split
      · rfl
      · rw [hvisit]
        exact bind_congr fun p => ih p
  exact bind_congr fun p => hvisits p

theorem conclude_strictly (p : Progress) :
    conclude (s.strictly true) d p = conclude (s.strictly false) d p >>= verdict := by
  unfold conclude
  split
  · rfl
  · show _ = verdict _
    unfold verdict
    rcases hw : p.warnings with _ | ⟨w, rest⟩
    · rfl
    · rfl

/-- A strict trace does what the other one does, and then judges the result. -/
theorem traceWithin_strictly (visits : Nat) (entries : List Path) (ms : Manifests) :
    (traceWithin (s.strictly true) d visits entries).answer ms =
      (traceWithin (s.strictly false) d visits entries).answer ms >>= verdict := by
  unfold traceWithin
  rw [explore_strictly, explore_strictly, Query.answer_bind, Query.answer_bind]
  rcases (explore s d visits entries).answer ms with e | p
  · rfl
  · dsimp only
    rw [Query.answer_ofExcept, Query.answer_ofExcept]
    exact conclude_strictly p

/-- Without strictness no trace fails with its warnings. -/
theorem traceWithin_lax (hr : ∀ base specifier, Definite (s.project.resolver d base specifier))
    (visits : Nat) (entries : List Path) (misses : List String) :
    (traceWithin (s.strictly false) d visits entries).answer known ≠ .error (.traceIncomplete misses) := by
  intro h
  unfold traceWithin at h
  rw [explore_strictly, Query.answer_bind] at h
  rcases hp : (explore s d visits entries).answer known with e | p
  · rw [hp] at h
    cases h
    exact definite_explore s d hr visits entries known _ hp misses rfl
  · rw [hp] at h
    have hend : conclude (s.strictly false) d p = .error (.traceIncomplete misses) :=
      (Query.answer_ofExcept _ _).symm.trans h
    unfold conclude at hend
    split at hend <;> cases hend

/-- A result that is judged is kept if there are no warnings, and else they are the failure. -/
theorem bind_verdict {r : Except Error Result} (hlax : ∀ misses, r ≠ .error (.traceIncomplete misses)) :
    (∀ result, r >>= verdict = .ok result ↔ r = .ok result ∧ result.warnings = []) ∧
    (∀ misses, r >>= verdict = .error (.traceIncomplete misses) ↔ ∃ result, r = .ok result ∧
      result.warnings ≠ [] ∧ misses = result.warnings.map Warning.text) ∧
    ∀ e, (∀ misses, e ≠ .traceIncomplete misses) → (r >>= verdict = .error e ↔ r = .error e) := by
  rcases r with e | result
  · refine ⟨fun _ => ⟨nofun, nofun⟩, fun misses => ⟨fun h => ?_, nofun⟩, fun _ _ => Iff.rfl⟩
    exact absurd h (hlax misses)
  · show (∀ _, verdict result = _ ↔ _) ∧ (∀ _, verdict result = _ ↔ _) ∧ ∀ _, _ → (verdict result = _ ↔ _)
    unfold verdict
    split
    · rename_i hnone
      refine ⟨fun _ => ⟨?_, And.left⟩, fun misses => ⟨nofun, ?_⟩, fun _ _ => Iff.rfl⟩
      · rintro ⟨⟩
        exact ⟨rfl, hnone⟩
      · rintro ⟨_, ⟨⟩, hsome, -⟩
        exact absurd hnone hsome
    · rename_i hsome
      refine ⟨fun _ => ⟨nofun, ?_⟩, fun misses => ⟨?_, ?_⟩, fun e he => ⟨?_, nofun⟩⟩
      · rintro ⟨⟨⟩, hnone⟩
        exact absurd hnone hsome
      · rintro ⟨⟩
        exact ⟨result, rfl, hsome, rfl⟩
      · rintro ⟨_, ⟨⟩, -, rfl⟩
        rfl
      · rintro ⟨⟩
        exact absurd rfl (he _)

/-- The warnings of a trace and what strictness makes of them. For every resolver that is a fixed function
and every analysis of files:
the warnings of a result are those of the visited files, one file after another; the files were visited in
the order in which they came first, as an entry or by a reference in a visited file, and each that is
reached was visited once;
an analysis that reads the files gives the computed references of a script in the order of its syntax tree
and each specifier once;
a strict trace gives a result exactly if the other trace gives the same result without warnings, fails with
the texts of the warnings exactly if the other trace gives a result with these warnings, and fails with
any other error exactly if the other trace does. -/
theorem traceWithin_warnings (hs : Fixed d known s.project.resolver) (hd : Disk.Spelled d.here)
    (hr : ∀ base specifier, Definite (s.project.resolver d base specifier)) (visits : Nat)
    (entries : List Path) :
    (∀ result, (traceWithin s d visits entries).answer known = .ok result →
      ∃ visited, visited.Nodup ∧ (∀ file, file ∈ visited ↔ Reached s d known entries file) ∧
        visited = (entryFiles d entries ++ visited.flatMap (targets s d known)).eraseDups ∧
        result.warnings = visited.flatMap (warningsOf s d known)) ∧
    (∀ file refs, readReferences d file = .ok refs → ∃ text items, d.readText file = .ok text ∧
      Script.Parser.parse text = some items ∧
      refs.computed = (Script.References.loadsOf items).filterMap Script.References.computed? ∧
      (refs.static.map Prod.fst).Nodup) ∧
    (∀ result, (traceWithin (s.strictly true) d visits entries).answer known = .ok result ↔
      (traceWithin (s.strictly false) d visits entries).answer known = .ok result ∧
        result.warnings = []) ∧
    (∀ misses, (traceWithin (s.strictly true) d visits entries).answer known =
        .error (.traceIncomplete misses) ↔
      ∃ result, (traceWithin (s.strictly false) d visits entries).answer known = .ok result ∧
        result.warnings ≠ [] ∧ misses = result.warnings.map Warning.text) ∧
    ∀ e, (∀ misses, e ≠ .traceIncomplete misses) →
      ((traceWithin (s.strictly true) d visits entries).answer known = .error e ↔
        (traceWithin (s.strictly false) d visits entries).answer known = .error e) := by
  refine ⟨fun result h => ?_, fun _ _ => readReferences_ok, ?_⟩
  · obtain ⟨p, hp, hend⟩ := traceWithin_ok h
    obtain ⟨visited, hvisited, hwarn, hseen⟩ := explore_tells hs hd hp
    have hsplit : p.seen = visited := by
      rw [hvisited.split, (conclude_ok hend).1, List.append_nil]
    refine ⟨visited, hsplit ▸ hvisited.nodup, hvisited.mem_done (conclude_ok hend).1, ?_, ?_⟩
    · rw [← hseen, hsplit]
    · obtain ⟨-, -, -, -, hkept⟩ := conclude_ok hend
      rw [← hwarn, hkept]
  · rw [traceWithin_strictly]
    exact bind_verdict (traceWithin_lax hr visits entries)

/-! ### A trace with warnings -/

/-- A main file with a computed reference and one to a missing module, and a file that is no script. -/
def unfinished : Disk where
  entries := [
    (["w"], .directory),
    (["w", "broken.js"], .file (.text "var = 1;")),
    (["w", "main.js"], .file (.text "require('x');\nrequire('./broken');\nrequire(name);\nrequire('x');")),
    (["w", "package.json"], .file (.text "\x7b\"name\":\"app\"\x7d"))]
  here := ["w"]

def unfinishedSetting : Setting :=
  ⟨⟨⟨"/w"⟩, ⟨"/w"⟩, Resolver.standard.resolve⟩, ⟨[], [], [], false⟩, readReferences⟩

theorem spelled_unfinished : Disk.Spelled unfinished.here := by
  intro n hn
  rw [List.mem_singleton.1 hn]
  exact ⟨by decide, by decide, by decide⟩

theorem traceWithin_warnings_unfinished : ∃ result,
    (traceWithin unfinishedSetting unfinished 5 [⟨"main.js"⟩]).answer .empty = .ok result ∧
    result.warnings.map Warning.text = [
      "main.js: computed Require on line 3 cannot be traced",
      "main.js: 'x' could not be resolved",
      "broken.js: <parse error>"] ∧
    (∃ visited : List Path, visited.Nodup ∧
      result.warnings = visited.flatMap (warningsOf unfinishedSetting unfinished .empty)) ∧
    (traceWithin (unfinishedSetting.strictly true) unfinished 5 [⟨"main.js"⟩]).answer .empty =
      .error (.traceIncomplete (result.warnings.map Warning.text)) := by
  have hs : Fixed unfinished .empty unfinishedSetting.project.resolver :=
    Resolver.standard.fixed_resolve spelled_unfinished
  have hr : ∀ base specifier, Definite (unfinishedSetting.project.resolver unfinished base specifier) :=
    definite_resolve Resolver.standard unfinished
  obtain ⟨hwarn, -, -, hincomplete, -⟩ :=
    traceWithin_warnings hs spelled_unfinished hr 5 [⟨"main.js"⟩]
  have hrun : ((traceWithin unfinishedSetting unfinished 5 [⟨"main.js"⟩]).answer .empty).toOption.map
      (·.warnings.map Warning.text) = some [
        "main.js: computed Require on line 3 cannot be traced",
        "main.js: 'x' could not be resolved",
        "broken.js: <parse error>"] := by decide +kernel
  obtain ⟨result, hresult, htexts⟩ := exists_ok_of_toOption hrun
  obtain ⟨visited, hnodup, -, -, hvisited⟩ := hwarn result hresult
  refine ⟨result, hresult, htexts, ⟨visited, hnodup, hvisited⟩, (hincomplete _).2
    ⟨result, hresult, fun hnone => ?_, rfl⟩⟩
  rw [hnone] at htexts
  cases htexts

/-! ### Calls out of order -/

/-- A loop whose condition stands behind its body and is visited before it. -/
def looping : Disk where
  entries := [
    (["w"], .directory),
    (["w", "main.js"], .file (.text "do \x7b\n  require(a);\n\x7d while (require(b));")),
    (["w", "package.json"], .file (.text "\x7b\"name\":\"app\"\x7d"))]
  here := ["w"]

/-- The warnings on computed references come in the order of the visits, with the later line first. -/
theorem traceWithin_warnings_looping : ∃ result refs,
    (traceWithin unfinishedSetting looping 3 [⟨"main.js"⟩]).answer .empty = .ok result ∧
    readReferences looping ⟨"/w/main.js"⟩ = .ok refs ∧ refs.computed.map Prod.snd = [3, 2] ∧
    result.warnings.map Warning.text = [
      "main.js: computed Require on line 3 cannot be traced",
      "main.js: computed Require on line 2 cannot be traced"] := by
  have hrun : ((traceWithin unfinishedSetting looping 3 [⟨"main.js"⟩]).answer .empty).toOption.map
      (·.warnings.map Warning.text) = some [
        "main.js: computed Require on line 3 cannot be traced",
        "main.js: computed Require on line 2 cannot be traced"] := by decide +kernel
  have hread : (readReferences looping ⟨"/w/main.js"⟩).toOption.map (·.computed.map Prod.snd) = some [3, 2] := by
    decide +kernel
  obtain ⟨result, hresult, htexts⟩ := exists_ok_of_toOption hrun
  obtain ⟨refs, hrefs, hlines⟩ := exists_ok_of_toOption hread
  exact ⟨result, refs, hresult, hrefs, hlines, htexts⟩

end Trace
end Stowage
