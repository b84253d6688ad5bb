/-
A trace that comes to its end has found exactly what its entry files need: the files that are reached are
the least set that holds the entries and is closed under following references, and the reasons name
these files and what they contribute, each with the files that contribute it. The traversal comes to
its end whenever the resolver leads to finitely many files.

The invariant is the split of the files seen into those visited, whose references lead to files seen and
whose contributions stand in the reasons, and those in the queue.
-/
import Stowage.Proofs.Trace.Visit

open Stowage.Path

namespace Stowage.Trace

open Manifests

variable (s : Setting) (d : Disk) (known : Manifests) (entries : List Path)

/-! ## What is needed -/

/-- The least set of files that holds the entries and is closed under following references. -/
inductive Reached : Path → Prop
  | entry {e file : Path} (he : e ∈ entries) (real : d.canonicalize e = .ok file) : Reached file
  | follow {file target : Path} {specifier : String} {kind : ReferenceKind} (h : Reached file)
      (hf : Follows s d known file specifier kind target) : Reached target

/-- The name is the one of an entry. -/
def IsEntryName (n : String) : Prop :=
  ∃ e ∈ entries, ∃ file, d.canonicalize e = .ok file ∧ s.project.relative file = .ok n

/-- The file contributes a path called `n`. -/
def Names (file : Path) (kind : ReasonKind) (n : String) : Prop :=
  ∃ path, Contributes s d known file path kind ∧ s.project.relative path = .ok n

/-- The result of a trace holds exactly what the entries need. -/
structure Exact (result : Result) : Prop where
  /-- The reasons name the reached files and what they contribute. -/
  keys : ∀ n, n ∈ result.reasons.map Prod.fst ↔
    ∃ file, Reached s d known entries file ∧
      (s.project.relative file = .ok n ∨ ∃ kind, Names s d known file kind n)
  nodup : (result.reasons.map Prod.fst).Nodup
  /-- Every entry is a file, and whatever is reached or contributed has a name in the workspace. -/
  real : ∀ e ∈ entries, ∃ file, d.canonicalize e = .ok file
  named : ∀ file, Reached s d known entries file → (∃ n, s.project.relative file = .ok n) ∧
    ∀ path kind, Contributes s d known file path kind → ∃ n, s.project.relative path = .ok n
  /-- The parents of a name are the files that contribute it. -/
  parents : ∀ n r, (n, r) ∈ result.reasons → r.parents.Nodup ∧ ∀ q, q ∈ r.parents ↔
    ∃ file kind, Reached s d known entries file ∧ s.project.relative file = .ok q ∧
      Names s d known file kind n
  /-- The kind of a name tells the entries, and is one that it is contributed with otherwise. -/
  entry : ∀ n r, (n, r) ∈ result.reasons → (r.kind = .entry ↔ IsEntryName s d entries n)
  kind : ∀ n r, (n, r) ∈ result.reasons → r.kind ≠ .entry →
    ∃ file, Reached s d known entries file ∧ Names s d known file r.kind n
  files : ∀ n, n ∈ result.files ↔ ∃ r, (n, r) ∈ result.reasons ∧ ¬ IsEntryName s d entries n ∧
    r.kind ≠ .link ∧ ∀ dir ∈ generatedDirs s d, (s.project.root / n).startsWith dir = false
  links : ∀ n, n ∈ result.links ↔ ∃ r, (n, r) ∈ result.reasons ∧ r.kind = .link

/-! ## The invariant -/

/-- The progress after the files in `done` were visited. -/
structure Explored (done : List Path) (p : Progress) : Prop where
  split : p.seen = done ++ p.queue
  nodup : p.seen.Nodup
  sound : ∀ file ∈ p.seen, Reached s d known entries file
  entered : ∀ e ∈ entries, ∃ file ∈ p.seen, d.canonicalize e = .ok file
  closed : ∀ file ∈ done, ∀ specifier kind target,
    Follows s d known file specifier kind target → target ∈ p.seen
  entryNames : ∀ e ∈ entries, ∀ file, d.canonicalize e = .ok file →
    ∃ n, s.project.relative file = .ok n
  named : ∀ file ∈ done, (∃ n, s.project.relative file = .ok n) ∧
    ∀ path kind, Contributes s d known file path kind → ∃ n, s.project.relative path = .ok n
  log : ∃ first later : Log, p.reasons = Reasons.addAll [] (first ++ later) ∧
    (∀ n k q, (n, k, q) ∈ first ↔ q = none ∧ k = .entry ∧ IsEntryName s d entries n) ∧
    ∀ n k q, (n, k, q) ∈ later ↔ ∃ file ∈ done, ∃ m, s.project.relative file = .ok m ∧
      q = some m ∧ Names s d known file k n

variable {s d known entries}

theorem Reached.isPlain (hs : Fixed d known s.project.resolver) (hd : Disk.Spelled d.here)
    {file : Path} (h : Reached s d known entries file) : file.IsPlain := by
  cases h with
  | entry _ hreal => exact d.isPlain_of_canonicalize hd hreal
  | follow _ hf => exact (Project.settled_resolve hs _ _).holds hf.leads.resolved

/-! ## Entries -/

theorem steady_enter (p : Progress) (e : Path) : Steady d known (enter s d p e) :=
  steady_bind (steady_ofDisk _) fun _ => steady_bind (steady_ofExcept _) fun _ => agree_pure rfl

theorem enter_ok {p p' : Progress} {e : Path} (h : (enter s d p e).answer known = .ok p') :
    ∃ file n, d.canonicalize e = .ok file ∧ s.project.relative file = .ok n ∧
      p' = (p.add n .entry none).reach file := by
  obtain ⟨file, hfile, h⟩ := steady_bind_ok (d := d) (steady_ofDisk _)
    (fun _ => steady_bind (steady_ofExcept _) fun _ => agree_pure rfl) h
  obtain ⟨n, hn, h⟩ := steady_bind_ok (d := d) (steady_ofExcept _) (fun _ => agree_pure rfl) h
  rw [Query.answer_ofDisk] at hfile
  rw [Query.answer_ofExcept] at hn
  rcases hc : d.canonicalize e with fault | file'
  · rw [hc] at hfile; cases hfile
  · rw [hc] at hfile
    cases hfile
    cases h
    exact ⟨file, n, rfl, hn, rfl⟩

theorem grows_enter {p p' : Progress} {e : Path} (h : (enter s d p e).answer known = .ok p') :
    Grows s none p p' (fun x k => d.canonicalize e = .ok x ∧ k = .entry)
      (fun t => d.canonicalize e = .ok t) := by
  obtain ⟨file, n, hfile, hn, rfl⟩ := enter_ok h
  refine ((grows_add hn .entry p).trans (grows_reach file _)).congr (fun x k => ?_) fun t => ?_
  · rw [hfile]
    simp [eq_comm]
  · rw [hfile]
    simp [eq_comm]

theorem entries_real {l : List Path} {p p' : Progress}
    (h : (l.foldlM (enter s d) p).answer known = .ok p') :
    ∀ e ∈ l, ∃ file, d.canonicalize e = .ok file := by
  induction l generalizing p with
  | nil => exact fun _ h => nomatch h
  | cons e l ih =>
    rw [List.foldlM_cons] at h
    obtain ⟨p₁, h₁, h⟩ := steady_bind_ok (steady_enter p e) (steady_foldlM steady_enter l) h
    obtain ⟨file, -, hfile, -⟩ := enter_ok h₁
    intro x hx
    rcases List.mem_cons.1 hx with rfl | hx
    · exact ⟨file, hfile⟩
    · exact ih h x hx

theorem explored_start (hs : Fixed d known s.project.resolver) (hd : Disk.Spelled d.here)
    {p : Progress} (h : (entries.foldlM (enter s d) Progress.start).answer known = .ok p) :
    Explored s d known entries [] p := by
  have hg := grows_foldlM steady_enter (fun e _ p p' h => grows_enter h) h
  obtain ⟨log, hlog, hmem⟩ := hg.reasons
  obtain ⟨new, hseen, hqueue, hnew⟩ := hg.reached
  have hsound : ∀ file ∈ p.seen, Reached s d known entries file := by
    rw [hseen]
    intro file hf
    obtain ⟨e, he, hreal⟩ := hnew file (by simpa [Progress.start] using hf)
    exact .entry he hreal
  refine ⟨?_, hg.nodup List.nodup_nil, hsound, fun e he => ?_, fun _ h => (nomatch h),
    fun e he file hfile => hg.named file .entry ⟨e, he, hfile, rfl⟩, fun _ h => (nomatch h),
    log, [], ?_, fun n k q => ?_, fun n k q => ?_⟩
  · rw [hseen, hqueue]; rfl
  · obtain ⟨file, hfile⟩ := entries_real h e he
    obtain ⟨f, hf, hsame⟩ := hg.complete file ⟨e, he, hfile⟩
    have := eq_of_same_of_isPlain ((hsound f hf).isPlain hs hd)
      (d.isPlain_of_canonicalize hd hfile) hsame
    exact ⟨f, hf, this ▸ hfile⟩
  · rw [List.append_nil]; exact hlog
  · rw [hmem]
    refine and_congr_right fun _ => ⟨?_, ?_⟩
    · rintro ⟨path, ⟨e, he, hreal, rfl⟩, hn⟩
      exact ⟨rfl, e, he, path, hreal, hn⟩
    · rintro ⟨rfl, e, he, path, hreal, hn⟩
      exact ⟨path, ⟨e, he, hreal, rfl⟩, hn⟩
  · simp

/-! ## Visits -/

theorem Explored.visit {done : List Path} {p p' : Progress} {file : Path} {rest : List Path}
    (hs : Fixed d known s.project.resolver) (hd : Disk.Spelled d.here)
    (hp : Explored s d known entries done p) (hq : p.queue = file :: rest)
    (h : (visit s d file { p with queue := rest }).answer known = .ok p') :
    Explored s d known entries (done ++ [file]) p' := by
  have hfile : Reached s d known entries file := hp.sound file (by rw [hp.split, hq]; simp)
  obtain ⟨name, hname, hg⟩ := grows_visit hs hd (hfile.isPlain hs hd) h
  obtain ⟨log, hlog, hmem⟩ := hg.reasons
  obtain ⟨new, hseen, hqueue, hnew⟩ := hg.reached
  obtain ⟨first, later, hreasons, hfirst, hlater⟩ := hp.log
  have hsound : ∀ f ∈ p'.seen, Reached s d known entries f := by
    rw [hseen]
    intro f hf
    rcases List.mem_append.1 hf with hf | hf
    · exact hp.sound f hf
    · obtain ⟨specifier, kind, hfo⟩ := hnew f hf
      exact hfile.follow hfo
  have hold : ∀ f ∈ p.seen, f ∈ p'.seen := fun f hf => by
    rw [hseen]; exact List.mem_append_left _ hf
  refine ⟨?_, hg.nodup hp.nodup, hsound, fun e he => ?_, fun f hf specifier kind target hfo => ?_,
    hp.entryNames, fun f hf => ?_, first, later ++ log, ?_, hfirst, fun n k q => ?_⟩
  · rw [hseen, hqueue]
    show p.seen ++ new = _
    rw [hp.split, hq]
    simp
  · obtain ⟨f, hf, hreal⟩ := hp.entered e he
    exact ⟨f, hold f hf, hreal⟩
  · rcases List.mem_append.1 hf with hf | hf
    · exact hold _ (hp.closed f hf specifier kind target hfo)
    · rw [List.mem_singleton] at hf
      subst hf
      obtain ⟨t, ht, hsame⟩ := hg.complete target ⟨specifier, kind, hfo⟩
      have := eq_of_same_of_isPlain ((hsound t ht).isPlain hs hd)
        ((hfile.follow hfo).isPlain hs hd) hsame
      exact this ▸ ht
  · rcases List.mem_append.1 hf with hf | hf
    · exact hp.named f hf
    · rw [List.mem_singleton] at hf
      subst hf
      exact ⟨⟨name, hname⟩, hg.named⟩
  · rw [hlog]
    show p.reasons.addAll log = _
    rw [hreasons, ← Reasons.addAll_append, List.append_assoc]
  · rw [List.mem_append, hlater, hmem]
    constructor
    · rintro (⟨f, hf, hx⟩ | ⟨rfl, hx⟩)
      · exact ⟨f, List.mem_append_left _ hf, hx⟩
      · exact ⟨file, by simp, name, hname, rfl, hx⟩
    · rintro ⟨f, hf, m, hm, rfl, hx⟩
      rcases List.mem_append.1 hf with hf | hf
      · exact .inl ⟨f, hf, m, hm, rfl, hx⟩
      · rw [List.mem_singleton] at hf
        subst hf
        rw [hname] at hm
        cases hm
        exact .inr ⟨rfl, hx⟩

/-- The file that is visited next is named by its plain path. -/
theorem Explored.isPlain {done : List Path} {p : Progress} {file : Path} {rest : List Path}
    (hs : Fixed d known s.project.resolver) (hd : Disk.Spelled d.here)
    (hp : Explored s d known entries done p) (hq : p.queue = file :: rest) : file.IsPlain :=
  (hp.sound file (by rw [hp.split, hq]; simp)).isPlain hs hd

/-- Visiting files keeps the invariant and whatever else each visit keeps, and what is read is right;
either no file is left, or as many were visited as were allowed. -/
theorem Explored.visitAll {J : List Path → Progress → Prop} (hs : Fixed d known s.project.resolver)
    (hd : Disk.Spelled d.here)
    (hvisit : ∀ {done p p' file rest}, Explored s d known entries done p → J done p →
      p.queue = file :: rest → (Trace.visit s d file { p with queue := rest }).answer known = .ok p' →
      J (done ++ [file]) p')
    {visits : Nat} {done : List Path} {p p' : Progress} {ms : Manifests} (hms : Extends d known ms)
    (hp : Explored s d known entries done p) (hj : J done p)
    (h : (visitAll s d visits p).answer ms = .ok p') :
    Extends d known ((Trace.visitAll s d visits p).after ms) ∧
      ∃ done', Explored s d known entries done' p' ∧ J done' p' ∧
        (p'.queue = [] ∨ done'.length = done.length + visits) := by
  induction visits generalizing done p ms with
  | zero =>
    cases h
    exact ⟨hms, done, hp, hj, .inr rfl⟩
  | succ n ih =>
    unfold Trace.visitAll at h ⊢
    split at h
    · rename_i hq
      cases h
      exact ⟨hms, done, hp, hj, .inl hq⟩
    · rename_i file rest hq
      have hsteady := steady_visit hs hd (hp.isPlain hs hd hq) { p with queue := rest }
      rw [Query.answer_bind, hsteady.answer_eq hms] at h
      rw [Query.after_bind, hsteady.answer_eq hms]
      rcases hv : (Trace.visit s d file { p with queue := rest }).answer known with e | p₁
      · rw [hv] at h; cases h
      · rw [hv] at h
        obtain ⟨hafter, done', hdone', hj', hend⟩ :=
          ih (hsteady.left hms) (hp.visit hs hd hq hv) (hvisit hp hj hq hv) h
        refine ⟨hafter, done', hdone', hj', hend.imp id fun hl => ?_⟩
        rw [hl, List.length_append]
        simp only [List.length_cons, List.length_nil]
        omega

/-- Once no file is left, the files visited are those that are reached. -/
theorem Explored.mem_done {done : List Path} {p : Progress}
    (hp : Explored s d known entries done p) (hq : p.queue = []) (file : Path) :
    file ∈ done ↔ Reached s d known entries file := by
  have hdone : p.seen = done := by rw [hp.split, hq, List.append_nil]
  constructor
  · exact fun hf => hp.sound file (hdone ▸ hf)
  · intro hf
    induction hf with
    | entry he hreal =>
      obtain ⟨f, hf, hreal'⟩ := hp.entered _ he
      rw [hreal] at hreal'
      cases hreal'
      exact hdone ▸ hf
    | follow _ hfo ih => exact hdone ▸ hp.closed _ ih _ _ _ hfo

/-- Whatever holds after the entries and is kept by each visit holds of the traversal. -/
theorem explore_induct {J : List Path → Progress → Prop} (hs : Fixed d known s.project.resolver)
    (hd : Disk.Spelled d.here)
    (hstart : ∀ {p}, (entries.foldlM (enter s d) Progress.start).answer known = .ok p → J [] p)
    (hvisit : ∀ {done p p' file rest}, Explored s d known entries done p → J done p →
      p.queue = file :: rest → (Trace.visit s d file { p with queue := rest }).answer known = .ok p' →
      J (done ++ [file]) p')
    {visits : Nat} {p : Progress} (h : (explore s d visits entries).answer known = .ok p) :
    Extends d known ((explore s d visits entries).after known) ∧
      ∃ done, Explored s d known entries done p ∧ J done p ∧
        (p.queue = [] ∨ done.length = visits) := by
  unfold explore at h ⊢
  rw [Query.answer_bind] at h
  rw [Query.after_bind]
  rcases h₁ : (entries.foldlM (enter s d) Progress.start).answer known with e | p₁
  · rw [h₁] at h; cases h
  · rw [h₁] at h
    obtain ⟨hafter, done, hdone, hj, hend⟩ := (explored_start hs hd h₁).visitAll hs hd hvisit
      ((steady_foldlM steady_enter entries Progress.start).left (extends_refl known)) (hstart h₁) h
    exact ⟨hafter, done, hdone, hj, hend.imp id fun hl => by simpa using hl⟩

theorem explore_ok {visits : Nat} {p : Progress} (hs : Fixed d known s.project.resolver)
    (hd : Disk.Spelled d.here) (h : (explore s d visits entries).answer known = .ok p) :
    Extends d known ((explore s d visits entries).after known) ∧
      ∃ done, Explored s d known entries done p ∧ (p.queue = [] ∨ done.length = visits) := by
  obtain ⟨hafter, done, hdone, -, hend⟩ :=
    explore_induct (J := fun _ _ => True) hs hd (fun _ => trivial) (fun _ _ _ _ => trivial) h
  exact ⟨hafter, done, hdone, hend⟩

theorem traceWithin_ok {visits : Nat} {result : Result}
    (h : (traceWithin s d visits entries).answer known = .ok result) :
    ∃ p, (explore s d visits entries).answer known = .ok p ∧ conclude s d p = .ok result := by
  unfold traceWithin at h
  rw [Query.answer_bind] at h
  rcases hp : (explore s d visits entries).answer known with e | p
  · rw [hp] at h; cases h
  · rw [hp] at h
    exact ⟨p, rfl, (Query.answer_ofExcept _ _).symm.trans h⟩

/-- What a trace that gives a result has read is right. -/
theorem extends_traceWithin {visits : Nat} {result : Result} (hs : Fixed d known s.project.resolver)
    (hd : Disk.Spelled d.here) (h : (traceWithin s d visits entries).answer known = .ok result) :
    Extends d known ((traceWithin s d visits entries).after known) := by
  obtain ⟨p, hp, -⟩ := traceWithin_ok h
  unfold traceWithin
  rw [Query.after_bind, hp]
  show Extends d known (Query.after _ (Query.ofExcept _))
  rw [Query.after_ofExcept]
  exact (explore_ok hs hd hp).1

/-! ## The result -/

theorem mem_ofList {n : String} {names : List String} : n ∈ Names.ofList names ↔ n ∈ names := by
  have key : ∀ (l set : List String),
      n ∈ l.foldl (fun set m => Stowage.Names.insert m set) set ↔ n ∈ set ∨ n ∈ l := by
    intro l
    induction l with
    | nil => simp
    | cons m l ih =>
      intro set
      rw [List.foldl_cons, ih, Stowage.Names.mem_insert, List.mem_cons]
      tauto
  rw [Stowage.Names.ofList, key]
  simp

theorem conclude_ok {p : Progress} {result : Result} (h : conclude s d p = .ok result) :
    p.queue = [] ∧ result.reasons = p.reasons ∧
      result.files = Stowage.Names.ofList (fileNames s (generatedDirs s d) p.reasons) ∧
      result.links = Stowage.Names.ofList (linkNames p.reasons) ∧ result.warnings = p.warnings := by
  unfold conclude at h
  split at h
  · cases h
  · rename_i hq
    split at h
    · cases h
    · cases h
      exact ⟨by simpa using hq, rfl, rfl, rfl, rfl⟩

theorem Explored.exact {done : List Path} {p : Progress} {result : Result}
    (hp : Explored s d known entries done p) (h : conclude s d p = .ok result) :
    Exact s d known entries result := by
  obtain ⟨hq, hreasons, hfiles, hlinks, -⟩ := conclude_ok h
  have hdone := hp.mem_done hq
  obtain ⟨first, later, hlog, hfirst, hlater⟩ := hp.log
  have hof : result.reasons.OfLog (first ++ later) := by
    rw [hreasons, hlog]; exact Reasons.ofLog_addAll _
  have hlater' : ∀ {n k q}, (n, k, q) ∈ later ↔ ∃ file, Reached s d known entries file ∧
      ∃ m, s.project.relative file = .ok m ∧ q = some m ∧ Names s d known file k n := by
    intro n k q
    rw [hlater]
    exact exists_congr fun file => and_congr_left fun _ => hdone file
  -- a name of an entry is added before all others
  have hentry : ∀ n r, (n, r) ∈ result.reasons → (r.kind = .entry ↔ IsEntryName s d entries n) ∧
      (r.kind ≠ .entry → ∃ file, Reached s d known entries file ∧ Names s d known file r.kind n) := by
    intro n r hr
    obtain ⟨before, q, after, hsplit, hb⟩ := hof.kind ((Named.mem_iff_lookup hof.nodup).1 hr)
    have hmem : (n, r.kind, q) ∈ first ++ later := by rw [hsplit]; simp
    rcases List.mem_append.1 hmem with hm | hm
    · obtain ⟨-, hk, hn⟩ := (hfirst n r.kind q).1 hm
      exact ⟨⟨fun _ => hn, fun _ => hk⟩, fun hne => absurd hk hne⟩
    · obtain ⟨file, hfile, m, -, -, hnames⟩ := hlater'.1 hm
      have hne : r.kind ≠ .entry := by
        intro hk
        rw [hk] at hnames
        obtain ⟨path, hc, -⟩ := hnames
        rcases hc with _ | ⟨_, _ | _ | _⟩ | _
      refine ⟨⟨fun hk => absurd hk hne, fun hn => ?_⟩, fun _ => ⟨file, hfile, hnames⟩⟩
      -- the entry stands in the first part of the log, so before the first addition of the name
      have hin : (n, ReasonKind.entry, none) ∈ first := (hfirst n .entry none).2 ⟨rfl, rfl, hn⟩
      rcases List.append_eq_append_iff.1 hsplit with ⟨t, rfl, -⟩ | ⟨t, rfl, ht⟩
      · exact absurd rfl (hb _ (List.mem_append_left _ hin))
      · rcases t with _ | ⟨x, t⟩
        · exact absurd rfl (hb _ (by simpa using hin))
        · cases ht
          have hx := (hfirst n r.kind q).1 (by simp)
          exact hx.2.1
  have hmemfiles : ∀ n, n ∈ result.files ↔ ∃ r, (n, r) ∈ result.reasons ∧ r.kind ≠ .entry ∧
      r.kind ≠ .link ∧ ∀ dir ∈ generatedDirs s d, (s.project.root / n).startsWith dir = false := by
    intro n
    rw [hfiles, mem_ofList, hreasons]
    unfold fileNames isGenerated
    simp only [List.mem_map, List.mem_filter, Bool.and_eq_true, decide_eq_true_eq,
      Bool.not_eq_true', List.any_eq_false, Bool.not_eq_true, ne_eq, Prod.exists, and_assoc]
    constructor
    · rintro ⟨_, r, hr, hk, hl, hg, rfl⟩
      exact ⟨r, hr, hk, hl, hg⟩
    · rintro ⟨r, hr, hk, hl, hg⟩
      exact ⟨n, r, hr, hk, hl, hg, rfl⟩
  refine ⟨fun n => ?_, hof.nodup, fun e he => ?_, fun file hf => ?_, fun n r hr => ?_,
    fun n r hr => (hentry n r hr).1, fun n r hr => (hentry n r hr).2, fun n => ?_, fun n => ?_⟩
  · rw [hof.mem_keys]
    simp only [List.mem_append, hfirst, hlater']
    constructor
    · rintro ⟨k, q, ⟨-, -, e, he, file, hreal, hn⟩ | ⟨file, hf, m, -, -, hnames⟩⟩
      · exact ⟨file, .entry he hreal, .inl hn⟩
      · exact ⟨file, hf, .inr ⟨k, hnames⟩⟩
    · rintro ⟨file, hf, hn | ⟨k, hnames⟩⟩
      · cases hf with
        | entry he hreal => exact ⟨.entry, none, .inl ⟨rfl, rfl, _, he, file, hreal, hn⟩⟩
        | follow hf' hfo =>
          obtain ⟨m, hm⟩ := (hp.named _ ((hdone _).2 hf')).1
          exact ⟨_, some m, .inr ⟨_, hf', m, hm, rfl, file, .target hfo, hn⟩⟩
      · obtain ⟨m, hm⟩ := (hp.named file ((hdone file).2 hf)).1
        exact ⟨k, some m, .inr ⟨file, hf, m, hm, rfl, hnames⟩⟩
  · obtain ⟨file, -, hreal⟩ := hp.entered e he
    exact ⟨file, hreal⟩
  · exact hp.named file ((hdone file).2 hf)
  · obtain ⟨hnd, hpar⟩ := hof.parents ((Named.mem_iff_lookup hof.nodup).1 hr)
    refine ⟨hnd, fun q => ?_⟩
    rw [hpar]
    simp only [List.mem_append, hfirst, hlater', reduceCtorEq, false_and, false_or,
      Option.some.injEq]
    constructor
    · rintro ⟨k, file, hf, m, hm, rfl, hnames⟩
      exact ⟨file, k, hf, hm, hnames⟩
    · rintro ⟨file, k, hf, hm, hnames⟩
      exact ⟨k, file, hf, q, hm, rfl, hnames⟩
  · rw [hmemfiles]
    exact exists_congr fun r => and_congr_right fun hr =>
      and_congr_left fun _ => not_congr (hentry n r hr).1
  · rw [hlinks, mem_ofList, hreasons]
    unfold linkNames
    simp only [List.mem_map, List.mem_filter, decide_eq_true_eq, Prod.exists, exists_and_right,
      exists_eq_right]

theorem exact_of_traceWithin {visits : Nat} {result : Result} (hs : Fixed d known s.project.resolver)
    (hd : Disk.Spelled d.here) (h : (traceWithin s d visits entries).answer known = .ok result) :
    Exact s d known entries result := by
  obtain ⟨p, hp, hconclude⟩ := traceWithin_ok h
  obtain ⟨-, done, hdone, -⟩ := explore_ok hs hd hp
  exact hdone.exact hconclude

/-! ## Coming to an end -/

/-- Visits that leave nothing in the queue are not changed by allowing for more. -/
theorem visitAll_add (visits more : Nat) {p : Progress} {ms : Manifests}
    (h : ∀ p', (visitAll s d visits p).answer ms = .ok p' → p'.queue = []) :
    (visitAll s d (visits + more) p).run.run ms = (visitAll s d visits p).run.run ms := by
  induction visits generalizing p ms with
  | zero =>
    have hq : p.queue = [] := h p rfl
    rw [Nat.zero_add]
    rcases more with _ | n
    · rfl
    · unfold visitAll
      rw [hq]
  | succ n ih =>
    rw [Nat.add_right_comm]
    unfold visitAll at h ⊢
    split
    · rfl
    · rename_i file rest hq
      rw [hq] at h
      rw [Query.run_bind, Query.run_bind]
      rcases hv : (visit s d file { p with queue := rest }).answer ms with e | p₁
      · rfl
      · refine ih fun p' hp' => h p' ?_
        show (visit s d file { p with queue := rest } >>= _).answer ms = _
        rw [Query.answer_bind, hv]
        exact hp'

/-- The traversal visits no more files than the entries and what the resolver leads to. -/
theorem explore_ends {files : List Path} (hs : Fixed d known s.project.resolver)
    (hd : Disk.Spelled d.here)
    (hfiles : ∀ base specifier t,
      (s.project.resolve d base specifier).answer known = .ok (.file t) → t ∈ files)
    {visits : Nat} (hv : entries.length + files.length ≤ visits) {p : Progress}
    (h : (explore s d visits entries).answer known = .ok p) : p.queue = [] := by
  obtain ⟨-, done, hp, hend⟩ := explore_ok hs hd h
  rcases hend with hq | hl
  · exact hq
  · have hsub : p.seen ⊆ entries.filterMap (fun e => (d.canonicalize e).toOption) ++ files := by
      intro f hf
      rw [List.mem_append]
      cases hp.sound f hf with
      | entry he hreal => exact .inl (List.mem_filterMap.2 ⟨_, he, by rw [hreal]; rfl⟩)
      | follow _ hfo => exact .inr (hfiles _ _ _ hfo.leads.resolved)
    have hle := (hp.nodup.subperm hsub).length_le
    rw [List.length_append, hp.split, List.length_append] at hle
    have := List.length_filterMap_le (fun e => (d.canonicalize e).toOption) entries
    exact List.length_eq_zero_iff.1 (by omega)

/-- Allowing for more visits than those of the entries and of what the resolver leads to changes neither
the result nor the manifests that are read. -/
theorem run_traceWithin {files : List Path} (hs : Fixed d known s.project.resolver)
    (hd : Disk.Spelled d.here)
    (hfiles : ∀ base specifier t,
      (s.project.resolve d base specifier).answer known = .ok (.file t) → t ∈ files)
    {visits : Nat} (hv : entries.length + files.length ≤ visits) :
    (traceWithin s d visits entries).run.run known =
      (traceWithin s d (entries.length + files.length) entries).run.run known := by
  have hsame : (explore s d visits entries).run.run known =
      (explore s d (entries.length + files.length) entries).run.run known := by
    obtain ⟨more, rfl⟩ := Nat.exists_eq_add_of_le hv
    have hend : ∀ p, (explore s d (entries.length + files.length) entries).answer known = .ok p →
        p.queue = [] := fun p hp => explore_ends hs hd hfiles (Nat.le_refl _) hp
    unfold explore at hend ⊢
    rw [Query.run_bind, Query.run_bind]
    rcases h₁ : (entries.foldlM (enter s d) Progress.start).answer known with e | p₁
    · rfl
    · refine visitAll_add _ more fun p' hp' => hend p' ?_
      rw [Query.answer_bind, h₁]
      exact hp'
  unfold traceWithin
  rw [Query.run_bind, Query.run_bind]
  unfold Query.answer Query.after
  rw [hsame]

/-- In a project that looks for files on the disk a trace allows for enough visits. -/
theorem run_trace (r : Resolver) (hr : s.project.resolver = r.resolve) (hd : Disk.Spelled d.here)
    {visits : Nat} (hv : entries.length + d.entries.length ≤ visits) :
    (traceWithin s d visits entries).run.run known = (trace s d entries).run.run known := by
  have hl : d.stored.length = d.entries.length := List.length_map ..
  have hfiles : ∀ base specifier t,
      (s.project.resolve d base specifier).answer known = .ok (.file t) → t ∈ d.stored := by
    intro base specifier t ht
    have := Project.resolver_of_resolve ht
    rw [hr] at this
    exact r.mem_stored_of_resolve hd this
  unfold trace
  rw [← hl] at hv ⊢
  exact run_traceWithin (hr ▸ r.fixed_resolve hd) hd hfiles hv

/-- For every resolver and every analysis of files that are fixed functions, a trace that gives a result
gives exactly what the entries need: the reached files, the least set that holds the entries and is
closed under following references, and the manifests and links that they contribute, each with the files
that contribute it as parents. If the resolver leads to finitely many files only, the traversal comes to
its end within a number of visits that they bound, whatever number is allowed beyond. -/
theorem traceWithin_exact (hs : Fixed d known s.project.resolver) (hd : Disk.Spelled d.here)
    (entries : List Path) :
    (∀ visits result, (traceWithin s d visits entries).answer known = .ok result →
      Exact s d known entries result) ∧
    ∀ files : List Path,
      (∀ base specifier t,
        (s.project.resolve d base specifier).answer known = .ok (.file t) → t ∈ files) →
      ∀ visits, entries.length + files.length ≤ visits →
        (∀ p, (explore s d visits entries).answer known = .ok p → p.queue = []) ∧
        (traceWithin s d visits entries).run.run known =
          (traceWithin s d (entries.length + files.length) entries).run.run known := by
  exact ⟨fun visits result h => exact_of_traceWithin hs hd h, fun files hfiles visits hv =>
    ⟨fun p hp => explore_ends hs hd hfiles hv hp, run_traceWithin hs hd hfiles hv⟩⟩

/-! ### A trace in a circle -/

/-- A main file, a directory and a linked package that need each other in turn. -/
def circle : Disk where
  entries := [
    (["w"], .directory),
    (["w", "lib"], .directory),
    (["w", "lib", "index.js"], .file (.text "require('a');")),
    (["w", "main.js"], .file (.text "require('./lib');")),
    (["w", "node_modules"], .directory),
    (["w", "node_modules", "a"], .link "../packages/a"),
    (["w", "package.json"], .file (.text "\x7b\"name\":\"app\"\x7d")),
    (["w", "packages"], .directory),
    (["w", "packages", "a"], .directory),
    (["w", "packages", "a", "index.js"], .file (.text "require('../../main.js');")),
    (["w", "packages", "a", "package.json"], .file (.text "\x7b\"name\":\"a\"\x7d"))]
  here := ["w"]

def circleSetting : Setting :=
  ⟨⟨⟨"/w"⟩, ⟨"/w"⟩, Resolver.standard.resolve⟩, ⟨[], [], [], true⟩, readReferences⟩

theorem spelled_circle : Disk.Spelled circle.here := by
  intro n hn
  rw [List.mem_singleton.1 hn]
  exact ⟨by decide, by decide, by decide⟩

theorem traceWithin_exact_circle :
    (∃ result, (trace circleSetting circle [⟨"main.js"⟩]).answer .empty = .ok result ∧
      result.links = ["node_modules/a"] ∧
      Exact circleSetting circle .empty [⟨"main.js"⟩] result) ∧
    ∀ visits, 12 ≤ visits →
      (traceWithin circleSetting circle visits [⟨"main.js"⟩]).run.run .empty =
        (traceWithin circleSetting circle 12 [⟨"main.js"⟩]).run.run .empty := by
  have hs : Fixed circle .empty circleSetting.project.resolver :=
    Resolver.standard.fixed_resolve spelled_circle
  refine ⟨?_, fun visits hv => ?_⟩
  · have hlinks : ((trace circleSetting circle [⟨"main.js"⟩]).answer .empty).toOption.map
        (·.links) = some ["node_modules/a"] := by decide +kernel
    obtain ⟨result, hr, hl⟩ := exists_ok_of_toOption hlinks
    exact ⟨result, hr, hl, (traceWithin_exact hs spelled_circle _).1 _ result hr⟩
  · exact ((traceWithin_exact hs spelled_circle [⟨"main.js"⟩]).2 circle.stored (fun base specifier t ht =>
      Resolver.standard.mem_stored_of_resolve spelled_circle (Project.resolver_of_resolve ht)) visits hv).2

end Stowage.Trace
