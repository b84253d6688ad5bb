/-
Which sources a compilation compiles. They are the least set that holds the entry points and every file that a
script of the set needs; each is compiled once, and the files that are written are their outputs. A script's
references are read on the disk that its visit finds, with what was compiled before. That is the same as reading
them at the start unless a path that is tried for a reference leads to a file that was compiled: an import of the
directory of the output, say, means a compiled index once there is one.
-/
import Mathlib.Order.Bounds.Defs
import Stowage.Proofs.Compile.Collisions
import Stowage.Proofs.Compile.Limit

open Stowage.Path

namespace Stowage.Compile

/-! ## Closed sets of sources -/

/-- The sources that are compiled. -/
def Course.sources (x : Course) : Set Path := {s | ∃ v ∈ x.visits, v.source = s}

/-- A set that holds the entry points, and with a source all that it needs. -/
structure Course.Closed (x : Course) (needs : Path → Path → Prop) (S : Set Path) : Prop where
  entered : ∀ e ∈ x.entered, e.2.1 ∈ S
  needed : ∀ s ∈ S, ∀ t, needs s t → t ∈ S

variable (transpile : Transpile) (job : CompileJob)

/-- A source needs a file on the disk that its visit finds. -/
def Course.Needs (x : Course) (workDir : Path) (s t : Path) : Prop :=
  ∃ v ∈ x.visits, v.source = s ∧ Compile.Needs transpile x.root workDir job.format v.before s t

/-- A visit writes the file under the path, which leads to the location. -/
def Course.Writes (x : Course) (workDir output : Path) (loc : Location) : Prop :=
  ∃ v ∈ x.visits, ∃ y, v.Writes transpile x.root workDir job.format output loc y

/-- No path that is tried for a reference of a compiled script leads to a file in the end that was none at the
start. -/
def Course.Settled (x : Course) (d : Disk) : Prop :=
  ∀ s ∈ x.sources, ∀ target, Refers transpile job.format x.start.disk s target →
    ∀ p ∈ target :: candidates target, d.isFile p = true → x.start.disk.isFile p = true

variable {transpile job} {root workDir : Path} {format : SourceType}

section
variable {p : Progress} {w w' : World} {visits : List Visit}
  (h : Runs transpile root workDir format p w visits w')
include h

/-- What a compiled source needs was reached before or is compiled. -/
theorem Runs.closed (hseen : ∀ s ∈ p.seen, s.IsPlain)
    (hplain : ∀ v ∈ visits, ∀ t, Needs transpile root workDir format v.before v.source t → t.IsPlain) :
    ∀ v ∈ visits, ∀ t, Needs transpile root workDir format v.before v.source t →
      t ∈ p.seen ∨ ∃ u ∈ visits, u.source = t := by
  induction h with
  | done => exact fun v hv => absurd hv List.not_mem_nil
  | @next seen rest imports source output w w₁ w₂ _ visits hroom hto hrest ih =>
    rw [List.forall_mem_cons] at hplain ⊢
    have himports : ∀ t ∈ imports, t.IsPlain := fun t ht => hplain.1 t ((mem_imports_iff hto).1 ht)
    -- an import that is new waits from now on
    have hreached : ∀ t ∈ imports, t ∈ seen ∨ ∃ u ∈ visits, u.source = t := by
      intro t ht
      by_cases hold : t ∈ seen
      · exact .inl hold
      · exact .inr (hrest.visited (mem_stack_of_mem himports (p := ⟨seen, rest⟩) hseen ht hold))
    have hlater : ∀ {t}, (t ∈ seen ∨ ∃ u ∈ visits, u.source = t) →
        t ∈ seen ∨ ∃ u ∈ (⟨source, w₁.disk, w₂.disk⟩ :: visits : List Visit), u.source = t := by
      rintro t (ht | ⟨u, hu, he⟩)
      · exact .inl ht
      · exact .inr ⟨u, List.mem_cons_of_mem _ hu, he⟩
    constructor
    · intro t ht
      exact hlater (hreached t ((mem_imports_iff hto).2 ht))
    · intro v hv t ht
      have hseen' : ∀ s ∈ (imports.foldl Progress.reach ⟨seen, rest⟩).seen, s.IsPlain := by
        intro s hs
        rcases mem_seen_of_foldl hs with hs | hs
        · exact hseen s hs
        · exact himports s hs
      rcases ih hseen' hplain.2 v hv t ht with ht | hu
      · rcases mem_seen_of_foldl ht with ht | ht
        · exact .inl ht
        · exact hlater (hreached t ht)
      · exact hlater (.inr hu)

/-- Only what waits is compiled, and what those sources need. -/
theorem Runs.least {S : Set Path} (hstack : ∀ s ∈ p.stack, s ∈ S)
    (hclosed : ∀ v ∈ visits, v.source ∈ S → ∀ t,
      Needs transpile root workDir format v.before v.source t → t ∈ S) :
    ∀ v ∈ visits, v.source ∈ S := by
  induction h with
  | done => exact fun v hv => absurd hv List.not_mem_nil
  | @next seen rest imports source output w w₁ w₂ _ visits hroom hto _ ih =>
    rw [List.forall_mem_cons] at hclosed hstack ⊢
    refine ⟨hstack.1, ih (fun s hs => ?_) hclosed.2⟩
    rcases mem_stack_foldl hs with hs | ⟨hs, -⟩
    · exact hstack.2 s hs
    · exact hclosed.1 hstack.1 s ((mem_imports_iff hto).1 hs)

end

/-! ## What a compilation compiles -/

namespace Takes

variable {c : Compiled} {w w' : World} {x : Course} (h : Takes transpile job w c w' x)
  (hd : w.disk.Sound) (hhere : ∀ n ∈ w.disk.here, IsName n)
include h

theorem start_eq : x.start = opened job w := by
  obtain ⟨hrun, hnotes⟩ := Action.gives_change.1 h.made
  unfold opened
  rw [hrun, ← hnotes]

include hd

/-- What the disk is like when a source is visited. -/
theorem visits_filled : ∀ v ∈ x.visits, v.before.Sound ∧ v.before.here = w.disk.here ∧
    Disk.Filled (fun _ => True) x.start.disk v.before ∧
    ∃ output loc y, v.Writes transpile x.root c.workDir job.format output loc y := by
  intro v hv
  obtain ⟨hgrown, hsound⟩ := h.grown hd
  obtain ⟨hbefore, hfilled, hwrites⟩ := (h.runs.filled hsound).2.2 v hv
  exact ⟨hbefore, hfilled.here.trans hgrown.here, hfilled, hwrites⟩

/-- A source has an output of its own place, and nothing else is written. -/
theorem writes_iff (output : Path) : (∃ loc, x.Writes transpile job c.workDir output loc) ↔
    ∃ s ∈ x.sources, compiledPath x.root c.workDir s job.format = .ok output := by
  constructor
  · rintro ⟨loc, v, hv, y, hwrites⟩
    exact ⟨v.source, ⟨v, hv, rfl⟩, hwrites.path⟩
  · rintro ⟨_, ⟨v, hv, rfl⟩, hpath⟩
    obtain ⟨-, -, -, output', loc, y, hwrites⟩ := h.visits_filled hd v hv
    obtain rfl := Except.ok.inj (hpath.symm.trans hwrites.path)
    exact ⟨loc, v, hv, y, hwrites⟩

/-- What a visit writes is a file in the end. -/
theorem file_of_writes {output : Path} {loc : Location}
    (hwrites : x.Writes transpile job c.workDir output loc) :
    ∃ y, w'.disk.entry? loc = some (.file y) := by
  obtain ⟨v, hv, y, hwrites⟩ := hwrites
  obtain ⟨-, hsound⟩ := h.grown hd
  have hne := Disk.ne_nil_of_not_directory hwrites.vacant.ne_directory
  refine (((h.runs.filled_after hsound hv).2).entry loc).file (x := y) ?_
  rw [hwrites.after, Disk.entry?_put _ hne, if_pos rfl]

include hhere

/-- The sources are the least set that holds the entry points and all that its scripts need. -/
theorem isLeast : IsLeast {S | x.Closed (x.Needs transpile job c.workDir) S} x.sources := by
  have hplain : ∀ v ∈ x.visits, ∀ t,
      Needs transpile x.root c.workDir job.format v.before v.source t → t.IsPlain := by
    intro v hv t ht
    obtain ⟨hbefore, hsame, -⟩ := h.visits_filled hd v hv
    exact (ht.located hbefore (by rw [hsame]; exact hhere)).isPlain
  have hseen : ∀ s ∈ x.progress.seen, ∃ e ∈ x.entered, e.2.1 = s := by
    intro s hs
    unfold Course.progress at hs
    rw [← List.foldl_map (f := fun e : String × Path × Path => e.2.1) (g := Progress.reach)] at hs
    rcases mem_seen_of_foldl hs with hs | hs
    · exact absurd hs List.not_mem_nil
    · exact List.mem_map.1 hs
  constructor
  · refine ⟨h.visited hd hhere, ?_⟩
    rintro _ - t ⟨v, hv, rfl, hneeds⟩
    have hseenPlain : ∀ s ∈ x.progress.seen, s.IsPlain := by
      intro s hs
      obtain ⟨e, he, rfl⟩ := hseen s hs
      exact (h.located_entered hd hhere e he).isPlain
    rcases h.runs.closed hseenPlain hplain v hv t hneeds with ht | ht
    · obtain ⟨e, he, rfl⟩ := hseen t ht
      exact h.visited hd hhere e he
    · exact ht
  · rintro S hS _ ⟨v, hv, rfl⟩
    refine h.runs.least (fun s hs => ?_) (fun u hu hin t ht => ?_) v hv
    · obtain ⟨e, he, rfl⟩ := mem_stack_start hs
      exact hS.entered e he
    · exact hS.needed _ hin t ⟨u, hu, rfl, ht⟩

/-- The output of each entry point is written. -/
theorem writes_outputs {o : String × Path} (ho : o ∈ c.outputs) :
    ∃ loc, x.Writes transpile job c.workDir o.2 loc := by
  rw [h.outputs] at ho
  obtain ⟨e, he, rfl⟩ := List.mem_map.1 ho
  obtain ⟨i, hi, rfl⟩ := List.getElem_of_mem he
  have hlength := h.entered.length_eq
  have hentered := (List.forall₂_iff_get.1 h.entered).2 i (by omega) hi
  exact (h.writes_iff hd _).2 ⟨_, h.visited hd hhere _ he, hentered.2.2⟩

section
variable (hroot : w.disk.isFile job.root = false)
include hroot

/-- The root is a directory if it is no file. -/
theorem root_directory : ∃ top, x.root = ofLocation top ∧ (∀ n ∈ top, IsName n) ∧
    w.disk.entry? top = some .directory := by
  obtain ⟨top, e, hfind, htop⟩ := Disk.find_of_canonicalize h.root
  exact ⟨top, htop, Disk.isName_of_find hhere hfind, Disk.directory_of_find hd hfind hroot⟩

/-- Then it is no source. -/
theorem source_ne_directory {v : Visit} (hv : v ∈ x.visits) : v.source ≠ x.root := by
  obtain ⟨top, htop, hnames, hdir⟩ := h.root_directory hd hhere hroot
  obtain ⟨-, hfilled, names, y, hall, hsource, hfile⟩ := h.visit hd hhere hnames htop hv
  intro he
  obtain rfl : names = [] := by
    have := ofLocation_injective hall hnames (hsource.symm.trans (he.trans htop))
    simpa using this
  rw [List.append_nil, (hfilled.entry top).directory hdir] at hfile
  cases hfile

variable {work : Location} (hwork : c.workDir = ofLocation work) (hnamesWork : ∀ n ∈ work, IsName n)
include hwork hnamesWork

/-- Each output lies below the directory of the output. -/
theorem under_of_writes {output : Path} {loc : Location}
    (hwrites : x.Writes transpile job c.workDir output loc) :
    ∃ l, output = ofLocation l ∧ Disk.Under work l := by
  obtain ⟨v, hv, y, hwrites⟩ := hwrites
  obtain ⟨top, htop, hnamesTop, -⟩ := h.root_directory hd hhere hroot
  obtain ⟨-, -, names, -, hnames, hsource, -⟩ := h.visit hd hhere hnamesTop htop hv
  have hne : top ++ names ≠ top := fun he =>
    h.source_ne_directory hd hhere hroot hv (by rw [hsource, he, htop])
  have hpath := hwrites.path
  rw [hsource, htop, hwork] at hpath
  obtain ⟨l, houtput, -, hunder, -⟩ := output_under hnamesTop hnamesWork hnames hne hpath
  exact ⟨l, houtput, hunder⟩

variable (hlinkless : x.start.disk.Linkless work)
include hlinkless

/-- Without links there each output is written where its path says. -/
theorem output_of_writes {output : Path} {loc : Location}
    (hwrites : x.Writes transpile job c.workDir output loc) : output = ofLocation loc := by
  obtain ⟨v, hv, y, hwrites⟩ := hwrites
  exact h.output_eq hd hhere hnamesWork hwork hlinkless hv
    (h.source_ne_directory hd hhere hroot hv) hwrites

/-- What does not lie in the directory of the output stays as it was. -/
theorem visits_under : ∀ v ∈ x.visits, Disk.Filled (Disk.Under work) x.start.disk v.before := by
  obtain ⟨top, htop, hnamesTop, hdir⟩ := h.root_directory hd hhere hroot
  obtain ⟨hgrown, hsound⟩ := h.grown hd
  have hruns := h.runs
  rw [htop, hwork] at hruns
  refine filled_visits hnamesTop hnamesWork (hgrown.kept.directory top hdir) hlinkless hruns
    (fun v hv => ?_) ⟨hsound, .refl _ _⟩
  obtain ⟨l, _, hsource, hl, -⟩ := h.located hd hhere v hv
  exact ⟨l, hsource, hl⟩

/-- A source that does not lie in the directory of the output is what it was at the start. -/
theorem source_start {v : Visit} (hv : v ∈ x.visits) (hout : v.source.startsWith c.workDir = false) :
    (∃ l y, v.source = ofLocation l ∧ x.start.disk.entry? l = some (.file y)) ∧
      x.start.disk.readText v.source = v.before.readText v.source := by
  obtain ⟨top, htop, hnamesTop, -⟩ := h.root_directory hd hhere hroot
  obtain ⟨hbefore, -, names, y, hnames, hsource, hfile⟩ := h.visit hd hhere hnamesTop htop hv
  have hfilled := h.visits_under hd hhere hroot hwork hnamesWork hlinkless v hv
  have hsame : ∀ m, m <+: top ++ names → x.start.disk.entry? m = v.before.entry? m := by
    intro m hm
    refine (hfilled.only m fun hunder => ?_).symm
    have hstarts := (startsWith_ofLocation_iff hnames hnamesWork).2 (hunder.1.trans hm)
    rw [← hsource, ← hwork, hout] at hstarts
    exact Bool.false_ne_true hstarts
  constructor
  · exact ⟨_, y, hsource, (hsame _ (List.prefix_refl _)).trans hfile⟩
  · rw [hsource]
    exact Disk.readText_congr hbefore hnames hfile hsame

variable (hentered : ∀ e ∈ x.entered, e.2.1.startsWith c.workDir = false)
include hentered

omit hroot hwork hnamesWork hlinkless in
theorem source_outside {v : Visit} (hv : v ∈ x.visits) : v.source.startsWith c.workDir = false := by
  have hcovers : x.Closed (x.Needs transpile job c.workDir) {s | s.startsWith c.workDir = false} := by
    refine ⟨hentered, ?_⟩
    rintro s - t ⟨v, -, -, hneeds⟩
    exact hneeds.outside
  exact (h.isLeast hd hhere).2 hcovers ⟨v, hv, rfl⟩

/-- If no reference comes to mean a compiled file, the sources are the least set that holds the entry points and
all that its scripts need at the start. -/
theorem isLeast_start (hsettled : x.Settled transpile job w'.disk) :
    IsLeast {S | x.Closed (Compile.Needs transpile x.root c.workDir job.format x.start.disk) S}
      x.sources := by
  obtain ⟨hclosed, hleast⟩ := h.isLeast hd hhere
  obtain ⟨-, hsound⟩ := h.grown hd
  have hrefers : ∀ v ∈ x.visits, ∀ target, Refers transpile job.format x.start.disk v.source target ↔
      Refers transpile job.format v.before v.source target := fun v hv target =>
    refers_congr (h.source_start hd hhere hroot hwork hnamesWork hlinkless hv
      (h.source_outside hd hhere hentered hv)).2
  -- what a reference means at a visit is what it means at the start
  have hmeans : ∀ v ∈ x.visits, ∀ target, Refers transpile job.format x.start.disk v.source target →
      localSource v.before target = localSource x.start.disk target := by
    intro v hv target htarget
    obtain ⟨hbefore, -, hfilled, -⟩ := h.visits_filled hd v hv
    refine localSource_filled hsound hfilled fun p hp hfile => ?_
    refine hsettled _ ⟨v, hv, rfl⟩ target htarget p hp ?_
    exact (canonicalize_filled hbefore (h.runs.filled_after hsound hv).1 hfile).1
  have hneeds : ∀ v ∈ x.visits, ∀ t,
      Compile.Needs transpile x.root c.workDir job.format x.start.disk v.source t ↔
        Compile.Needs transpile x.root c.workDir job.format v.before v.source t := by
    intro v hv t
    constructor
    · rintro ⟨⟨target, htarget, ht⟩, hin, hno⟩
      exact ⟨⟨target, (hrefers v hv target).1 htarget, (hmeans v hv target htarget).trans ht⟩, hin, hno⟩
    · rintro ⟨⟨target, htarget, ht⟩, hin, hno⟩
      have htarget := (hrefers v hv target).2 htarget
      exact ⟨⟨target, htarget, (hmeans v hv target htarget).symm.trans ht⟩, hin, hno⟩
  constructor
  · refine ⟨hclosed.entered, ?_⟩
    rintro _ ⟨v, hv, rfl⟩ t ht
    exact hclosed.needed _ ⟨v, hv, rfl⟩ t ⟨v, hv, rfl, (hneeds v hv t).1 ht⟩
  · intro S hS
    refine hleast ⟨hS.entered, ?_⟩
    rintro _ hin t ⟨v, hv, rfl, ht⟩
    exact hS.needed _ hin t ((hneeds v hv t).2 ht)

end

end Takes

variable (transpile job) in
/-- What a compilation that succeeds has done, with the output in the directory at a location. -/
structure Course.Exact (w : World) (c : Compiled) (w' : World) (work : Location) (x : Course) : Prop where
  /-- The sources are the least set that holds the entry points and all that its scripts need. -/
  least : IsLeast {S | x.Closed (x.Needs transpile job c.workDir) S} x.sources
  /-- If the root is no file, no link and no source lies in the directory of the output, and no reference comes
  to mean a compiled file, they are that already for what is needed on the disk at the start. -/
  start : w.disk.isFile job.root = false → x.start.disk.Linkless work →
    (∀ e ∈ x.entered, e.2.1.startsWith c.workDir = false) → x.Settled transpile job w'.disk →
    IsLeast {S | x.Closed (Compile.Needs transpile x.root c.workDir job.format x.start.disk) S} x.sources
  /-- Each source is visited once. -/
  once : (x.visits.map Visit.source).Nodup
  /-- The files that are written are the outputs of the sources. -/
  written : ∀ output, (∃ loc, x.Writes transpile job c.workDir output loc) ↔
    ∃ s ∈ x.sources, compiledPath x.root c.workDir s job.format = .ok output
  /-- They are there in the end. -/
  files : ∀ output loc, x.Writes transpile job c.workDir output loc →
    ∃ y, w'.disk.entry? loc = some (.file y)
  /-- All other files are there from the start. -/
  others : ∀ loc y, w'.disk.entry? loc = some (.file y) → x.start.disk.entry? loc = some (.file y) ∨
    ∃ output, x.Writes transpile job c.workDir output loc
  /-- The output of each entry point is written. -/
  outputs : ∀ o ∈ c.outputs, ∃ loc, x.Writes transpile job c.workDir o.2 loc
  /-- What is written lies below the directory of the output, and without links there where its path says. -/
  below : w.disk.isFile job.root = false → ∀ output loc, x.Writes transpile job c.workDir output loc →
    (∃ l, output = ofLocation l ∧ Disk.Under work l) ∧
      (x.start.disk.Linkless work → output = ofLocation loc)

theorem Takes.exact {c : Compiled} {w w' : World} {x : Course} (hx : Takes transpile job w c w' x)
    (hd : w.disk.Sound) (hhere : ∀ n ∈ w.disk.here, IsName n) :
    ∃ work, c.workDir = ofLocation work ∧ (∀ n ∈ work, IsName n) ∧ x.Exact transpile job w c w' work := by
  obtain ⟨-, ⟨work, -, hwork, hnamesWork, -⟩⟩ := hx.located_root hd hhere
  obtain ⟨-, hsound⟩ := hx.grown hd
  refine ⟨work, hwork, hnamesWork, ?_⟩
  constructor
  · exact hx.isLeast hd hhere
  · intro hroot hlinkless hentered hsettled
    exact hx.isLeast_start hd hhere hroot hwork hnamesWork hlinkless hentered hsettled
  · exact (hx.runs.once x.tracked).1
  · exact hx.writes_iff hd
  · intro output loc hwrites
    exact hx.file_of_writes hd hwrites
  · intro loc y hfile
    rcases hx.runs.of_entry?_file hsound hfile with hfile | ⟨v, hv, output, z, hwrites⟩
    · exact .inl hfile
    · exact .inr ⟨output, v, hv, z, hwrites⟩
  · intro o ho
    exact hx.writes_outputs hd hhere ho
  · intro hroot output loc hwrites
    exact ⟨hx.under_of_writes hd hhere hroot hwork hnamesWork hwrites, fun hlinkless =>
      hx.output_of_writes hd hhere hroot hwork hnamesWork hlinkless hwrites⟩

/-- Two scripts that import each other, a file that one of them imports, and a script that nothing imports. -/
def cyclic : Disk where
  entries := [(["s"], .directory), (["s", "a.js"], .file (.text "require('./b');")),
    (["s", "b.js"], .file (.text "require('./a'); require('./c.json');")),
    (["s", "c.json"], .file (.text "[]")), (["s", "d.js"], .file (.text "1;")),
    (["x.js"], .file (.text "2;"))]
  here := []

def cyclicJob : CompileJob where
  entries := [("main", ⟨"a.js"⟩)]
  externals := []
  format := .commonJs
  root := ⟨"/s"⟩
  outDir := ⟨"/s/out"⟩

/-- The disk when the cycle is compiled. -/
def cyclicStart : Disk where
  entries := cyclic.entries.take 5 ++ (["s", "out"], .directory) :: cyclic.entries.drop 5
  here := []

theorem opened_cyclic : opened cyclicJob ⟨cyclic, []⟩ = ⟨cyclicStart, []⟩ := by decide +kernel

/-- What a compilation of the cycle starts with. -/
theorem Takes.cyclic {c : Compiled} {w' : World} {x : Course}
    (hx : Takes verbatim cyclicJob ⟨cyclic, []⟩ c w' x) : x.root = ⟨"/s"⟩ ∧ x.start.disk = cyclicStart ∧
      ∃ main, x.entered = [main] ∧ main.2.1 = ⟨"/s/a.js"⟩ := by
  have htop : x.root = ⟨"/s"⟩ := by
    have hcanonical : Compile.cyclic.canonicalize ⟨"/s"⟩ = .ok ⟨"/s"⟩ := by decide
    exact Except.ok.inj (hx.root.symm.trans hcanonical)
  have hstart : x.start.disk = cyclicStart := by
    rw [hx.start_eq, opened_cyclic]
  refine ⟨htop, hstart, ?_⟩
  obtain ⟨main, rest, ⟨-, hmain, -⟩, hrest, he⟩ := List.forall₂_cons_left_iff.1 hx.entered
  rw [List.forall₂_nil_left_iff.1 hrest] at he
  rw [htop, hstart] at hmain
  have hcanonical : cyclicStart.canonicalize (Path.join ⟨"/s"⟩ ⟨"a.js"⟩) = .ok ⟨"/s/a.js"⟩ := by decide
  exact ⟨main, he, Except.ok.inj (hmain.symm.trans hcanonical)⟩

theorem mem_entered {c : Compiled} {w w' : World} {x : Course} (h : Takes transpile job w c w' x)
    {e : String × Path × Path} (he : e ∈ x.entered) :
    ∃ entry ∈ job.entries, x.start.disk.canonicalize (x.root.join entry.2) = .ok e.2.1 := by
  obtain ⟨i, hi, rfl⟩ := List.getElem_of_mem he
  have hlength := h.entered.length_eq
  have hentered := (List.forall₂_iff_get.1 h.entered).2 i (by omega) hi
  exact ⟨_, List.getElem_mem _, hentered.2.1⟩

end Stowage.Compile
