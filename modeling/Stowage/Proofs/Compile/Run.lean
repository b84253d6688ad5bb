/-
The course of a compilation, step by step: the sources that are visited, each of them once, and what each visit
does to the disk. A visit creates directories for one output and writes that.
-/
import Stowage.Proofs.Archive.Write
import Stowage.Proofs.Compile.Needs

open Stowage.Path

namespace Stowage

namespace Compile

variable (transpile : Transpile) (root workDir : Path) (format : SourceType)

/-! ## Visits -/

/-- Where a source is compiled to, with a directory for it. -/
def room (source : Path) : Action Path := do
  let output ← Action.ofExcept (compiledPath root workDir source format)
  Action.change (Archive.makeRoom output)
  return output

/-- A source that is compiled, the disk with a directory for its output, and the disk after that. -/
structure Visit where
  source : Path
  before : Disk
  after : Disk

/-- The visits on the way from one state of a compilation to its end. -/
inductive Runs : Progress → World → List Visit → World → Prop
  | done {seen : List Path} {w : World} : Runs ⟨seen, []⟩ w [] w
  | next {seen rest imports : List Path} {source output : Path} {w w₁ w₂ w' : World}
      {visits : List Visit} (hroom : Gives (room root workDir format source) w output w₁)
      (hto : Gives (compileTo transpile root workDir format source output) w₁ imports w₂)
      (hrest : Runs (imports.foldl Progress.reach ⟨seen, rest⟩) w₂ visits w') :
      Runs ⟨seen, source :: rest⟩ w (⟨source, w₁.disk, w₂.disk⟩ :: visits) w'

variable {transpile root workDir format}

theorem run_compileFile (source : Path) (w : World) :
    (compileFile transpile root workDir format source).run.run w =
      (room root workDir format source >>= fun output =>
        compileTo transpile root workDir format source output).run.run w := by
  unfold compileFile room Archive.makeRoom
  simp only [run_bind]
  rcases (Action.ofExcept (compiledPath root workDir source format)).run.run w with ⟨e | output, w₁⟩
  · rfl
  · dsimp only
    rcases output.parent? with _ | parent
    · rfl
    · dsimp only
      rw [run_bind]
      rcases (Action.change (Disk.createDirectories parent)).run.run w₁ with ⟨e | u, w₂⟩ <;> rfl

theorem gives_compileFile {source : Path} {imports : List Path} {w w' : World}
    (h : Gives (compileFile transpile root workDir format source) w imports w') :
    ∃ output w₁, Gives (room root workDir format source) w output w₁ ∧
      Gives (compileTo transpile root workDir format source output) w₁ imports w' := by
  unfold Gives at h
  rw [run_compileFile] at h
  exact gives_bind.1 h

theorem exists_runs {fuel : Nat} {p : Progress} {w w' : World}
    (h : Gives (compileAll transpile root workDir format fuel p) w () w') :
    ∃ visits, Runs transpile root workDir format p w visits w' := by
  induction fuel generalizing p w with
  | zero =>
    obtain ⟨seen, _ | ⟨source, rest⟩⟩ := p
    · obtain ⟨-, rfl⟩ := gives_pure.1 h
      exact ⟨[], .done⟩
    · exact absurd h gives_throw
  | succ fuel ih =>
    obtain ⟨seen, _ | ⟨source, rest⟩⟩ := p
    · obtain ⟨-, rfl⟩ := gives_pure.1 h
      exact ⟨[], .done⟩
    · obtain ⟨imports, w₂, hfile, hrest⟩ := gives_bind.1 h
      obtain ⟨output, w₁, hroom, hto⟩ := gives_compileFile hfile
      obtain ⟨visits, hruns⟩ := ih hrest
      exact ⟨_, .next hroom hto hruns⟩

/-! ## What a visit does -/

/-- What a source is compiled to: a script to its code, any other file to what it holds. A file that is copied
onto itself is emptied. -/
inductive Makes (transpile : Transpile) (format : SourceType) (d : Disk) (source output : Path) :
    Content → Prop
  | script {text code : String} (hscript : isScript source = true)
      (htext : d.readText source = .ok text) (hcode : transpile format source text = .ok code) :
      Makes transpile format d source output (.text code)
  | copied {l : Location} {c : Content} (hscript : isScript source = false)
      (hfile : d.find source = .ok (l, .file c)) (hother : d.find output ≠ d.find source) :
      Makes transpile format d source output c
  | emptied {l : Location} {c : Content} (hscript : isScript source = false)
      (hfile : d.find source = .ok (l, .file c)) (hself : d.find output = d.find source) :
      Makes transpile format d source output (.text "")

/-- The source is a file when it is compiled. -/
theorem Makes.isFile {d : Disk} {source output : Path} {c : Content}
    (h : Makes transpile format d source output c) : ∃ l x, d.find source = .ok (l, .file x) := by
  cases h with
  | script _ htext _ =>
    unfold Disk.readText Disk.read at htext
    rcases hf : d.find source with e | ⟨l, c | t | _⟩
    · rw [hf] at htext; cases htext
    · exact ⟨l, c, rfl⟩
    · rw [hf] at htext; cases htext
    · rw [hf] at htext; cases htext
  | copied _ hfile _ => exact ⟨_, _, hfile⟩
  | emptied _ hfile _ => exact ⟨_, _, hfile⟩

variable (transpile root workDir format) in
/-- The visit writes what its source is compiled to where the path of its output leads. -/
structure Visit.Writes (v : Visit) (output : Path) (loc : Location) (c : Content) : Prop where
  path : compiledPath root workDir v.source format = .ok output
  makes : Makes transpile format v.before v.source output c
  vacant : v.before.Vacant output loc
  after : v.after = v.before.put loc (.file c)

theorem gives_room {source output : Path} {w w₁ : World} (hd : w.disk.Sound)
    (h : Gives (room root workDir format source) w output w₁) :
    compiledPath root workDir source format = .ok output ∧ Disk.Grown w.disk w₁.disk ∧
      w₁.disk.Sound := by
  obtain ⟨_, _, ho, h₁⟩ := gives_bind.1 h
  obtain ⟨hpath, rfl⟩ := Action.gives_ofExcept.1 ho
  obtain ⟨_, w₂, hc, h₂⟩ := gives_bind.1 h₁
  obtain ⟨rfl, rfl⟩ := gives_pure.1 h₂
  obtain ⟨hgrown, hsound⟩ := Archive.grown_prepared hd output
  have hrun := (Action.gives_change.1 hc).1
  unfold Archive.prepared at hgrown hsound
  rw [hrun] at hgrown hsound
  exact ⟨hpath, hgrown, hsound⟩

/-- Compiling a source writes one file. -/
theorem gives_compileTo {source output : Path} {imports : List Path} {w w' : World}
    (hd : w.disk.Sound)
    (h : Gives (compileTo transpile root workDir format source output) w imports w') :
    ∃ loc c, Makes transpile format w.disk source output c ∧ w.disk.Vacant output loc ∧
      w'.disk = w.disk.put loc (.file c) := by
  unfold compileTo at h
  split at h
  · rename_i hscript
    have hscript : isScript source = false := by simpa using hscript
    obtain ⟨_, w₁, hc, h₁⟩ := gives_bind.1 h
    obtain ⟨-, rfl⟩ := gives_pure.1 h₁
    have hrun := (Action.gives_change.1 hc).1
    rcases Disk.run_copy hd source output with ⟨e, he⟩ | ⟨l, loc, c, c', hfile, hvacant, hc', hcopy⟩
    · rw [he] at hrun
      cases hrun
    rw [hcopy] at hrun
    -- the source is its own output if both are found at one location
    have hsame : w.disk.find output = w.disk.find source ↔ loc = l := by
      have hentry := (Disk.entry?_of_find hd hfile).1
      constructor
      · intro he
        have := hvacant.leads
        rw [Disk.locate_of_find (he.trans hfile)] at this
        rw [← Disk.location_place (d := w.disk) loc, ← Except.ok.inj this]
        rfl
      · rintro rfl
        rw [hfile]
        unfold Disk.find
        rw [hvacant.leads, Disk.place_of_some hentry]
        rfl
    refine ⟨loc, c', ?_, hvacant, (Prod.ext_iff.1 hrun).2.symm⟩
    by_cases hself : loc = l
    · rw [hc', if_pos hself]
      exact .emptied hscript hfile (hsame.2 hself)
    · rw [hc', if_neg hself]
      exact .copied hscript hfile (mt hsame.1 hself)
  · rename_i hscript
    have hscript : isScript source = true := by simpa using hscript
    obtain ⟨text, w₁, ht, h₁⟩ := gives_bind.1 h
    obtain ⟨htext, rfl⟩ := Action.gives_ask.1 ht
    split at h₁
    · exact absurd h₁ gives_throw
    · rename_i code hcode
      obtain ⟨d, w₂, hdisk, h₂⟩ := gives_bind.1 h₁
      obtain ⟨rfl, rfl⟩ := Action.gives_disk.1 hdisk
      obtain ⟨_, w₃, hc, h₃⟩ := gives_bind.1 h₂
      obtain ⟨-, rfl⟩ := gives_pure.1 h₃
      have hrun := (Action.gives_change.1 hc).1
      rcases Disk.run_write_vacant hd output (.text code) with ⟨e, he⟩ | ⟨loc, hvacant, hwrite⟩
      · rw [he] at hrun
        cases hrun
      · rw [hwrite] at hrun
        exact ⟨loc, _, .script hscript htext hcode, hvacant, (Prod.ext_iff.1 hrun).2.symm⟩

/-- The sources that are needed are there. -/
theorem located_of_compileTo {source output i : Path} {imports : List Path} {w w' : World}
    (hd : w.disk.Sound) (hhere : ∀ n ∈ w.disk.here, IsName n)
    (h : Gives (compileTo transpile root workDir format source output) w imports w')
    (hi : i ∈ imports) : w.disk.Located i := ((mem_imports_iff h).1 hi).located hd hhere

/-! ## What is reached -/

/-- What is still to be compiled was reached, each source once. -/
structure Progress.Tracked (p : Progress) : Prop where
  reached : ∀ s ∈ p.stack, s ∈ p.seen
  once : p.stack.Nodup

theorem mem_seen_reach {p : Progress} {s t : Path} (h : t ∈ p.seen) : t ∈ (p.reach s).seen := by
  unfold Progress.reach
  split
  · exact h
  · exact List.mem_append_left _ h

theorem mem_stack_reach {p : Progress} {s t : Path} :
    t ∈ (p.reach s).stack → t ∈ p.stack ∨ t = s ∧ t ∉ p.seen := by
  unfold Progress.reach
  split
  · exact .inl
  · rename_i hno
    intro h
    rcases List.mem_cons.1 h with rfl | h
    · exact .inr ⟨rfl, fun hmem => hno (List.any_eq_true.2 ⟨t, hmem, same_refl t⟩)⟩
    · exact .inl h

theorem Progress.Tracked.reach {p : Progress} (h : p.Tracked) (s : Path) : (p.reach s).Tracked := by
  unfold Progress.reach
  split
  · exact h
  · rename_i hno
    have hnew : s ∉ p.seen := fun hmem => hno (List.any_eq_true.2 ⟨s, hmem, same_refl s⟩)
    refine ⟨fun t ht => ?_, List.nodup_cons.2 ⟨fun hs => hnew (h.reached s hs), h.once⟩⟩
    rcases List.mem_cons.1 ht with rfl | ht
    · exact List.mem_append_right _ (List.mem_singleton_self _)
    · exact List.mem_append_left _ (h.reached t ht)

theorem tracked_foldl {p : Progress} (h : p.Tracked) (l : List Path) :
    (l.foldl Progress.reach p).Tracked := by
  induction l generalizing p with
  | nil => exact h
  | cons s l ih => exact ih (h.reach s)

theorem mem_seen_foldl {p : Progress} {t : Path} (h : t ∈ p.seen) (l : List Path) :
    t ∈ (l.foldl Progress.reach p).seen := by
  induction l generalizing p with
  | nil => exact h
  | cons s l ih => exact ih (mem_seen_reach h)

theorem mem_stack_foldl {p : Progress} {t : Path} {l : List Path}
    (h : t ∈ (l.foldl Progress.reach p).stack) : t ∈ p.stack ∨ t ∈ l ∧ t ∉ p.seen := by
  induction l generalizing p with
  | nil => exact .inl h
  | cons s l ih =>
    rcases ih h with h | ⟨hl, hno⟩
    · rcases mem_stack_reach h with h | ⟨rfl, hno⟩
      · exact .inl h
      · exact .inr ⟨List.mem_cons_self .., hno⟩
    · exact .inr ⟨List.mem_cons_of_mem _ hl, fun hseen => hno (mem_seen_reach hseen)⟩

theorem mem_seen_of_foldl {p : Progress} {t : Path} {l : List Path}
    (h : t ∈ (l.foldl Progress.reach p).seen) : t ∈ p.seen ∨ t ∈ l := by
  induction l generalizing p with
  | nil => exact .inl h
  | cons s l ih =>
    rcases ih h with h | h
    · unfold Progress.reach at h
      split at h
      · exact .inl h
      · rcases List.mem_append.1 h with h | h
        · exact .inl h
        · exact .inr (List.mem_singleton.1 h ▸ List.mem_cons_self ..)
    · exact .inr (List.mem_cons_of_mem _ h)

theorem mem_stack_foldl_of_mem {p : Progress} {t : Path} (h : t ∈ p.stack) (l : List Path) :
    t ∈ (l.foldl Progress.reach p).stack := by
  induction l generalizing p with
  | nil => exact h
  | cons s l ih =>
    refine ih ?_
    unfold Progress.reach
    split
    · exact h
    · exact List.mem_cons_of_mem _ h

/-- While nothing is compiled each path that is reached waits, in one spelling of it. -/
theorem exists_same_of_mem {l : List Path} {p : Progress} (hp : ∀ s ∈ p.seen, s ∈ p.stack) {s : Path}
    (hs : s ∈ l) : ∃ t ∈ (l.foldl Progress.reach p).stack, t.same s = true := by
  induction l generalizing p with
  | nil => exact absurd hs List.not_mem_nil
  | cons a l ih =>
    have hreach : (∀ t ∈ (p.reach a).seen, t ∈ (p.reach a).stack) ∧
        ∃ t ∈ (p.reach a).stack, t.same a = true := by
      unfold Progress.reach
      split
      · rename_i hany
        obtain ⟨t, ht, hsame⟩ := List.any_eq_true.1 hany
        exact ⟨hp, t, hp t ht, hsame⟩
      · refine ⟨fun t ht => ?_, a, List.mem_cons_self .., same_refl a⟩
        rcases List.mem_append.1 ht with ht | ht
        · exact List.mem_cons_of_mem _ (hp t ht)
        · exact List.mem_singleton.1 ht ▸ List.mem_cons_self ..
    rcases List.mem_cons.1 hs with rfl | hs
    · obtain ⟨t, ht, hsame⟩ := hreach.2
      exact ⟨t, mem_stack_foldl_of_mem ht l, hsame⟩
    · exact ih hreach.1 hs

/-- Of plain paths each is waiting once it is reached for the first time. -/
theorem mem_stack_of_mem {l : List Path} (hl : ∀ s ∈ l, s.IsPlain) {p : Progress}
    (hp : ∀ s ∈ p.seen, s.IsPlain) {s : Path} (hs : s ∈ l) (hnew : s ∉ p.seen) :
    s ∈ (l.foldl Progress.reach p).stack := by
  induction l generalizing p with
  | nil => exact absurd hs List.not_mem_nil
  | cons t l ih =>
    have hplain : ∀ u ∈ (p.reach t).seen, u.IsPlain := by
      intro u hu
      rcases mem_seen_of_foldl (l := [t]) hu with hu | hu
      · exact hp u hu
      · exact hl u (List.mem_singleton.1 hu ▸ List.mem_cons_self ..)
    by_cases hst : s = t
    · subst hst
      refine mem_stack_foldl_of_mem ?_ l
      unfold Progress.reach
      split
      · rename_i hany
        obtain ⟨u, hu, hsame⟩ := List.any_eq_true.1 hany
        obtain rfl := eq_of_same_of_isPlain (hp u hu) (hl s (List.mem_cons_self ..)) hsame
        exact absurd hu hnew
      · exact List.mem_cons_self ..
    · refine ih (fun u hu => hl u (List.mem_cons_of_mem _ hu)) hplain
        ((List.mem_cons.1 hs).resolve_left hst) fun hseen => ?_
      rcases mem_seen_of_foldl (l := [t]) hseen with hseen | hseen
      · exact hnew hseen
      · exact hst (List.mem_singleton.1 hseen)

section
variable {p : Progress} {w w' : World} {visits : List Visit}
  (h : Runs transpile root workDir format p w visits w')
include h

/-- No source is visited twice. -/
theorem Runs.once (hp : p.Tracked) : (visits.map Visit.source).Nodup ∧
    ∀ v ∈ visits, v.source ∈ p.stack ∨ v.source ∉ p.seen := by
  induction h with
  | done => exact ⟨List.nodup_nil, fun v hv => absurd hv List.not_mem_nil⟩
  | @next seen rest imports source _ _ _ _ _ visits _ _ _ ih =>
    obtain ⟨hnotin, honce⟩ := List.nodup_cons.1 hp.once
    have hrest : (⟨seen, rest⟩ : Progress).Tracked :=
      ⟨fun s hs => hp.reached s (List.mem_cons_of_mem _ hs), honce⟩
    obtain ⟨hnodup, hlater⟩ := ih (tracked_foldl hrest imports)
    -- what is visited later was waiting already or is new
    have hnew : ∀ v ∈ visits, v.source ∈ rest ∨ v.source ∉ seen := by
      intro v hv
      rcases hlater v hv with hstack | hno
      · exact (mem_stack_foldl hstack).imp_right And.right
      · exact .inr fun hseen => hno (mem_seen_foldl hseen imports)
    refine ⟨?_, fun v hv => ?_⟩
    · rw [List.map_cons, List.nodup_cons]
      refine ⟨fun hmem => ?_, hnodup⟩
      obtain ⟨v, hv, he⟩ := List.mem_map.1 hmem
      change v.source = source at he
      rcases hnew v hv with hin | hno
      · exact hnotin (he ▸ hin)
      · exact hno (he ▸ hp.reached source (List.mem_cons_self ..))
    · rcases List.mem_cons.1 hv with rfl | hv
      · exact .inl (List.mem_cons_self ..)
      · exact (hnew v hv).imp_left (List.mem_cons_of_mem _)

/-- What is waiting is visited. -/
theorem Runs.visited {s : Path} (hs : s ∈ p.stack) : ∃ v ∈ visits, v.source = s := by
  induction h with
  | done => exact absurd hs List.not_mem_nil
  | @next seen rest imports source _ _ _ _ _ visits _ _ _ ih =>
    rcases List.mem_cons.1 hs with rfl | hs
    · exact ⟨_, List.mem_cons_self .., rfl⟩
    · obtain ⟨v, hv, he⟩ := ih (mem_stack_foldl_of_mem hs imports)
      exact ⟨v, List.mem_cons_of_mem _ hv, he⟩

/-! ## What a run does -/

/-- A run fills the disk, and each visit writes its output. -/
theorem Runs.filled (hd : w.disk.Sound) :
    w'.disk.Sound ∧ Disk.Filled (fun _ => True) w.disk w'.disk ∧ ∀ v ∈ visits,
      v.before.Sound ∧ Disk.Filled (fun _ => True) w.disk v.before ∧
      ∃ output loc c, v.Writes transpile root workDir format output loc c := by
  induction h with
  | done => exact ⟨hd, .refl _ _, fun v hv => absurd hv List.not_mem_nil⟩
  | @next seen rest imports source output w w₁ w₂ _ visits hroom hto _ ih =>
    obtain ⟨hpath, hgrown, hd₁⟩ := gives_room hd hroom
    obtain ⟨loc, c, hmakes, hvacant, hafter⟩ := gives_compileTo hd₁ hto
    have hd₂ : w₂.disk.Sound := hafter ▸ hvacant.sound_put hd₁ c
    have hfilled : Disk.Filled (fun _ => True) w.disk w₂.disk := hafter ▸ hgrown.filled.trans
      (Disk.filled_put trivial hvacant.ne_directory hvacant.ne_link c)
    obtain ⟨hd', hfilled', hvisits⟩ := ih hd₂
    refine ⟨hd', hfilled.trans hfilled', fun v hv => ?_⟩
    rcases List.mem_cons.1 hv with rfl | hv
    · exact ⟨hd₁, hgrown.filled, output, loc, c, hpath, hmakes, hvacant, hafter⟩
    · obtain ⟨hsound, hbefore, hwrites⟩ := hvisits v hv
      exact ⟨hsound, hfilled.trans hbefore, hwrites⟩

/-- What is visited is there. -/
theorem Runs.located (hd : w.disk.Sound) (hhere : ∀ n ∈ w.disk.here, IsName n)
    (hp : ∀ s ∈ p.stack, w.disk.Located s) : ∀ v ∈ visits, v.before.Located v.source := by
  induction h with
  | done => exact fun v hv => absurd hv List.not_mem_nil
  | @next seen rest imports source output w w₁ w₂ _ visits hroom hto _ ih =>
    obtain ⟨-, hgrown, hd₁⟩ := gives_room hd hroom
    obtain ⟨loc, c, -, hvacant, hafter⟩ := gives_compileTo hd₁ hto
    have hput : Disk.Filled (fun _ => True) w₁.disk w₂.disk :=
      hafter ▸ Disk.filled_put trivial hvacant.ne_directory hvacant.ne_link c
    have hhere₁ : ∀ n ∈ w₁.disk.here, IsName n := by rw [hgrown.here]; exact hhere
    intro v hv
    rcases List.mem_cons.1 hv with rfl | hv
    · exact (hp source (List.mem_cons_self ..)).filled hgrown.filled
    · refine ih (hafter ▸ hvacant.sound_put hd₁ c) (by rw [hput.here]; exact hhere₁) (fun s hs => ?_) v hv
      rcases mem_stack_foldl hs with hs | ⟨hs, -⟩
      · exact ((hp s (List.mem_cons_of_mem _ hs)).filled hgrown.filled).filled hput
      · exact (located_of_compileTo hd₁ hhere₁ hto hs).filled hput

/-- From a visit on the run goes on where that has led. -/
theorem Runs.from_visit {before after : List Visit} {v : Visit} (he : visits = before ++ v :: after) :
    ∃ q w₁, w₁.disk = v.after ∧ Runs transpile root workDir format q w₁ after w' := by
  induction h generalizing before with
  | done => simp at he
  | @next seen rest imports source output w w₁ w₂ _ visits hroom hto hrest ih =>
    rcases before with _ | ⟨u, before⟩
    · rw [List.nil_append, List.cons.injEq] at he
      obtain ⟨rfl, rfl⟩ := he
      exact ⟨_, w₂, rfl, hrest⟩
    · exact ih (List.cons.inj he).2

/-- During and after a visit the disk is filled further. -/
theorem Runs.filled_after (hd : w.disk.Sound) {v : Visit} (hv : v ∈ visits) :
    Disk.Filled (fun _ => True) v.before w'.disk ∧ Disk.Filled (fun _ => True) v.after w'.disk := by
  obtain ⟨before, after, rfl⟩ := List.append_of_mem hv
  obtain ⟨hbefore, -, output, loc, c, hwrites⟩ := (h.filled hd).2.2 v hv
  obtain ⟨q, w₁, hw₁, hruns⟩ := h.from_visit rfl
  have hsound : w₁.disk.Sound := by
    rw [hw₁, hwrites.after]
    exact hwrites.vacant.sound_put hbefore c
  have hput : Disk.Filled (fun _ => True) v.before v.after := by
    rw [hwrites.after]
    exact Disk.filled_put trivial hwrites.vacant.ne_directory hwrites.vacant.ne_link c
  have hrest : Disk.Filled (fun _ => True) v.after w'.disk := hw₁ ▸ (hruns.filled hsound).2.1
  exact ⟨hput.trans hrest, hrest⟩

/-- A file that was not there before, or not like this, is the output of a visit. -/
theorem Runs.of_entry?_file (hd : w.disk.Sound) {loc : Location} {c : Content}
    (hfile : w'.disk.entry? loc = some (.file c)) : w.disk.entry? loc = some (.file c) ∨
      ∃ v ∈ visits, ∃ output y, v.Writes transpile root workDir format output loc y := by
  induction h with
  | done => exact .inl hfile
  | @next seen rest imports source output w w₁ w₂ _ visits hroom hto _ ih =>
    obtain ⟨hpath, hgrown, hd₁⟩ := gives_room hd hroom
    obtain ⟨l, y, hmakes, hvacant, hafter⟩ := gives_compileTo hd₁ hto
    rcases ih (hafter ▸ hvacant.sound_put hd₁ y) hfile with hfile₂ | ⟨v, hv, hwrites⟩
    · rw [hafter, Disk.entry?_put _ (Disk.ne_nil_of_not_directory hvacant.ne_directory)] at hfile₂
      split at hfile₂
      · rename_i hloc
        subst hloc
        exact .inr ⟨_, List.mem_cons_self .., output, y, hpath, hmakes, hvacant, hafter⟩
      · rcases hgrown.entry loc with he | ⟨-, he⟩
        · exact .inl (he ▸ hfile₂)
        · rw [hfile₂] at he; cases he
    · exact .inr ⟨v, List.mem_cons_of_mem _ hv, hwrites⟩

end

/-! ## Whole compilations -/

/-- The course of a compilation: the root, the world with the directory of the output, the name, source and
output of each entry point, and the visits. -/
structure Course where
  root : Path
  start : World
  entered : List (String × Path × Path)
  visits : List Visit

/-- Where the visits start. -/
def Course.progress (x : Course) : Progress := x.entered.foldl (fun p e => p.reach e.2.1) ⟨[], []⟩

/-- The compilation takes the course. -/
structure Takes (transpile : Transpile) (job : CompileJob) (w : World) (c : Compiled) (w' : World)
    (x : Course) : Prop where
  root : w.disk.canonicalize job.root = .ok x.root
  made : Gives (Action.change (Disk.createDirectories job.outDir)) w () x.start
  workDir : x.start.disk.canonicalize job.outDir = .ok c.workDir
  entered : List.Forall₂ (fun e y => y.1 = e.1 ∧
    x.start.disk.canonicalize (x.root.join e.2) = .ok y.2.1 ∧
    compiledPath x.root c.workDir y.2.1 job.format = .ok y.2.2) job.entries x.entered
  runs : Runs transpile x.root c.workDir job.format x.progress x.start x.visits w'
  outputs : c.outputs = x.entered.map fun e => (e.1, e.2.2)

theorem gives_enter {entries : List (String × Path)} {entered : List (String × Path × Path)}
    {w w' : World} (h : Gives (enter root workDir format entries) w entered w') :
    w' = w ∧ List.Forall₂ (fun e y => y.1 = e.1 ∧
      w.disk.canonicalize (root.join e.2) = .ok y.2.1 ∧
      compiledPath root workDir y.2.1 format = .ok y.2.2) entries entered := by
  induction entries generalizing entered w with
  | nil =>
    obtain ⟨rfl, rfl⟩ := gives_pure.1 h
    exact ⟨rfl, .nil⟩
  | cons e rest ih =>
    obtain ⟨source, w₁, hs, h₁⟩ := gives_bind.1 h
    obtain ⟨hsource, rfl⟩ := Action.gives_ask.1 hs
    obtain ⟨output, w₂, ho, h₂⟩ := gives_bind.1 h₁
    obtain ⟨houtput, rfl⟩ := Action.gives_ofExcept.1 ho
    obtain ⟨others, w₃, hrest, h₃⟩ := gives_bind.1 h₂
    obtain ⟨rfl, rfl⟩ := gives_pure.1 h₃
    obtain ⟨rfl, hall⟩ := ih hrest
    exact ⟨rfl, .cons ⟨rfl, hsource, houtput⟩ hall⟩

/-- The sources of the entry points are there. -/
theorem located_of_entered {d : Disk} (hd : d.Sound) (hhere : ∀ n ∈ d.here, IsName n)
    {entries : List (String × Path)} {entered : List (String × Path × Path)}
    (h : List.Forall₂ (fun e y => y.1 = e.1 ∧ d.canonicalize (root.join e.2) = .ok y.2.1 ∧
      compiledPath root workDir y.2.1 format = .ok y.2.2) entries entered) :
    ∀ e ∈ entered, d.Located e.2.1 := by
  intro e he
  obtain ⟨i, hi, rfl⟩ := List.getElem_of_mem he
  have hlength := h.length_eq
  have hentered := (List.forall₂_iff_get.1 h).2 i (by omega) hi
  exact Disk.located_of_canonicalize hd hhere hentered.2.1

/-- Only sources of entry points are waiting at the start. -/
theorem mem_stack_start {entered : List (String × Path × Path)} {s : Path}
    (h : s ∈ (entered.foldl (fun p e => p.reach e.2.1) (⟨[], []⟩ : Progress)).stack) :
    ∃ e ∈ entered, e.2.1 = s := by
  rw [← List.foldl_map (f := fun e : String × Path × Path => e.2.1) (g := Progress.reach)] at h
  rcases mem_stack_foldl h with hs | ⟨hs, -⟩
  · exact absurd hs List.not_mem_nil
  · exact List.mem_map.1 hs

/-- What a compilation finds before it compiles anything: the root, the directory of the output, and the name,
source and output of each entry point. -/
def prepare (job : CompileJob) : Action (Path × Path × List (String × Path × Path)) := do
  let root ← Action.ask (·.canonicalize job.root)
  Action.change (Disk.createDirectories job.outDir)
  let workDir ← Action.ask (·.canonicalize job.outDir)
  let entered ← enter root workDir job.format job.entries
  return (root, workDir, entered)

/-- A compilation with a limit of its own for the number of visits. -/
def compileFor (fuel : Nat) (transpile : Transpile) : Compiler := fun job => do
  let (root, workDir, entered) ← prepare job
  compileAll transpile root workDir job.format fuel
    (entered.foldl (fun p e => p.reach e.2.1) ⟨[], []⟩)
  if entered.isEmpty then throw .emptyOutput
  return ⟨entered.map fun (name, _, output) => (name, output), workDir⟩

/-- The visits that a compilation has fuel for. -/
def visitLimit (job : CompileJob) (d : Disk) : Nat := d.entries.length + job.entries.length + 1

/-- The world with a directory for the output, as far as it could be created, and nothing compiled. -/
def opened (job : CompileJob) (w : World) : World :=
  ⟨((Disk.createDirectories job.outDir).run.run w.disk).2, w.notes⟩

theorem run_compile (transpile : Transpile) (job : CompileJob) (w : World) :
    (compile transpile job).run.run w =
      (compileFor (visitLimit job w.disk) transpile job).run.run w := by
  have hdisk : ∀ w : World, (Action.disk).run.run w = (.ok w.disk, w) := fun _ => rfl
  unfold compile compileFor prepare
  simp only [run_bind]
  rcases hroot : (Action.ask (·.canonicalize job.root)).run.run w with ⟨e | root, w₁⟩
  · rfl
  obtain ⟨-, rfl⟩ := Action.gives_ask.1 hroot
  dsimp only
  rw [hdisk]
  dsimp only
  rcases (Action.change (Disk.createDirectories job.outDir)).run.run w₁ with ⟨e | u, w₂⟩
  · rfl
  dsimp only
  rcases (Action.ask (·.canonicalize job.outDir)).run.run w₂ with ⟨e | workDir, w₃⟩
  · rfl
  dsimp only
  rcases (enter root workDir job.format job.entries).run.run w₃ with ⟨e | entered, w₄⟩ <;> rfl

variable {job : CompileJob} {c : Compiled} {w w' : World}

theorem gives_prepare {entered : List (String × Path × Path)}
    (h : Gives (prepare job) w (root, workDir, entered) w') :
    w.disk.canonicalize job.root = .ok root ∧
      Gives (Action.change (Disk.createDirectories job.outDir)) w () w' ∧
      w'.disk.canonicalize job.outDir = .ok workDir ∧
      List.Forall₂ (fun e y => y.1 = e.1 ∧ w'.disk.canonicalize (root.join e.2) = .ok y.2.1 ∧
        compiledPath root workDir y.2.1 job.format = .ok y.2.2) job.entries entered := by
  obtain ⟨r, w₁, hr, h₁⟩ := gives_bind.1 h
  obtain ⟨hroot, rfl⟩ := Action.gives_ask.1 hr
  obtain ⟨_, start, hmade, h₂⟩ := gives_bind.1 h₁
  obtain ⟨d, w₃, hw, h₃⟩ := gives_bind.1 h₂
  obtain ⟨hworkDir, rfl⟩ := Action.gives_ask.1 hw
  obtain ⟨found, w₄, he, h₄⟩ := gives_bind.1 h₃
  obtain ⟨rfl, hentered⟩ := gives_enter he
  obtain ⟨hresult, rfl⟩ := gives_pure.1 h₄
  cases hresult
  exact ⟨hroot, hmade, hworkDir, hentered⟩

theorem exists_takes (h : Gives (compile transpile job) w c w') :
    ∃ x, Takes transpile job w c w' x := by
  unfold Gives at h
  rw [run_compile] at h
  obtain ⟨⟨root, workDir, entered⟩, start, hprepare, h₁⟩ := gives_bind.1 h
  obtain ⟨hroot, hmade, hworkDir, hentered⟩ := gives_prepare hprepare
  obtain ⟨_, w₂, hall, h₂⟩ := gives_bind.1 h₁
  obtain ⟨visits, hruns⟩ := exists_runs hall
  split at h₂
  · obtain ⟨_, _, h₃, -⟩ := gives_bind.1 h₂
    exact absurd h₃ gives_throw
  · obtain ⟨rfl, rfl⟩ := gives_pure.1 h₂
    exact ⟨⟨root, start, entered, visits⟩, hroot, hmade, hworkDir, hentered, hruns, rfl⟩

theorem Course.tracked (x : Course) : x.progress.Tracked := by
  have hfold : x.progress = (x.entered.map fun e => e.2.1).foldl Progress.reach ⟨[], []⟩ := by
    unfold Course.progress
    rw [List.foldl_map]
  rw [hfold]
  exact tracked_foldl ⟨fun s hs => absurd hs List.not_mem_nil, List.nodup_nil⟩ _

namespace Takes

variable {x : Course} (h : Takes transpile job w c w' x)
include h

/-- The outputs have the names of the entry points. -/
theorem names_outputs : c.outputs.map Prod.fst = job.entries.map Prod.fst := by
  have hentered := h.entered
  rw [h.outputs, List.map_map]
  generalize job.entries = entries, x.entered = entered at hentered
  induction hentered with
  | nil => rfl
  | cons hy _ ih => exact congrArg₂ List.cons hy.1 ih

/-- Each entry point is visited, in one spelling of its source. -/
theorem visited_same : ∀ e ∈ x.entered, ∃ v ∈ x.visits, v.source.same e.2.1 = true := by
  intro e he
  obtain ⟨t, ht, hsame⟩ := exists_same_of_mem (p := ⟨[], []⟩) (fun _ h => absurd h List.not_mem_nil)
    (List.mem_map_of_mem (f := fun e : String × Path × Path => e.2.1) he)
  rw [List.foldl_map] at ht
  obtain ⟨v, hv, rfl⟩ := h.runs.visited ht
  exact ⟨v, hv, hsame⟩

theorem grown (hd : w.disk.Sound) : Disk.Grown w.disk x.start.disk ∧ x.start.disk.Sound := by
  have hgrown := Disk.grown_createDirectories hd job.outDir
  rwa [(Action.gives_change.1 h.made).1] at hgrown

section
variable (hd : w.disk.Sound) (hhere : ∀ n ∈ w.disk.here, IsName n)
include hd hhere

theorem located_entered : ∀ e ∈ x.entered, x.start.disk.Located e.2.1 := by
  obtain ⟨hgrown, hsound⟩ := h.grown hd
  exact located_of_entered hsound (by rw [hgrown.here]; exact hhere) h.entered

/-- Each entry point is visited. -/
theorem visited : ∀ e ∈ x.entered, ∃ v ∈ x.visits, v.source = e.2.1 := by
  intro e he
  refine h.runs.visited ?_
  unfold Course.progress
  rw [← List.foldl_map (f := fun e : String × Path × Path => e.2.1) (g := Progress.reach)]
  refine mem_stack_of_mem (fun s hs => ?_) (fun s hs => absurd hs List.not_mem_nil)
    (List.mem_map_of_mem he) List.not_mem_nil
  obtain ⟨e', he', rfl⟩ := List.mem_map.1 hs
  exact (h.located_entered hd hhere e' he').isPlain

/-- What is visited is there. -/
theorem located : ∀ v ∈ x.visits, v.before.Located v.source := by
  obtain ⟨hgrown, hsound⟩ := h.grown hd
  refine h.runs.located hsound (by rw [hgrown.here]; exact hhere) fun s hs => ?_
  obtain ⟨e, he, rfl⟩ := mem_stack_start hs
  exact h.located_entered hd hhere e he

end

end Takes

end Compile
end Stowage
