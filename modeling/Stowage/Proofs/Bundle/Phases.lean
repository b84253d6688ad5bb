/-
The phases of a bundle and what each of them does to the disk: what an earlier bundle has left is removed, the
entry points are compiled and packed, and the compiled files are removed again, whatever comes of it.
-/
import Stowage.Proofs.Archive.Spared
import Stowage.Proofs.Bundle.Gathering
import Stowage.Proofs.Compile.Confined
import Stowage.Proofs.Disk.Removal

open Stowage.Path

namespace Stowage.Bundle

variable {compiler : Compiler} {o : BundleSettings} {workDir output : Path}

/-! ## Removing the working directory -/

/-- The disk without a directory and what is below it. -/
def cleared (d : Disk) (p : Path) : Disk :=
  if d.pathExists p then ((Disk.removeTree p).run.run d).2 else d

theorem run_clear (w : World) : (clear workDir).run.run w =
    (if w.disk.pathExists workDir then
      ((Disk.removeTree workDir).run.run w.disk).1.mapError Error.file else .ok (),
      { w with disk := cleared w.disk workDir }) := by
  have hdisk : (Action.disk).run.run w = (.ok w.disk, w) := rfl
  unfold clear cleared
  rw [run_bind, hdisk]
  dsimp only
  split
  · rw [Action.run_change]
  · rfl

theorem run_cleanUp (w : World) : (cleanUp o workDir).run.run w =
    (.ok (), { w with disk := if o.keepBuild then w.disk else cleared w.disk workDir }) := by
  have hdisk : (Action.disk).run.run w = (.ok w.disk, w) := rfl
  unfold cleanUp cleared Action.attempt
  rcases o.keepBuild
  · simp only [Bool.not_false, Bool.true_and, run_bind, hdisk, Bool.false_eq_true, if_false]
    split
    · rw [run_tryCatch, Action.run_change]
      rcases (Disk.removeTree workDir).run.run w.disk with ⟨e | u, d⟩ <;> rfl
    · rfl
  · rfl

/-- What is compiled and packed is followed by a clean-up that never fails. -/
theorem run_buildOnce (s : Project) (ms : Manifests) (w : World) :
    ((buildOnce compiler s ms o workDir output).run.run w).1 =
      ((build compiler s ms o workDir output).run.run w).1 ∧
    ((buildOnce compiler s ms o workDir output).run.run w).2.disk =
      if o.keepBuild then ((build compiler s ms o workDir output).run.run w).2.disk
      else cleared ((build compiler s ms o workDir output).run.run w).2.disk workDir := by
  unfold buildOnce
  rw [run_tryCatch, run_bind]
  rcases (build compiler s ms o workDir output).run.run w with ⟨e | report, w'⟩
  · dsimp only
    rw [run_bind, run_cleanUp]
    exact ⟨rfl, rfl⟩
  · dsimp only
    rw [run_bind, run_cleanUp]
    exact ⟨rfl, rfl⟩

theorem run_ofExcept {α : Type} (r : Except Error α) (w : World) :
    (Action.ofExcept r).run.run w = (r, w) := by
  rcases r with e | a <;> rfl

theorem run_ask (ms : Manifests) {α : Type} (q : Query α) (w : World) :
    (ask ms q).run.run w = ((q.answer ms).map fun a => (a, q.after ms), w) := by
  show (Action.ofExcept (q.answer ms) >>= fun a => pure (a, q.after ms)).run.run w = _
  rw [run_bind, run_ofExcept]
  rcases q.answer ms with e | a <;> rfl

/-- A bundle whose project can be opened clears the working directory and builds. -/
theorem run_bundle {w : World} {dir : Path} {s : Project} {ms : Manifests} (houtput : outputDir o = .ok output)
    (hdir : w.disk.canonicalize o.serviceDir = .ok dir)
    (hopen : Gives (openProject w.disk dir o.sourceType) .empty s ms) :
    (bundle compiler o).run.run w = (do
      clear (dir.join o.buildDir)
      buildOnce compiler s ms o (dir.join o.buildDir) output : Action Report).run.run w := by
  have hdisk : (Action.disk).run.run w = (.ok w.disk, w) := rfl
  have hanswer : (openProject w.disk dir o.sourceType).answer .empty = .ok s := congrArg Prod.fst hopen
  have hafter : (openProject w.disk dir o.sourceType).after .empty = ms := congrArg Prod.snd hopen
  unfold bundle
  simp only [run_bind, run_ofExcept, houtput, Action.run_ask, hdir, Except.mapError, hdisk, run_ask,
    hanswer, hafter, Except.map]

/-- A bundle fails before it changes anything, or the project can be opened. -/
theorem bundle_cases (compiler : Compiler) (o : BundleSettings) (w : World) :
    (∃ e, (bundle compiler o).run.run w = (.error e, w)) ∨
    ∃ output dir s ms, outputDir o = .ok output ∧ w.disk.canonicalize o.serviceDir = .ok dir ∧
      Gives (openProject w.disk dir o.sourceType) .empty s ms := by
  have hdisk : (Action.disk).run.run w = (.ok w.disk, w) := rfl
  unfold bundle
  simp only [run_bind, run_ofExcept]
  rcases houtput : outputDir o with e | output
  · exact .inl ⟨e, rfl⟩
  simp only [Action.run_ask]
  rcases hdir : w.disk.canonicalize o.serviceDir with e | dir
  · exact .inl ⟨_, rfl⟩
  simp only [Except.mapError, hdisk, run_ask]
  rcases hanswer : (openProject w.disk dir o.sourceType).answer .empty with e | s
  · exact .inl ⟨e, rfl⟩
  · exact .inr ⟨output, dir, s, _, rfl, rfl, Prod.ext hanswer rfl⟩

section
variable {d : Disk}

theorem here_cleared (d : Disk) (p : Path) : (cleared d p).here = d.here := by
  unfold cleared
  split
  · exact Disk.stays_removeTree p d.here d rfl
  · rfl

section
variable (hd : d.Sound) (p : Path)
include hd

theorem removes_cleared : cleared d p = d ∧ d.pathExists p = false ∨
    ∃ r, Disk.Removes d p r (cleared d p) := by
  unfold cleared
  rcases hexists : d.pathExists p
  · exact .inl ⟨rfl, rfl⟩
  · exact .inr ⟨_, Disk.removes hd p⟩

/-- What is left was there. -/
theorem cleared_sub {l : Location} {e : Entry} (h : Disk.entry? (cleared d p) l = some e) :
    d.entry? l = some e := by
  obtain ⟨hsame, -⟩ | ⟨r, hremoves⟩ := removes_cleared hd p
  · rwa [hsame] at h
  · generalize cleared d p = d' at h hremoves
    cases hremoves with
    | nothing => exact h
    | link => exact (Disk.pruned_erase d _).sub h
    | tree _ hpruned => exact hpruned.sub h

theorem sound_cleared (haway : ∀ top, d.locate false p = .ok (.found top .directory) → ¬ top <+: d.here) :
    (cleared d p).Sound := by
  obtain ⟨hsame, -⟩ | ⟨r, hremoves⟩ := removes_cleared hd p
  · rwa [hsame]
  · generalize cleared d p = d' at hremoves
    cases hremoves with
    | nothing => exact hd
    | link hlink => exact hd.erase (Disk.entry?_of_locate hd hlink ▸ nofun)
    | tree htop _ _ _ hsound => exact hsound (haway _ htop)

/-- What lies elsewhere is kept. -/
theorem entry?_cleared {loc : Location} {c : Content} (h : d.entry? loc = some (.file c))
    (haway : ∀ top, d.locate false p = .ok (.found top .directory) → ¬ top <+: loc) :
    Disk.entry? (cleared d p) loc = some (.file c) := by
  obtain ⟨hsame, -⟩ | ⟨r, hremoves⟩ := removes_cleared hd p
  · rwa [hsame]
  · generalize cleared d p = d' at hremoves
    cases hremoves with
    | nothing => exact h
    | link hlink =>
      have hl := Disk.entry?_of_locate hd hlink
      rw [hd.entry?_erase (hl ▸ nofun), if_neg, h]
      rintro rfl
      rw [h] at hl
      cases hl
    | tree htop hpruned => rw [hpruned.entry?_of_not_below (haway _ htop), h]

/-- Nothing is left below a directory that the path names. -/
theorem entry?_cleared_below {top l : Location} (htop : d.locate false p = .ok (.found top .directory))
    (hl : Disk.Under top l) : Disk.entry? (cleared d p) l = none := by
  obtain ⟨-, hno⟩ | ⟨r, hremoves⟩ := removes_cleared hd p
  · unfold Disk.pathExists Disk.find at hno
    rw [Disk.locate_true_of_directory htop] at hno
    cases hno
  · generalize cleared d p = d' at hremoves ⊢
    cases hremoves with
    | nothing hno => cases hno _ _ htop
    | link hlink => rw [htop] at hlink; cases hlink
    | tree htop' _ hbelow =>
      rw [htop] at htop'
      cases htop'
      exact hbelow l hl.1 hl.2

end
end

/-! ## What the phases keep -/

section
variable {P Q : Disk → Prop}

theorem keeps_ask {α : Type} (ms : Manifests) (q : Query α) :
    Keeps (fun w : World => P w.disk) (ask ms q) := by
  show Keeps _ (Action.ofExcept (q.answer ms) >>= fun a => pure (a, q.after ms))
  exact keeps_bind (Compile.keeps_ofExcept _) fun _ => keeps_pure _

theorem keeps_collectAll (root : Path) (c : Archive.Contents.Collect Unit) :
    Keeps (fun w : World => P w.disk) (collectAll root c) := by
  refine keeps_bind (fun w hw => hw) fun d => ?_
  refine keeps_bind (keeps_forM (fun text w hw => hw) _) fun _ => ?_
  exact keeps_bind (Compile.keeps_ofExcept _) fun _ => keeps_pure _

/-- Packing writes a manifest and the archive, and nothing else. -/
theorem leaves_package (hPQ : ∀ d, P d → Q d) (s : Project) (ms : Manifests) {compiled : Compiled}
    (hmanifest : ∀ c, Keeps P (Disk.write (compiled.workDir / manifestName) c))
    (hwrite : ∀ (a : Archive.Contents) m, Leaves (fun w : World => P w.disk) (fun w : World => Q w.disk)
      (a.write (output / fileName m s.start o.format) o.format o.level)) :
    Leaves (fun w : World => P w.disk) (fun w : World => Q w.disk) (package s ms o compiled output) := by
  have hPQ' : ∀ w : World, P w.disk → Q w.disk := fun w => hPQ w.disk
  refine leaves_bind hPQ' (Compile.keeps_ofExcept _) fun limits => ?_
  refine leaves_bind hPQ' (fun w hw => hw) fun d => ?_
  refine leaves_bind hPQ' (keeps_ask ms _) fun traced => ?_
  refine leaves_bind hPQ' (Compile.keeps_ofExcept _) fun expansion => ?_
  refine leaves_bind hPQ' (keeps_ask _ _) fun manifest => ?_
  refine leaves_bind hPQ' (Compile.keeps_ofExcept _) fun packed => ?_
  refine leaves_bind hPQ' (Compile.keeps_change (hmanifest _)) fun _ => ?_
  refine leaves_bind hPQ' (Compile.keeps_ofExcept _) fun serviceName => ?_
  refine leaves_bind hPQ' (fun w hw => hw) fun d => ?_
  refine leaves_bind hPQ' (keeps_collectAll _ _) fun a => fun w hw => ?_
  have h := hwrite a manifest.1 w hw
  rw [run_bind]
  rcases hr : (a.write (output / fileName manifest.1 s.start o.format) o.format o.level).run.run w with
    ⟨e | archive, w'⟩
  · rw [hr] at h; exact h
  · rw [hr] at h; exact h

end

end Stowage.Bundle
