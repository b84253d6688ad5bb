/-
What a compilation touches. Where no link lies in the directory of the output, directories are created and files
are written below it and nowhere else, whether the compilation succeeds or not.
-/
import Stowage.Proofs.Compile.Outputs
import Stowage.Proofs.Compile.Run

open Stowage.Path

namespace Stowage.Compile

variable {transpile : Transpile} {format : SourceType} {top work : Location}

/-! ## Directories of outputs -/

section
variable (htop : ∀ n ∈ top, IsName n) (hwork : ∀ n ∈ work, IsName n)
include htop hwork

/-- The output of a source other than the root lies below the directory of the output. -/
theorem output_under {s : Location} (hs : ∀ n ∈ s, IsName n) (hne : s ≠ top) {output : Path}
    (h : compiledPath (ofLocation top) (ofLocation work) (ofLocation s) format = .ok output) :
    ∃ l, output = ofLocation l ∧ (∀ n ∈ l, IsName n) ∧ Disk.Under work l ∧
      output.parent? = some (ofLocation l.dropLast) := by
  obtain ⟨names, rfl, houtput⟩ := compiledPath_ofLocation htop hs h
  have hnames : names ≠ [] := fun he => hne (by rw [he, List.append_nil])
  obtain ⟨ns, n, rfl⟩ := List.eq_nil_or_concat names |>.resolve_left hnames
  rw [List.concat_eq_append] at hs houtput
  have hn : IsName n := hs n (by simp)
  have hns : ∀ m ∈ ns, IsName m := fun m hm => hs m (by simp [hm])
  have hdir : ∀ m ∈ top ++ ns, IsName m := fun m hm => hs m (by
    rw [← List.append_assoc]; exact List.mem_append_left _ hm)
  rw [← List.append_assoc, output_concat hwork hdir hns hn] at houtput
  have hall : ∀ m ∈ work ++ ns ++ [outputName format n], IsName m := isName_output hwork hns hn
  refine ⟨_, houtput, hall, ⟨⟨ns ++ [outputName format n], by simp⟩, fun he => ?_⟩, ?_⟩
  · have := congrArg List.length he
    simp only [List.length_append, List.length_singleton] at this
    omega
  · rw [houtput, parent?_ofLocation fun m hm => (hall m hm).toIsPiece, List.dropLast_concat]

/-- The directory that the output of the root itself would need lies above the directory of the output. -/
theorem parent_output_root {output p : Path}
    (h : compiledPath (ofLocation top) (ofLocation work) (ofLocation top) format = .ok output)
    (hp : output.parent? = some p) : ∃ l, p = ofLocation l ∧ l <+: work := by
  obtain ⟨names, htop', rfl⟩ := compiledPath_ofLocation htop htop h
  obtain rfl : names = [] := by simpa using htop'
  have hempty : joined [] = "" := rfl
  rw [hempty] at hp
  rcases List.eq_nil_or_concat work with rfl | ⟨ws, w, rfl⟩
  · have hnone : ∀ b : Bool, (if b then (ofLocation [] / "").withExtension format.extension
        else ofLocation [] / "").parent? = none := by
      intro b
      cases b <;> cases format <;> decide
    rw [hnone] at hp
    cases hp
  · rw [List.concat_eq_append] at hwork hp ⊢
    have hws : ∀ m ∈ ws, IsPiece m := fun m hm => (hwork m (by simp [hm])).toIsPiece
    have hw : IsName w := hwork w (by simp)
    have hparent : ∀ {n : String}, IsName n →
        (ofLocation (ws ++ [n])).parent? = some (ofLocation ws) := fun hn =>
      parent?_ofLocation fun m hm => by
        rcases List.mem_append.1 hm with hm | hm
        · exact hws m hm
        · rw [List.mem_singleton.1 hm]; exact hn.toIsPiece
    obtain ⟨hext, hslash, hdot, -⟩ := extension_ok format
    refine ⟨ws, ?_, List.prefix_append ..⟩
    split at hp
    · rw [withExtension_slash hwork (by simp), withExtension_ofLocation hws hw hext,
        hparent (isName_extended (notMem_stem hw.no_slash) hext hslash hdot)] at hp
      exact (Option.some.inj hp).symm
    · have hself : (ofLocation (ws ++ [w]) / "").parent? = (ofLocation (ws ++ [w])).parent? := by
        unfold parent?
        rw [stem_slash hwork (by simp)]
      rw [hself, hparent hw] at hp
      exact (Option.some.inj hp).symm

end

/-! ## What is kept -/

theorem keeps_change {α : Type} {P : Disk → Prop} {c : Disk.Change α} (h : Keeps P c) :
    Keeps (fun w : World => P w.disk) (Action.change c) := fun w hw => h w.disk hw

theorem keeps_ofExcept {α : Type} {P : World → Prop} (r : Except Error α) :
    Keeps P (Action.ofExcept r) := by
  rcases r with e | a
  · exact keeps_throw e
  · exact keeps_pure a

section
variable (htop : ∀ n ∈ top, IsName n) (hwork : ∀ n ∈ work, IsName n) {d₀ : Disk}
  (hroot : d₀.entry? top = some .directory) (hlinkless : d₀.Linkless work)

include htop hroot in
/-- The root stays a directory. -/
theorem find_root {d : Disk} (hd : d.Sound ∧ Disk.Filled (Disk.Under work) d₀ d) {l : Location}
    {e : Entry} (h : d.find (ofLocation top) = .ok (l, e)) : e = .directory := by
  have hdir : d.entry? top = some .directory := (hd.2.entry top).directory hroot
  have hlocated : d.Located (ofLocation top) := ⟨top, _, rfl, htop, hdir, nofun⟩
  have hentry := (hlocated.of_find hd.1 htop h).2
  rw [hdir] at hentry
  exact (Option.some.inj hentry).symm

include htop hwork hlinkless

theorem keeps_room (format : SourceType) {s : Location} (hs : ∀ n ∈ s, IsName n) :
    Keeps (fun w : World => w.disk.Sound ∧ Disk.Filled (Disk.Under work) d₀ w.disk)
      (room (ofLocation top) (ofLocation work) format (ofLocation s)) := by
  intro w hw
  unfold room
  rw [run_bind]
  rcases hpath : compiledPath (ofLocation top) (ofLocation work) (ofLocation s) format with e | output
  · exact hw
  refine keeps_bind (keeps_change (P := fun d => d.Sound ∧ Disk.Filled (Disk.Under work) d₀ d) ?_)
    (fun _ => keeps_pure output) w hw
  unfold Archive.makeRoom
  rcases hparent : output.parent? with _ | p
  · exact keeps_pure _
  by_cases hne : s = top
  · subst hne
    obtain ⟨l, rfl, hl⟩ := parent_output_root hs hwork hpath hparent
    exact Disk.keeps_createDirectories_below hlinkless (fun n hn => hwork n (hl.subset hn)) (.inr hl)
  · obtain ⟨l, -, hl, hunder, hparent'⟩ := output_under htop hwork hs hne hpath
    obtain rfl : p = ofLocation l.dropLast := Option.some.inj (hparent.symm.trans hparent')
    exact Disk.keeps_createDirectories_below hlinkless (fun n hn => hl n (List.mem_of_mem_dropLast hn))
      (List.prefix_or_prefix_of_prefix hunder.1 (List.dropLast_prefix l))

/-- What a compiled source needs is a file that was there before anything was compiled. -/
theorem file_of_compileFile {transpile : Transpile} {s : Location} {imports : List Path} {w w' : World}
    (hhere : ∀ n ∈ w.disk.here, IsName n)
    (hw : w.disk.Sound ∧ Disk.Filled (Disk.Under work) d₀ w.disk) (hs : ∀ n ∈ s, IsName n)
    (h : Gives (compileFile transpile (ofLocation top) (ofLocation work) format (ofLocation s)) w
      imports w') {t : Path} (ht : t ∈ imports) :
    ∃ l y, t = ofLocation l ∧ (∀ n ∈ l, IsName n) ∧ d₀.entry? l = some (.file y) := by
  obtain ⟨output, w₁, hr, hto⟩ := gives_compileFile h
  have hw₁ := hr.keeps (keeps_room htop hwork hlinkless format hs) hw
  have hneeds := (mem_imports_iff hto).1 ht
  obtain ⟨l, y, rfl, hl, hfile⟩ := hneeds.file hw₁.1
    (by rw [hw₁.2.here, ← hw.2.here]; exact hhere)
  have hout : ¬ Disk.Under work l := fun hunder => by
    have := startsWith_ofLocation_iff hl hwork
    rw [hneeds.outside] at this
    exact Bool.false_ne_true (this.2 hunder.1)
  exact ⟨l, y, rfl, hl, (hw₁.2.only l hout).symm.trans hfile⟩

include hroot

theorem keeps_compileTo (transpile : Transpile) {s : Location} (hs : ∀ n ∈ s, IsName n) {output : Path}
    (hpath : compiledPath (ofLocation top) (ofLocation work) (ofLocation s) format = .ok output) :
    Keeps (fun w : World => w.disk.Sound ∧ Disk.Filled (Disk.Under work) d₀ w.disk)
      (compileTo transpile (ofLocation top) (ofLocation work) format (ofLocation s) output) := by
  by_cases hne : s = top
  · -- the root is no file that could be compiled
    subst hne
    intro w hw
    unfold compileTo
    split
    · rw [run_bind, Action.run_change]
      rcases Disk.run_copy hw.1 (ofLocation s) output with ⟨e, he⟩ | ⟨l, _, c, _, hfile, -⟩
      · rw [he]
        exact hw
      · cases find_root hs hroot hw hfile
    · rw [run_bind, Action.run_ask]
      have htext : ∃ e, w.disk.readText (ofLocation s) = .error e := by
        unfold Disk.readText Disk.read
        rcases hf : w.disk.find (ofLocation s) with e | ⟨l, e⟩
        · exact ⟨e, rfl⟩
        · cases find_root hs hroot hw hf
          exact ⟨_, rfl⟩
      obtain ⟨e, he⟩ := htext
      rw [he]
      exact hw
  · obtain ⟨l, rfl, hl, hunder, -⟩ := output_under htop hwork hs hne hpath
    unfold compileTo
    split
    · exact keeps_bind (keeps_change (Disk.keeps_copy_below hlinkless hunder hl _)) fun _ =>
        keeps_pure _
    · refine keeps_bind (fun w hw => by rw [Action.run_ask]; exact hw) fun text => ?_
      split
      · exact keeps_throw _
      · refine keeps_bind (fun w hw => hw) fun d => ?_
        exact keeps_bind (keeps_change (Disk.keeps_write_below hlinkless hunder hl _)) fun _ =>
          keeps_pure _

theorem keeps_compileFile (transpile : Transpile) (format : SourceType) {s : Location}
    (hs : ∀ n ∈ s, IsName n) :
    Keeps (fun w : World => w.disk.Sound ∧ Disk.Filled (Disk.Under work) d₀ w.disk)
      (compileFile transpile (ofLocation top) (ofLocation work) format (ofLocation s)) := by
  intro w hw
  have hroom := keeps_room htop hwork hlinkless format hs w hw
  rw [run_compileFile, run_bind]
  rcases hr : (room (ofLocation top) (ofLocation work) format (ofLocation s)).run.run w with
    ⟨e | output, w₁⟩
  · rw [hr] at hroom
    exact hroom
  · rw [hr] at hroom
    have hpath := (gives_room hw.1 hr).1
    exact keeps_compileTo htop hwork hroot hlinkless transpile hs hpath w₁ hroom

/-- Whatever comes of it, compiling the sources that are reached fills the directory of the output alone. -/
theorem filled_compileAll (transpile : Transpile) (format : SourceType) (fuel : Nat) {p : Progress}
    (hp : ∀ s ∈ p.stack, ∃ l, s = ofLocation l ∧ ∀ n ∈ l, IsName n) {w : World}
    (hhere : ∀ n ∈ w.disk.here, IsName n)
    (hw : w.disk.Sound ∧ Disk.Filled (Disk.Under work) d₀ w.disk) :
    let d := ((compileAll transpile (ofLocation top) (ofLocation work) format fuel p).run.run w).2.disk
    d.Sound ∧ Disk.Filled (Disk.Under work) d₀ d := by
  induction fuel generalizing p w with
  | zero =>
    unfold compileAll
    split
    · exact hw
    · exact hw
  | succ fuel ih =>
    unfold compileAll
    split
    · exact hw
    · rename_i source rest hstack
      obtain ⟨s, rfl, hs⟩ := hp source (by rw [hstack]; exact List.mem_cons_self ..)
      have hkept := keeps_compileFile htop hwork hroot hlinkless transpile format hs w hw
      rw [run_bind]
      rcases hc : (compileFile transpile (ofLocation top) (ofLocation work) format
        (ofLocation s)).run.run w with ⟨e | imports, w₁⟩
      · rw [hc] at hkept
        exact hkept
      · rw [hc] at hkept
        refine ih (fun t ht => ?_) (by rw [hkept.2.here, ← hw.2.here]; exact hhere) hkept
        rcases mem_stack_foldl ht with ht | ⟨ht, -⟩
        · exact hp t (by rw [hstack]; exact List.mem_cons_of_mem _ ht)
        · obtain ⟨l, _, rfl, hl, -⟩ := file_of_compileFile htop hwork hlinkless hhere hw hs hc ht
          exact ⟨l, rfl, hl⟩

/-- So does each visit on the way. -/
theorem filled_visits {transpile : Transpile} {format : SourceType} {p : Progress} {w w' : World}
    {visits : List Visit}
    (h : Runs transpile (ofLocation top) (ofLocation work) format p w visits w')
    (hsources : ∀ v ∈ visits, ∃ l, v.source = ofLocation l ∧ ∀ n ∈ l, IsName n)
    (hw : w.disk.Sound ∧ Disk.Filled (Disk.Under work) d₀ w.disk) :
    ∀ v ∈ visits, Disk.Filled (Disk.Under work) d₀ v.before := by
  induction h with
  | done => exact fun v hv => absurd hv List.not_mem_nil
  | @next seen rest imports source output w w₁ w₂ _ visits hroom hto _ ih =>
    obtain ⟨s, rfl, hs⟩ := hsources _ (List.mem_cons_self ..)
    have hw₁ := hroom.keeps (keeps_room htop hwork hlinkless format hs) hw
    have hw₂ := hto.keeps (keeps_compileTo htop hwork hroot hlinkless transpile hs
      (gives_room hw.1 hroom).1) hw₁
    intro v hv
    rcases List.mem_cons.1 hv with rfl | hv
    · exact hw₁.2
    · exact ih (fun u hu => hsources u (List.mem_cons_of_mem _ hu)) hw₂ v hv

end

/-! ## Whole compilations -/

theorem keeps_enter {P : World → Prop} (format : SourceType) (root workDir : Path)
    (entries : List (String × Path)) :
    Keeps P (enter root workDir format entries) := by
  induction entries with
  | nil => exact keeps_pure _
  | cons e rest ih =>
    refine keeps_bind (fun w hw => by rw [Action.run_ask]; exact hw) fun source => ?_
    exact keeps_bind (keeps_ofExcept _) fun output => keeps_bind ih fun _ => keeps_pure _

/-- Before anything is compiled only the directory of the output is created, unless there is no root. -/
theorem run_prepare (job : CompileJob) (w : World) :
    (∃ e, w.disk.canonicalize job.root = .error e ∧ (prepare job).run.run w = (.error (.file e), w)) ∨
    (∃ root, w.disk.canonicalize job.root = .ok root) ∧
      ((prepare job).run.run w).2 = opened job w := by
  unfold prepare opened
  rw [run_bind, Action.run_ask]
  rcases hroot : w.disk.canonicalize job.root with e | root
  · exact .inl ⟨e, rfl, rfl⟩
  refine .inr ⟨⟨root, rfl⟩, ?_⟩
  show ((Action.change (Disk.createDirectories job.outDir) >>= fun _ => _).run.run w).2 = _
  rw [run_bind, Action.run_change]
  rcases (Disk.createDirectories job.outDir).run.run w.disk with ⟨e | u, d⟩
  · rfl
  refine keeps_bind (P := fun w' : World => w' = ⟨d, w.notes⟩) ?_ (fun workDir => ?_) ⟨d, w.notes⟩ rfl
  · intro w' hw'
    rw [Action.run_ask]
    exact hw'
  · exact keeps_bind (keeps_enter job.format root workDir job.entries) fun _ => keeps_pure _

/-- A compilation fails before it compiles anything, or it leaves everything as it is that does not lie below the
directory of the output. -/
theorem compile_confined (transpile : Transpile) (job : CompileJob) (w : World) (hd : w.disk.Sound)
    (hhere : ∀ n ∈ w.disk.here, IsName n) {d : Disk}
    (hmade : ((Disk.createDirectories job.outDir).run.run w.disk).2 = d) :
    (∃ e w', (compile transpile job).run.run w = (.error e, w') ∧ (w'.disk = w.disk ∨ w'.disk = d)) ∨
    ∃ work e, d.find job.outDir = .ok (work, e) ∧
      (∃ root, w.disk.canonicalize job.root = .ok root ∧
        ∀ entry ∈ job.entries, ∃ source, d.canonicalize (root.join entry.2) = .ok source) ∧
      (∀ c, ((compile transpile job).run.run w).1 = .ok c → c.workDir = ofLocation work) ∧
      (w.disk.isFile job.root = false → d.Linkless work →
        ((compile transpile job).run.run w).2.disk.Sound ∧
          Disk.Filled (Disk.Under work) d ((compile transpile job).run.run w).2.disk) := by
  obtain ⟨hgrown, hsound⟩ := Disk.grown_createDirectories hd job.outDir
  rw [hmade] at hgrown hsound
  have hhere' : ∀ n ∈ d.here, IsName n := by rw [hgrown.here]; exact hhere
  have hstart := run_prepare job w
  rw [run_compile]
  unfold compileFor
  rw [run_bind]
  rcases hp : (prepare job).run.run w with ⟨f | ⟨root, workDir, entered⟩, w₁⟩
  · -- nothing was compiled
    unfold opened at hstart
    rw [hp, hmade] at hstart
    rcases hstart with ⟨e, -, he⟩ | ⟨-, he⟩
    · cases he
      exact .inl ⟨_, w, rfl, .inl rfl⟩
    · exact .inl ⟨f, w₁, rfl, .inr (congrArg World.disk he)⟩
  obtain ⟨hroot, hchange, hworkDir, hentered⟩ := gives_prepare hp
  obtain rfl : w₁.disk = d := by
    rw [← hmade, (Action.gives_change.1 hchange).1]
  obtain ⟨top, e, hfind, rfl⟩ := Disk.find_of_canonicalize hroot
  obtain ⟨work, ework, hfound, rfl⟩ := Disk.find_of_canonicalize hworkDir
  have htop := Disk.isName_of_find hhere hfind
  have hnames := Disk.isName_of_find hhere' hfound
  have hdir (hfile : w.disk.isFile job.root = false) : w₁.disk.entry? top = some .directory :=
    hgrown.kept.directory top (Disk.directory_of_find hd hfind hfile)
  have hsources : ∀ entry ∈ job.entries, ∃ source,
      w₁.disk.canonicalize ((ofLocation top).join entry.2) = .ok source := by
    intro entry hentry
    obtain ⟨i, hi, rfl⟩ := List.getElem_of_mem hentry
    have hlength := hentered.length_eq
    exact ⟨_, ((List.forall₂_iff_get.1 hentered).2 i hi (by omega)).2.1⟩
  refine .inr ⟨work, ework, hfound, ⟨_, hroot, hsources⟩, ?_⟩
  have hstack : ∀ s ∈ (entered.foldl (fun p e => p.reach e.2.1) (⟨[], []⟩ : Progress)).stack,
      ∃ l, s = ofLocation l ∧ ∀ n ∈ l, IsName n := by
    intro s hs
    obtain ⟨e, he, rfl⟩ := mem_stack_start hs
    obtain ⟨l, _, hl, hnames, -⟩ := located_of_entered hsound hhere' hentered e he
    exact ⟨l, hl, hnames⟩
  have hfilled (hfile : w.disk.isFile job.root = false) (hlinkless : w₁.disk.Linkless work) :=
    filled_compileAll htop hnames (hdir hfile) hlinkless transpile job.format
      (visitLimit job w.disk) hstack hhere' ⟨hsound, .refl _ _⟩
  dsimp only at hfilled ⊢
  rw [run_bind]
  rcases hall : (compileAll transpile (ofLocation top) (ofLocation work) job.format
    (visitLimit job w.disk) (entered.foldl (fun p e => p.reach e.2.1) ⟨[], []⟩)).run.run w₁ with
    ⟨f | u, w₂⟩
  · rw [hall] at hfilled ⊢
    exact ⟨fun _ h => (nomatch h), hfilled⟩
  · rw [hall] at hfilled ⊢
    dsimp only
    split
    · exact ⟨fun _ h => (nomatch h), hfilled⟩
    · exact ⟨fun c h => by cases h; rfl, hfilled⟩

end Stowage.Compile
