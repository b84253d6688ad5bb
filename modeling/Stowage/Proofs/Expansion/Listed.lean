/-
What the visit of one module root adds to an expansion. The files and links that a root holds are said
without the expansion so far: adding them adds these and no others, and leaves the rest as it is.
-/
import Stowage.Expansion
import Stowage.Proofs.Project
import Stowage.Proofs.Steps

open Stowage.Path

namespace Stowage

open Manifests

namespace Expand

/-! ## Steps of an expansion -/

section
variable {α : Type}

theorem run_ask (q : Query α) (st : Expansion.State) : (ask q).run.run st =
    (q.answer st.manifests, { st with manifests := q.after st.manifests }) := rfl

theorem gives_ask {q : Query α} {a : α} {st st' : Expansion.State} :
    Gives (ask q) st a st' ↔
      q.answer st.manifests = .ok a ∧ st' = { st with manifests := q.after st.manifests } := by
  unfold Gives
  show (q.answer st.manifests, { st with manifests := q.after st.manifests }) = (_, _) ↔ _
  rw [Prod.mk.injEq, @eq_comm _ _ st']

theorem gives_change {f : Expansion → Expansion} {u : Unit} {st st' : Expansion.State} :
    Gives (change f) st u st' ↔ st' = { st with expansion := f st.expansion } := gives_modify

end

variable (project : Project) (d : Disk) (known : Manifests)

/-! ## What a root holds -/

/-- Where the files of a module root are looked for, and the patterns that leave some out. -/
def Starts (root : Path) (m : Manifest) (negated : List Glob.Pattern) (start : Path) : Prop :=
  match m.files with
  | some patterns => ∃ paths, matched d root patterns = .ok (negated, paths) ∧ start ∈ paths
  | none => negated = [] ∧ start = root

/-- The manifest of a module root lists a path, which is of the given type. -/
def Lists (root : Path) (m : Manifest) (type : EntryType) (path : Path) : Prop :=
  ∃ negated start tree, Starts d root m negated start ∧ d.tree start = .ok tree ∧
    (path, type) ∈ tree ∧ isOmitted root negated path = false

/-- The files that a module root brings in. -/
inductive Holds (root : Path) (m : Manifest) : Path → Prop
  | listed {path : Path} (h : Lists d root m .file path) : Holds root m path
  | manifest : Holds root m (root / manifestName)
  | main {path : Path}
      (h : (project.resolve d root (mainSpecifier m)).answer known = .ok (.file path))
      (inside : path.startsWith root = true) : Holds root m path

/-! ## Adding -/

/-- The expansion goes on from `x` to `x'`: the files in `F` and the links in `L` are added. -/
structure Adds (x x' : Expansion) (F L : Path → Prop) : Prop where
  files : ∀ n, n ∈ x'.files ↔ n ∈ x.files ∨ ∃ p, F p ∧ project.relative p = .ok n
  extras : ∀ n, n ∈ x'.extras ↔ n ∈ x.extras ∨ ∃ p, L p ∧ project.relative p = .ok n
  named : ∀ p, F p ∨ L p → ∃ n, project.relative p = .ok n
  visited : x'.visited = x.visited
  warnings : x'.warnings = x.warnings

/-- Whatever manifests were read before, the step adds the files in `F` and the links in `L`. -/
def Adding {α : Type} (x : Expand α) (F L : Path → Prop) : Prop :=
  ∀ st a st', Extends d known st.manifests → Gives x st a st' →
    Extends d known st'.manifests ∧ Adds project st.expansion st'.expansion F L

abbrev NoPath : Path → Prop := fun _ => False

variable {project d known} {α β : Type} {F F' L L' : Path → Prop}

theorem adds_refl (x : Expansion) : Adds project x x NoPath NoPath :=
  ⟨by simp, by simp, by simp, rfl, rfl⟩

theorem Adds.trans {x x' x'' : Expansion} (h : Adds project x x' F L)
    (h' : Adds project x' x'' F' L') :
    Adds project x x'' (fun p => F p ∨ F' p) (fun p => L p ∨ L' p) := by
  refine ⟨fun n => ?_, fun n => ?_, ?_, h'.visited.trans h.visited, h'.warnings.trans h.warnings⟩
  · rw [h'.files, h.files, or_assoc, ← exists_or]
    simp only [or_and_right]
  · rw [h'.extras, h.extras, or_assoc, ← exists_or]
    simp only [or_and_right]
  · rintro p ((hp | hp) | (hp | hp))
    · exact h.named p (.inl hp)
    · exact h'.named p (.inl hp)
    · exact h.named p (.inr hp)
    · exact h'.named p (.inr hp)

theorem Adding.congr {x : Expand α} (h : Adding project d known x F L) (hF : ∀ p, F p ↔ F' p)
    (hL : ∀ p, L p ↔ L' p) : Adding project d known x F' L' := by
  have hF' : F = F' := funext fun p => propext (hF p)
  have hL' : L = L' := funext fun p => propext (hL p)
  exact hF' ▸ hL' ▸ h

theorem adding_pure (a : α) : Adding project d known (pure a) NoPath NoPath := by
  intro st b st' he h
  obtain ⟨-, rfl⟩ := gives_pure.1 h
  exact ⟨he, adds_refl _⟩

theorem adding_bind {x : Expand α} {k : α → Expand β} (h : Adding project d known x F L)
    (hk : ∀ a, Adding project d known (k a) F' L') :
    Adding project d known (x >>= k) (fun p => F p ∨ F' p) (fun p => L p ∨ L' p) := by
  intro st b st'' he hb
  obtain ⟨a, st', ha, hka⟩ := gives_bind.1 hb
  obtain ⟨he', hx⟩ := h st a st' he ha
  obtain ⟨he'', hy⟩ := hk a st' b st'' he' hka
  exact ⟨he'', hx.trans hy⟩

/-- A step that goes on with the answer to a steady question. -/
theorem adding_ask {q : Query α} {k : α → Expand β} (hq : Steady d known q)
    (hk : ∀ a, q.answer known = .ok a → Adding project d known (k a) F L) :
    Adding project d known (ask q >>= k) F L := by
  intro st b st'' he hb
  obtain ⟨a, st', hask, hka⟩ := gives_bind.1 hb
  obtain ⟨ha, rfl⟩ := gives_ask.1 hask
  exact hk a ((hq.answer_eq he).symm.trans ha)
    { st with manifests := q.after st.manifests } b st'' (hq.left he) hka

theorem adding_ofExcept {r : Except Error α} {k : α → Expand β}
    (hk : ∀ a, r = .ok a → Adding project d known (k a) F L) :
    Adding project d known (ofExcept r >>= k) F L :=
  adding_ask (steady_ofExcept r) fun a ha => hk a ((Query.answer_ofExcept known r).symm.trans ha)

theorem adding_forM {f : α → Expand Unit} {l : List α} {F L : α → Path → Prop}
    (h : ∀ a ∈ l, Adding project d known (f a) (F a) (L a)) :
    Adding project d known (l.forM f) (fun p => ∃ a ∈ l, F a p) (fun p => ∃ a ∈ l, L a p) := by
  induction l with
  | nil => exact (adding_pure ()).congr (by simp) (by simp)
  | cons a l ih =>
    refine (adding_bind (h a (List.mem_cons_self ..)) fun _ =>
      ih fun b hb => h b (List.mem_cons_of_mem _ hb)).congr (by simp) (by simp)

theorem adding_addFile (path : Path) :
    Adding project d known (addFile project path) (fun p => p = path) NoPath := by
  refine adding_ofExcept fun n hn st a st' he h => ?_
  rw [gives_change.1 h]
  refine ⟨he, fun m => ?_, by simp, ?_, rfl, rfl⟩
  · simp only [Names.mem_insert, exists_eq_left, hn, Except.ok.injEq]
    rw [or_comm, @eq_comm _ m]
  · rintro p (rfl | hf)
    · exact ⟨n, hn⟩
    · exact hf.elim

theorem adding_addLink (path : Path) :
    Adding project d known (addLink project path) NoPath (fun p => p = path) := by
  refine adding_ofExcept fun n hn st a st' he h => ?_
  rw [gives_change.1 h]
  refine ⟨he, by simp, fun m => ?_, ?_, rfl, rfl⟩
  · simp only [Names.mem_insert, exists_eq_left, hn, Except.ok.injEq]
    rw [or_comm, @eq_comm _ m]
  · rintro p (hf | rfl)
    · exact hf.elim
    · exact ⟨n, hn⟩

/-! ## The files of a root -/

theorem adding_addEntry (root : Path) (negated : List Glob.Pattern) (entry : Path × EntryType) :
    Adding project d known (addEntry project root negated entry)
      (fun p => isOmitted root negated p = false ∧ entry = (p, .file))
      (fun p => isOmitted root negated p = false ∧ entry = (p, .link)) := by
  obtain ⟨path, type⟩ := entry
  unfold addEntry
  dsimp only
  split
  · rename_i ho
    refine (adding_pure ()).congr (fun p => ⟨False.elim, ?_⟩) fun p => ⟨False.elim, ?_⟩ <;>
      · rintro ⟨hp, he⟩
        cases he
        rw [ho] at hp
        cases hp
  · rename_i ho
    have ho' := Bool.eq_false_of_not_eq_true ho
    rcases type with _ | _ | _
    · refine (adding_addFile path).congr (fun p => ⟨?_, ?_⟩) (by simp)
      · rintro rfl; exact ⟨ho', rfl⟩
      · rintro ⟨-, he⟩; cases he; rfl
    · refine (adding_addLink path).congr (by simp) fun p => ⟨?_, ?_⟩
      · rintro rfl; exact ⟨ho', rfl⟩
      · rintro ⟨-, he⟩; cases he; rfl
    · exact (adding_pure ()).congr (by simp) (by simp)

theorem adding_addAt (root : Path) (negated : List Glob.Pattern) (start : Path) :
    Adding project d known (addAt project d root negated start)
      (fun p => ∃ tree, d.tree start = .ok tree ∧ (p, .file) ∈ tree ∧
        isOmitted root negated p = false)
      (fun p => ∃ tree, d.tree start = .ok tree ∧ (p, .link) ∈ tree ∧
        isOmitted root negated p = false) := by
  refine adding_ask (steady_ofDisk _) fun tree ht => ?_
  rw [Query.answer_ofDisk] at ht
  rcases hd : d.tree start with e | tree'
  · rw [hd] at ht; cases ht
  · rw [hd] at ht
    cases ht
    refine (adding_forM fun entry _ => adding_addEntry root negated entry).congr
      (fun p => ?_) fun p => ?_
    · simp only [Except.ok.injEq, exists_eq_left']
      exact ⟨fun ⟨_, hm, ho, he⟩ => ⟨he ▸ hm, ho⟩, fun ⟨hm, ho⟩ => ⟨_, hm, ho, rfl⟩⟩
    · simp only [Except.ok.injEq, exists_eq_left']
      exact ⟨fun ⟨_, hm, ho, he⟩ => ⟨he ▸ hm, ho⟩, fun ⟨hm, ho⟩ => ⟨_, hm, ho, rfl⟩⟩

theorem adding_addAll (root : Path) (m : Manifest) :
    Adding project d known (addAll project d root m) (Lists d root m .file)
      (Lists d root m .link) := by
  unfold addAll
  split
  · rename_i patterns hfiles
    refine adding_ofExcept fun r hr => ?_
    obtain ⟨negated, paths⟩ := r
    have hstarts : ∀ n start, Starts d root m n start ↔ n = negated ∧ start ∈ paths := by
      intro n start
      unfold Starts
      rw [hfiles]
      simp only [hr, Except.ok.injEq, Prod.mk.injEq]
      constructor
      · rintro ⟨_, ⟨rfl, rfl⟩, hs⟩; exact ⟨rfl, hs⟩
      · rintro ⟨rfl, hs⟩; exact ⟨paths, ⟨rfl, rfl⟩, hs⟩
    refine (adding_forM fun start _ => adding_addAt root negated start).congr
      (fun p => ?_) fun p => ?_ <;>
    · simp only [Lists, hstarts]
      constructor
      · rintro ⟨start, hs, tree, ht⟩; exact ⟨negated, start, tree, ⟨rfl, hs⟩, ht⟩
      · rintro ⟨_, start, tree, ⟨rfl, hs⟩, ht⟩; exact ⟨start, hs, tree, ht⟩
  · rename_i hfiles
    have hstarts : ∀ n start, Starts d root m n start ↔ n = [] ∧ start = root := by
      intro n start
      unfold Starts
      rw [hfiles]
    refine (adding_addAt root [] root).congr (fun p => ?_) fun p => ?_ <;>
    · simp only [Lists, hstarts]
      constructor
      · rintro ⟨tree, ht⟩; exact ⟨[], root, tree, ⟨rfl, rfl⟩, ht⟩
      · rintro ⟨_, _, tree, ⟨rfl, rfl⟩, ht⟩; exact ⟨tree, ht⟩

theorem adding_addMain (hs : Fixed d known project.resolver) (root : Path) (m : Manifest) :
    Adding project d known (addMain project d root m)
      (fun p => (project.resolve d root (mainSpecifier m)).answer known = .ok (.file p) ∧
        p.startsWith root = true) NoPath := by
  refine adding_ask (steady_outcome (Project.settled_resolve hs _ _).steady) fun r hr => ?_
  rw [Query.answer_outcome] at hr
  cases hr
  split
  · rename_i path hpath
    rw [hpath]
    simp only [Except.ok.injEq, Resolution.file.injEq]
    split
    · rename_i hin
      refine (adding_addFile path).congr (fun p => ⟨?_, ?_⟩) fun _ => Iff.rfl
      · rintro rfl; exact ⟨rfl, hin⟩
      · rintro ⟨rfl, -⟩; rfl
    · rename_i hout
      refine (adding_pure ()).congr (fun p => ⟨False.elim, ?_⟩) fun _ => Iff.rfl
      rintro ⟨rfl, hin⟩
      exact hout hin
  · rename_i hno
    refine (adding_pure ()).congr (fun p => ⟨False.elim, fun h => hno p h.1⟩) fun _ => Iff.rfl

/-- Visiting a module root adds the files that it holds and the links that it lists. -/
theorem adding_addListed (hs : Fixed d known project.resolver) (root : Path) (m : Manifest) :
    Adding project d known (addListed project d root m) (Holds project d known root m)
      (Lists d root m .link) := by
  refine (adding_bind (adding_addAll root m) fun _ => adding_bind (adding_addFile _) fun _ =>
    adding_addMain hs root m).congr (fun p => ⟨?_, ?_⟩) fun p => by simp only [or_false]
  · rintro (h | rfl | ⟨h, hin⟩)
    · exact .listed h
    · exact .manifest
    · exact .main h hin
  · rintro (h | _ | ⟨h, hin⟩)
    · exact .inl h
    · exact .inr (.inl rfl)
    · exact .inr (.inr ⟨h, hin⟩)

/-- The package `name` is installed for `base` at a link. -/
def IsPlace (d : Disk) (name : String) (base place : Path) : Prop :=
  Package.locate d name base = some place ∧ d.isLink place = true

theorem adding_addPlace (name : String) (base : Path) :
    Adding project d known (addPlace project d name base) NoPath (IsPlace d name base) := by
  unfold addPlace
  split
  · rename_i place hplace
    split
    · rename_i hlink
      refine (adding_addLink place).congr (fun _ => Iff.rfl) fun p => ⟨?_, ?_⟩
      · rintro rfl; exact ⟨hplace, hlink⟩
      · rintro ⟨hp, -⟩
        rw [hplace] at hp
        exact (Option.some.inj hp).symm
    · rename_i hlink
      refine (adding_pure ()).congr (fun _ => Iff.rfl) fun p => ⟨False.elim, ?_⟩
      rintro ⟨hp, hl⟩
      rw [hplace] at hp
      cases hp
      exact hlink hl
  · rename_i hplace
    refine (adding_pure ()).congr (fun _ => Iff.rfl) fun p => ⟨False.elim, ?_⟩
    rintro ⟨hp, -⟩
    rw [hplace] at hp
    cases hp

end Expand
end Stowage
