/-
Questions and the manifests that are known. A question may read manifests that later questions are
answered from; as long as the disk stays as it is this changes no answer. Two questions agree if they
have related answers whatever was read before, and a steady question agrees with itself.
-/
import Stowage.Package.Manifests
import Stowage.Proofs.Disk.Walk
import Stowage.Proofs.Steps

namespace Stowage

/-! ## Answers -/

theorem ok_of_toOption {ε α : Type} {r : Except ε α} {a : α} (h : r.toOption = some a) :
    r = .ok a := by
  rcases r with e | b
  · cases h
  · exact congrArg Except.ok (Option.some.inj h)

theorem exists_ok_of_toOption {ε α β : Type} {r : Except ε α} {f : α → β} {b : β}
    (h : r.toOption.map f = some b) : ∃ a, r = .ok a ∧ f a = b := by
  rcases r with e | a
  · cases h
  · exact ⟨a, rfl, Option.some.inj h⟩

namespace Query

variable {α β : Type} (ms : Manifests)

/-- The answer to a question when some manifests are known. -/
def answer (q : Query α) : Except Error α := (q.run.run ms).1

/-- The manifests that are known after a question. -/
def after (q : Query α) : Manifests := (q.run.run ms).2

theorem run_eq (q : Query α) : q.run.run ms = (q.answer ms, q.after ms) := rfl

@[simp] theorem answer_ofExcept (r : Except Error α) : (ofExcept r).answer ms = r := by
  rcases r with e | a <;> rfl

@[simp] theorem after_ofExcept (r : Except Error α) : (ofExcept r).after ms = ms := by
  rcases r with e | a <;> rfl

@[simp] theorem answer_ofDisk (r : Except FileFault α) :
    (ofDisk r).answer ms = r.mapError Error.file := by
  rcases r with e | a <;> rfl

theorem run_bind (q : Query α) (k : α → Query β) : (q >>= k).run.run ms = match q.answer ms with
    | .ok a => (k a).run.run (q.after ms)
    | .error e => (.error e, q.after ms) := by
  rw [Stowage.run_bind, run_eq]
  rcases q.answer ms <;> rfl

theorem answer_bind (q : Query α) (k : α → Query β) : (q >>= k).answer ms = match q.answer ms with
    | .ok a => (k a).answer (q.after ms)
    | .error e => .error e := by
  unfold answer
  rw [run_bind]
  unfold answer
  rcases (q.run.run ms).1 <;> rfl

theorem after_bind (q : Query α) (k : α → Query β) : (q >>= k).after ms = match q.answer ms with
    | .ok a => (k a).after (q.after ms)
    | .error _ => q.after ms := by
  unfold after
  rw [run_bind]
  rcases q.answer ms <;> rfl

theorem run_tryCatch (q : Query α) (k : Error → Query α) :
    (tryCatch q k).run.run ms = match q.answer ms with
      | .ok a => (.ok a, q.after ms)
      | .error e => (k e).run.run (q.after ms) := by
  rw [Stowage.run_tryCatch, run_eq]
  rcases q.answer ms <;> rfl

theorem answer_tryCatch (q : Query α) (k : Error → Query α) :
    (tryCatch q k).answer ms = match q.answer ms with
      | .ok a => .ok a
      | .error e => (k e).answer (q.after ms) := by
  unfold answer
  rw [run_tryCatch]
  unfold answer
  rcases (q.run.run ms).1 <;> rfl

theorem after_tryCatch (q : Query α) (k : Error → Query α) :
    (tryCatch q k).after ms = match q.answer ms with
      | .ok _ => q.after ms
      | .error e => (k e).after (q.after ms) := by
  unfold after
  rw [run_tryCatch]
  rcases q.answer ms <;> rfl

theorem run_outcome (q : Query α) : (outcome q).run.run ms = (.ok (q.answer ms), q.after ms) := by
  unfold outcome
  rw [run_tryCatch, answer_bind, after_bind]
  rcases q.answer ms <;> rfl

@[simp] theorem answer_outcome (q : Query α) : (outcome q).answer ms = .ok (q.answer ms) :=
  congrArg Prod.fst (run_outcome ms q)

@[simp] theorem after_outcome (q : Query α) : (outcome q).after ms = q.after ms :=
  congrArg Prod.snd (run_outcome ms q)

end Query

/-! ## Manifests in memory and on the disk -/

/-- A manifest apart from where it was read. -/
def Manifest.facts (m : Manifest) : Manifest := { m with path := ⟨""⟩ }

/-- Manifests that say the same differ in where they were read. -/
theorem Manifest.eq_of_facts {m m' : Manifest} (h : m.facts = m'.facts) :
    m' = { m with path := m'.path } := by
  cases m
  cases m'
  simp only [facts, Manifest.mk.injEq] at h
  simp [h]

/-- Two manifests that say the same, or none both times. -/
def SameFacts (m m' : Option Manifest) : Prop := m.map Manifest.facts = m'.map Manifest.facts

theorem SameFacts.cases {m m' : Option Manifest} (h : SameFacts m m') :
    (m = none ∧ m' = none) ∨ ∃ x p, m = some x ∧ m' = some { x with path := p } := by
  unfold SameFacts at h
  rcases m with _ | x <;> rcases m' with _ | y
  · exact .inl ⟨rfl, rfl⟩
  · cases h
  · cases h
  · exact .inr ⟨x, y.path, rfl, congrArg some (Manifest.eq_of_facts (Option.some.inj h))⟩

namespace Manifests

variable (d : Disk)

theorem lookup?_insert (ms : Manifests) (p q : Path) (m : Option Manifest) :
    (ms.insert p m).lookup? q = (ms.lookup? q).or (if p.same q then some m else none) := by
  unfold lookup? insert
  rw [List.find?_append, Option.map_or, List.find?_singleton]
  by_cases h : p.same q = true <;> simp [h]

/-- The location is spelled so that its manifest is the one of every spelling. -/
def Loadable (p : Path) : Prop := p.IsPlain ∨ d.isDirectory p = true

theorem parse_facts (p q : Path) {text : String} {m : Manifest} (h : Manifest.parse p text = .ok m) :
    ∃ m', Manifest.parse q text = .ok m' ∧ m.facts = m'.facts := by
  unfold Manifest.parse at h ⊢
  split at h
  · rename_i m' hm'
    cases h
    exact ⟨_, rfl, rfl⟩
  · cases h

theorem isPiece_manifestName : Path.IsPiece manifestName := ⟨by decide, by decide, by decide⟩

/-- A location that is called like a manifest is no directory, or holds no manifest. -/
theorem readAt_of_isDirectory {p : Path} (hp : d.isDirectory p = true)
    (hn : p.fileName = some manifestName) : readAt d p = .ok none := by
  unfold readAt manifestPath
  simp only [if_pos hn, d.isFile_eq_false_of_isDirectory hp]; rfl

/-- Below two spellings of one location, if it is no manifest itself, there is one manifest. -/
theorem find_manifestPath {p q : Path} (h : p.same q = true) (hn : p.fileName ≠ some manifestName) :
    d.find (manifestPath p) = d.find (manifestPath q) := by
  have hn' : q.fileName ≠ some manifestName := Path.fileName_of_same h ▸ hn
  unfold manifestPath Disk.find
  rw [if_neg hn, if_neg hn', d.locate_join h isPiece_manifestName]

/-- Where the manifests of two locations lead to the same place they say the same. -/
theorem readAt_of_find {p q : Path} (hl : d.find (manifestPath p) = d.find (manifestPath q)) {m : Option Manifest}
    (hm : readAt d p = .ok m) : ∃ m', readAt d q = .ok m' ∧ SameFacts m m' := by
  have hf : d.isFile (manifestPath q) = d.isFile (manifestPath p) := by
    unfold Disk.isFile; rw [hl]
  have hr : d.readText (manifestPath q) = d.readText (manifestPath p) := by
    unfold Disk.readText Disk.read; rw [hl]
  dsimp only [readAt] at hm ⊢
  rw [hf, hr]
  split at hm
  · rename_i hfile
    rw [if_pos hfile]
    split at hm
    · rename_i text htext
      rcases hparse : Manifest.parse (manifestPath p) text with e | m₀
      · rw [hparse] at hm; cases hm
      · rw [hparse] at hm
        cases hm
        obtain ⟨m', hm', hfacts⟩ := parse_facts (manifestPath p) (manifestPath q) hparse
        exact ⟨some m', congrArg (Except.map some) hm', congrArg some hfacts⟩
    · cases hm
  · rename_i hfile
    rw [if_neg hfile]
    cases hm
    exact ⟨none, rfl, rfl⟩

theorem readAt_of_same {p q : Path} (hp : Loadable d p) (hq : Loadable d q) (h : p.same q = true)
    {m : Option Manifest} (hm : readAt d p = .ok m) : ∃ m', readAt d q = .ok m' ∧ SameFacts m m' := by
  by_cases hn : p.fileName = some manifestName
  · have hn' : q.fileName = some manifestName := Path.fileName_of_same h ▸ hn
    by_cases hd : d.isDirectory p = true
    · rw [readAt_of_isDirectory d hd hn] at hm
      cases hm
      exact ⟨none, readAt_of_isDirectory d (d.isDirectory_of_same h hd) hn', rfl⟩
    · have hd' : d.isDirectory q ≠ true := fun hd' =>
        hd (d.isDirectory_of_same (Path.same_symm h) hd')
      have he := Path.eq_of_same_of_isPlain (hp.resolve_right hd) (hq.resolve_right hd') h
      exact ⟨m, he ▸ hm, rfl⟩
  · exact readAt_of_find d (find_manifestPath d h hn) hm

/-- Some manifests are those that were known, with others that were read from the disk. -/
structure Extends (known ms : Manifests) : Prop where
  kept : ∀ {p m}, known.lookup? p = some m → ms.lookup? p = some m
  read : ∀ {p m}, known.lookup? p = none → ms.lookup? p = some m →
    ∃ q, Loadable d q ∧ q.same p = true ∧ readAt d q = .ok m

variable {d} {known : Manifests}

theorem extends_refl (known : Manifests) : Extends d known known :=
  ⟨id, fun h h' => by rw [h] at h'; cases h'⟩

theorem extends_insert {ms : Manifests} (h : Extends d known ms) {p : Path} (hp : Loadable d p)
    {m : Option Manifest} (hm : readAt d p = .ok m) : Extends d known (ms.insert p m) := by
  refine ⟨fun hk => ?_, fun hk hq => ?_⟩
  · rw [lookup?_insert, h.kept hk]; rfl
  · rename_i q m'
    rw [lookup?_insert] at hq
    rcases hl : ms.lookup? q with _ | m''
    · rw [hl] at hq
      by_cases hs : p.same q = true
      · rw [if_pos hs] at hq
        cases hq
        exact ⟨p, hp, hs, hm⟩
      · rw [if_neg hs] at hq; cases hq
    · rw [hl] at hq
      cases hq
      exact h.read hk hl

theorem run_load (d : Disk) (ms : Manifests) (p : Path) :
    (load d p).run.run ms = match ms.lookup? p with
      | some m => (.ok m, ms)
      | none => match readAt d p with
        | .ok m => (.ok m, ms.insert p m)
        | .error e => (.error e, ms) := by
  show (match ms.lookup? p with | some _ => _ | none => _ : Query _).run.run ms = _
  rcases ms.lookup? p with _ | m
  · rcases readAt d p with e | m <;> rfl
  · rfl

/-- Loading a manifest fails with what reading it fails with. -/
theorem fails_load {P : Error → Prop} {d : Disk} {p : Path} (h : ∀ e, readAt d p = .error e → P e) :
    Fails P (load d p) := by
  intro ms e he
  rw [run_load] at he
  split at he
  · cases he
  · split at he
    · cases he
    · rename_i hread
      cases he
      exact h e hread

end Manifests

/-! ## Agreement -/

/-- Related values, or the same error. -/
inductive Matches {α β : Type} (R : α → β → Prop) : Except Error α → Except Error β → Prop
  | ok {a : α} {b : β} (h : R a b) : Matches R (.ok a) (.ok b)
  | error (e : Error) : Matches R (.error e) (.error e)

theorem Matches.cases {α β : Type} {R : α → β → Prop} {r : Except Error α} {r' : Except Error β}
    (h : Matches R r r') :
    (∃ a b, r = .ok a ∧ r' = .ok b ∧ R a b) ∨ ∃ e, r = .error e ∧ r' = .error e := by
  cases h with
  | ok h => exact .inl ⟨_, _, rfl, rfl, h⟩
  | error e => exact .inr ⟨e, rfl, rfl⟩

theorem matches_eq {α : Type} {r r' : Except Error α} : Matches Eq r r' ↔ r = r' := by
  constructor
  · rintro (⟨rfl⟩ | e) <;> rfl
  · rintro rfl
    rcases r with e | a
    · exact .error e
    · exact .ok rfl

open Manifests Query

/-- Two questions have related answers and leave related manifests, whatever was read before. -/
structure Agree (d : Disk) (known : Manifests) {α β : Type} (R : α → β → Prop) (q : Query α)
    (q' : Query β) : Prop where
  answers : ∀ {ms ms'}, Extends d known ms → Extends d known ms' →
    Matches R (q.answer ms) (q'.answer ms')
  left : ∀ {ms}, Extends d known ms → Extends d known (q.after ms)
  right : ∀ {ms}, Extends d known ms → Extends d known (q'.after ms)

/-- The answer to the question does not depend on what was read before. -/
abbrev Steady (d : Disk) (known : Manifests) {α : Type} (q : Query α) : Prop := Agree d known Eq q q

/-- The question is steady, and all it is answered by satisfies `P`. -/
abbrev Settled (d : Disk) (known : Manifests) {α : Type} (P : α → Prop) (q : Query α) : Prop :=
  Agree d known (fun a b => a = b ∧ P a) q q

section
variable {d : Disk} {known : Manifests} {α β γ δ : Type} {R : α → β → Prop} {S : γ → δ → Prop}

theorem agree_pure {a : α} {b : β} (h : R a b) : Agree d known R (pure a) (pure b) :=
  ⟨fun _ _ => .ok h, id, id⟩

theorem agree_throw (e : Error) : Agree d known R (throw e) (throw e) :=
  ⟨fun _ _ => .error e, id, id⟩

theorem agree_bind {q : Query α} {q' : Query β} {k : α → Query γ} {k' : β → Query δ}
    (h : Agree d known R q q') (hk : ∀ a b, R a b → Agree d known S (k a) (k' b)) :
    Agree d known S (q >>= k) (q' >>= k') := by
  refine ⟨fun {ms ms'} he he' => ?_, fun {ms} he => ?_, fun {ms} he => ?_⟩
  · rw [Query.answer_bind, Query.answer_bind]
    obtain ⟨a, b, ha, hb, hab⟩ | ⟨e, ha, hb⟩ := (h.answers he he').cases
    · rw [ha, hb]
      exact (hk a b hab).answers (h.left he) (h.right he')
    · rw [ha, hb]
      exact .error e
  · rw [after_bind]
    obtain ⟨a, b, ha, -, hab⟩ | ⟨e, ha, -⟩ := (h.answers he (extends_refl known)).cases
    · rw [ha]
      exact (hk a b hab).left (h.left he)
    · rw [ha]
      exact h.left he
  · rw [after_bind]
    obtain ⟨a, b, -, hb, hab⟩ | ⟨e, -, hb⟩ := (h.answers (extends_refl known) he).cases
    · rw [hb]
      exact (hk a b hab).right (h.right he)
    · rw [hb]
      exact h.right he

theorem agree_tryCatch {q : Query α} {q' : Query β} {k : Error → Query α} {k' : Error → Query β}
    (h : Agree d known R q q') (hk : ∀ e, Agree d known R (k e) (k' e)) :
    Agree d known R (tryCatch q k) (tryCatch q' k') := by
  refine ⟨fun {ms ms'} he he' => ?_, fun {ms} he => ?_, fun {ms} he => ?_⟩
  · rw [answer_tryCatch, answer_tryCatch]
    obtain ⟨a, b, ha, hb, hab⟩ | ⟨e, ha, hb⟩ := (h.answers he he').cases
    · rw [ha, hb]
      exact .ok hab
    · rw [ha, hb]
      exact (hk e).answers (h.left he) (h.right he')
  · rw [after_tryCatch]
    obtain ⟨a, b, ha, -, -⟩ | ⟨e, ha, -⟩ := (h.answers he (extends_refl known)).cases
    · rw [ha]
      exact h.left he
    · rw [ha]
      exact (hk e).left (h.left he)
  · rw [after_tryCatch]
    obtain ⟨a, b, -, hb, -⟩ | ⟨e, -, hb⟩ := (h.answers (extends_refl known) he).cases
    · rw [hb]
      exact h.right he
    · rw [hb]
      exact (hk e).right (h.right he)

theorem agree_outcome {q : Query α} {q' : Query β} (h : Agree d known R q q') :
    Agree d known (Matches R) (outcome q) (outcome q') := by
  refine ⟨fun {ms ms'} he he' => ?_, fun {ms} he => ?_, fun {ms} he => ?_⟩
  · rw [answer_outcome, answer_outcome]
    exact .ok (h.answers he he')
  · rw [after_outcome]
    exact h.left he
  · rw [after_outcome]
    exact h.right he

theorem agree_mono {R' : α → β → Prop} {q : Query α} {q' : Query β} (h : Agree d known R q q')
    (hR : ∀ a b, R a b → R' a b) : Agree d known R' q q' := by
  refine ⟨fun he he' => ?_, h.left, h.right⟩
  obtain ⟨a, b, ha, hb, hab⟩ | ⟨e, ha, hb⟩ := (h.answers he he').cases
  · rw [ha, hb]
    exact .ok (hR a b hab)
  · rw [ha, hb]
    exact .error e

/-- Reading a manifest gives what it says, whatever was read before. -/
theorem agree_load {p : Path} (hp : Loadable d p) :
    Agree d known SameFacts (load d p) (load d p) := by
  -- what a state that extends the known manifests answers
  have hfound : ∀ {ms}, Extends d known ms → known.lookup? p = none →
      (∃ m, readAt d p = .ok m ∧ ∃ m', (load d p).answer ms = .ok m' ∧ SameFacts m m') ∨
      ∃ e, readAt d p = .error e ∧ (load d p).answer ms = .error e := by
    intro ms he hk
    unfold answer
    rw [run_load]
    rcases hl : ms.lookup? p with _ | m
    · rcases hr : readAt d p with e | m
      · exact .inr ⟨e, rfl, rfl⟩
      · exact .inl ⟨m, rfl, m, rfl, rfl⟩
    · obtain ⟨q, hq, hs, hm⟩ := he.read hk hl
      obtain ⟨m', hm', hf⟩ := readAt_of_same d hq hp hs hm
      exact .inl ⟨m', hm', m, rfl, hf.symm⟩
  have hleft : ∀ {ms}, Extends d known ms → Extends d known ((load d p).after ms) := by
    intro ms he
    unfold after
    rw [run_load]
    rcases hl : ms.lookup? p with _ | m
    · rcases hr : readAt d p with e | m
      · exact he
      · exact extends_insert he hp hr
    · exact he
  refine ⟨fun {ms ms'} he he' => ?_, hleft, hleft⟩
  rcases hk : known.lookup? p with _ | m
  · rcases hfound he hk with ⟨m, hm, m₁, h1, hf1⟩ | ⟨e, hr, h1⟩
    · rcases hfound he' hk with ⟨m', hm', m₂, h2, hf2⟩ | ⟨e, hr, -⟩
      · rw [h1, h2]
        rw [hm] at hm'
        cases hm'
        exact .ok (hf1.symm.trans hf2)
      · rw [hm] at hr; cases hr
    · rcases hfound he' hk with ⟨m', hm', -⟩ | ⟨e', hr', h2⟩
      · rw [hr] at hm'; cases hm'
      · rw [h1, h2]
        rw [hr] at hr'
        cases hr'
        exact .error e
  · unfold answer
    rw [run_load, run_load, he.kept hk, he'.kept hk]
    exact .ok rfl

/-! ### Steady questions -/

theorem steady_ofExcept (r : Except Error α) : Steady d known (Query.ofExcept r) := by
  rcases r with e | a
  · exact agree_throw e
  · exact agree_pure rfl

theorem steady_ofDisk (r : Except FileFault α) : Steady d known (ofDisk r) := by
  rcases r with e | a
  · exact agree_throw _
  · exact agree_pure rfl

theorem steady_bind {q : Query α} {k : α → Query γ} (h : Steady d known q)
    (hk : ∀ a, Steady d known (k a)) : Steady d known (q >>= k) :=
  agree_bind h fun a _ hab => hab ▸ hk a

theorem steady_outcome {q : Query α} (h : Steady d known q) : Steady d known (outcome q) :=
  agree_mono (agree_outcome h) fun _ _ => matches_eq.1

theorem Agree.steady {P : α → Prop} {q : Query α} (h : Settled d known P q) : Steady d known q :=
  agree_mono h fun _ _ hab => hab.1

theorem Agree.holds {P : α → Prop} {q : Query α} (h : Settled d known P q) {a : α}
    (ha : q.answer known = .ok a) : P a := by
  obtain ⟨b, c, hb, -, -, hP⟩ | ⟨e, he, -⟩ :=
    (h.answers (extends_refl known) (extends_refl known)).cases
  · rw [ha] at hb
    cases hb
    exact hP
  · rw [ha] at he; cases he

theorem settled_bind {P : α → Prop} {q : Query α} {k : α → Query γ} {S : γ → γ → Prop}
    (h : Settled d known P q) (hk : ∀ a, P a → Agree d known S (k a) (k a)) :
    Agree d known S (q >>= k) (q >>= k) :=
  agree_bind h fun a _ hab => hab.1 ▸ hk a hab.2

theorem steady_load_bind {p : Path} (hp : Loadable d p) {k : Option Manifest → Query γ}
    (hk : ∀ m m', SameFacts m m' → Agree d known Eq (k m) (k m')) : Steady d known (load d p >>= k) :=
  agree_bind (agree_load hp) hk

/-- Whatever was read before, a steady question is answered as from what is known. -/
theorem Agree.answer_eq {q : Query α} (h : Steady d known q) {ms : Manifests}
    (he : Extends d known ms) : q.answer ms = q.answer known :=
  matches_eq.1 (h.answers he (extends_refl known))

/-- A steady question after another one is answered as from what is known. -/
theorem Agree.answer_bind {R : α → α → Prop} {q : Query α} {k : α → Query γ} (h : Agree d known R q q)
    (hk : ∀ a, Steady d known (k a)) :
    (q >>= k).answer known = q.answer known >>= fun a => (k a).answer known := by
  rw [Query.answer_bind]
  rcases q.answer known with e | a
  · rfl
  · exact (hk a).answer_eq (h.left (extends_refl known))

/-- An answer to one question after another is one to both of them, where the first one leaves no mark on
the second. -/
theorem Agree.bind_ok {R : α → α → Prop} {q : Query α} {k : α → Query γ} (h : Agree d known R q q)
    (hk : ∀ a b, R a b → Agree d known Eq (k a) (k b)) {c : γ} (hc : (q >>= k).answer known = .ok c) :
    ∃ a, q.answer known = .ok a ∧ R a a ∧ (k a).answer known = .ok c := by
  rw [Query.answer_bind] at hc
  obtain ⟨a, b, ha, hb, hab⟩ | ⟨e, ha, -⟩ :=
    (h.answers (extends_refl known) (extends_refl known)).cases
  · rw [ha] at hc hb
    cases hb
    exact ⟨a, ha, hab, (hk a a hab).answer_eq (h.left (extends_refl known)) ▸ hc⟩
  · rw [ha] at hc; cases hc

theorem steady_bind_ok {q : Query α} {k : α → Query γ} (h : Steady d known q)
    (hk : ∀ a, Steady d known (k a)) {c : γ} (hc : (q >>= k).answer known = .ok c) :
    ∃ a, q.answer known = .ok a ∧ (k a).answer known = .ok c := by
  obtain ⟨a, ha, -, hka⟩ := h.bind_ok (fun a _ hab => hab ▸ hk a) hc
  exact ⟨a, ha, hka⟩

/-- The manifest that is found at a location when some manifests are known. -/
def manifestAt (d : Disk) (known : Manifests) (p : Path) : Except Error (Option Manifest) :=
  (load d p).answer known

/-- A manifest that a location has to have is the one that is found there. -/
theorem require_ok {ms : Manifests} (he : Extends d known ms) {p : Path} (hp : Loadable d p)
    {m' : Manifest} (h : (require d p).answer ms = .ok m') :
    (∃ m q, manifestAt d known p = .ok (some m) ∧ m' = { m with path := q }) ∧
      Extends d known ((require d p).after ms) := by
  have hl := (agree_load hp).left he
  unfold require at h ⊢
  rw [Query.answer_bind] at h
  rw [after_bind]
  obtain ⟨a, b, ha, hb, hab⟩ | ⟨e, ha, -⟩ :=
    ((agree_load hp).answers (extends_refl known) he).cases
  · rw [hb] at h ⊢
    obtain ⟨rfl, rfl⟩ | ⟨m, q, rfl, rfl⟩ := hab.cases
    · cases h
    · cases h
      exact ⟨⟨m, q, ha, rfl⟩, hl⟩
  · have := ((agree_load hp).answers (extends_refl known) he)
    rw [ha] at this
    obtain ⟨a, b, ha', -⟩ | ⟨e', -, hb⟩ := this.cases
    · cases ha'
    · rw [hb] at h; cases h

end
end Stowage
