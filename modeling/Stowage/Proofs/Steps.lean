/-
Steps that may fail, where what was done before a failure stays done. Questions, expansions, changes of
a disk and actions are such steps, with states of their own.
-/
import Mathlib.Tactic

namespace Stowage

variable {ε σ α β : Type}

/-! ## Running -/

theorem run_bind (x : ExceptT ε (StateM σ) α) (k : α → ExceptT ε (StateM σ) β) (s : σ) :
    (x >>= k).run.run s = match x.run.run s with
      | (.ok a, s') => (k a).run.run s'
      | (.error e, s') => (.error e, s') := by
  show (x.run >>= ExceptT.bindCont k).run s = _
  rw [StateT.run_bind]
  rcases x.run.run s with ⟨_ | _, _⟩ <;> rfl

theorem run_tryCatch (x : ExceptT ε (StateM σ) α) (k : ε → ExceptT ε (StateM σ) α) (s : σ) :
    (tryCatch x k).run.run s = match x.run.run s with
      | (.ok a, s') => (.ok a, s')
      | (.error e, s') => (k e).run.run s' := by
  rw [ExceptT.run_tryCatch, StateT.run_bind]
  rcases x.run.run s with ⟨_ | _, _⟩ <;> rfl

/-! ## Steps that succeed -/

/-- The step ends in `a` and leads from one state to another. -/
def Gives (x : ExceptT ε (StateM σ) α) (s : σ) (a : α) (s' : σ) : Prop := x.run.run s = (.ok a, s')

theorem gives_bind {x : ExceptT ε (StateM σ) α} {k : α → ExceptT ε (StateM σ) β} {s s'' : σ} {b : β} :
    Gives (x >>= k) s b s'' ↔ ∃ a s', Gives x s a s' ∧ Gives (k a) s' b s'' := by
  unfold Gives
  rw [run_bind]
  rcases x.run.run s with ⟨e | a, s'⟩
  · exact ⟨fun h => (nomatch h), fun ⟨_, _, h, _⟩ => (nomatch h)⟩
  · constructor
    · exact fun h => ⟨a, s', rfl, h⟩
    · rintro ⟨_, _, ha, h⟩
      cases ha
      exact h

theorem gives_pure {a b : α} {s s' : σ} :
    Gives (pure a : ExceptT ε (StateM σ) α) s b s' ↔ b = a ∧ s' = s := by
  unfold Gives
  show (Except.ok a, s) = (Except.ok b, s') ↔ _
  rw [Prod.mk.injEq, Except.ok.injEq, eq_comm, @eq_comm _ s]

theorem gives_throw {e : ε} {a : α} {s s' : σ} :
    ¬ Gives (throw e : ExceptT ε (StateM σ) α) s a s' := by
  unfold Gives
  show ¬ (Except.error e, s) = (Except.ok a, s')
  simp

theorem gives_get {a s s' : σ} : Gives (get : ExceptT ε (StateM σ) σ) s a s' ↔ a = s ∧ s' = s := by
  unfold Gives
  show (Except.ok s, s) = (Except.ok a, s') ↔ _
  rw [Prod.mk.injEq, Except.ok.injEq, eq_comm, @eq_comm _ s]

theorem gives_modify {f : σ → σ} {u : PUnit} {s s' : σ} :
    Gives (modify f : ExceptT ε (StateM σ) PUnit) s u s' ↔ s' = f s := by
  unfold Gives
  show (Except.ok PUnit.unit, f s) = (Except.ok u, s') ↔ _
  rw [Prod.mk.injEq, @eq_comm _ _ s', and_iff_right rfl]

/-- What a step shows when it succeeds. -/
def shown (x : ExceptT ε (StateM σ) α) (s : σ) (f : α → σ → β) : Option β :=
  match x.run.run s with
  | (.ok a, s') => some (f a s')
  | (.error _, _) => none

theorem exists_gives {x : ExceptT ε (StateM σ) α} {s : σ} {f : α → σ → β} {b : β}
    (h : shown x s f = some b) : ∃ a s', Gives x s a s' ∧ f a s' = b := by
  unfold shown at h
  split at h
  · rename_i a s' hr
    exact ⟨a, s', hr, Option.some.inj h⟩
  · cases h

theorem shown_of_gives {x : ExceptT ε (StateM σ) α} {s s' : σ} {a : α} (h : Gives x s a s') (f : α → σ → β) :
    shown x s f = some (f a s') := by
  unfold Gives at h
  unfold shown
  rw [h]

theorem run_forM_cons (f : α → ExceptT ε (StateM σ) PUnit) (a : α) (l : List α) (s : σ) :
    ((a :: l).forM f).run.run s = match (f a).run.run s with
      | (.ok _, s') => (l.forM f).run.run s'
      | (.error e, s') => (.error e, s') := by
  show (f a >>= fun _ => l.forM f).run.run s = _
  rw [run_bind]
  rcases (f a).run.run s with ⟨_ | _, _⟩ <;> rfl

theorem Gives.run_forM_cons {f : α → ExceptT ε (StateM σ) PUnit} {a : α} {s s' : σ} (h : Gives (f a) s ⟨⟩ s')
    (l : List α) : ((a :: l).forM f).run.run s = (l.forM f).run.run s' := by
  unfold Gives at h
  rw [Stowage.run_forM_cons, h]

theorem run_forM_cons_of_error {f : α → ExceptT ε (StateM σ) PUnit} {a : α} {s s' : σ} {e : ε}
    (h : (f a).run.run s = (.error e, s')) (l : List α) : ((a :: l).forM f).run.run s = (.error e, s') := by
  rw [run_forM_cons, h]

theorem run_forM_append {f : α → ExceptT ε (StateM σ) PUnit} {before : List α} {s s' : σ} {u : PUnit}
    (h : Gives (before.forM f) s u s') (after : List α) :
    ((before ++ after).forM f).run.run s = (after.forM f).run.run s' := by
  induction before generalizing s with
  | nil =>
    obtain ⟨-, rfl⟩ := gives_pure.1 h
    rfl
  | cons a before ih =>
    obtain ⟨_, s₁, ha, hbefore⟩ := gives_bind.1 h
    rw [List.cons_append, ha.run_forM_cons]
    exact ih hbefore

/-- Steps in a row do the same if each of them does. -/
theorem run_forM_congr {f g : α → ExceptT ε (StateM σ) PUnit} {l : List α} {P : σ → Prop}
    (hfg : ∀ a ∈ l, ∀ s, P s → (f a).run.run s = (g a).run.run s)
    (hP : ∀ a ∈ l, ∀ s s', P s → Gives (g a) s ⟨⟩ s' → P s') {s : σ} (hs : P s) :
    (l.forM f).run.run s = (l.forM g).run.run s := by
  induction l generalizing s with
  | nil => rfl
  | cons a l ih =>
    rw [run_forM_cons, run_forM_cons, hfg a (List.mem_cons_self ..) s hs]
    rcases hg : (g a).run.run s with ⟨e | _, s'⟩
    · rfl
    · exact ih (fun b hb => hfg b (List.mem_cons_of_mem _ hb))
        (fun b hb => hP b (List.mem_cons_of_mem _ hb)) (hP a (List.mem_cons_self ..) s s' hs hg)

/-- Steps in a row fail with the first one that fails. -/
theorem forM_fails {f : α → ExceptT ε (StateM σ) PUnit} {l : List α} {s s' : σ} {e : ε}
    (h : (l.forM f).run.run s = (.error e, s')) : ∃ before a after s₁, l = before ++ a :: after ∧
      Gives (before.forM f) s ⟨⟩ s₁ ∧ (f a).run.run s₁ = (.error e, s') := by
  induction l generalizing s with
  | nil => cases h
  | cons a l ih =>
    rw [run_forM_cons] at h
    rcases ha : (f a).run.run s with ⟨e' | _, s₂⟩
    · rw [ha] at h
      exact ⟨[], a, l, s, rfl, gives_pure.2 ⟨rfl, rfl⟩, ha.trans h⟩
    · rw [ha] at h
      obtain ⟨before, b, after, s₁, rfl, hbefore, hb⟩ := ih h
      exact ⟨a :: before, b, after, s₁, rfl, gives_bind.2 ⟨_, s₂, ha, hbefore⟩, hb⟩

/-- Steps in a row keep what each of them keeps, until one of them fails. -/
theorem forM_ends {f : α → ExceptT ε (StateM σ) PUnit} {l : List α} {P : σ → Prop} {Q : ε → σ → Prop}
    (hgives : ∀ a ∈ l, ∀ s s', P s → Gives (f a) s ⟨⟩ s' → P s')
    (hfails : ∀ a ∈ l, ∀ s e s', P s → (f a).run.run s = (.error e, s') → Q e s') {s s' : σ} (hs : P s)
    {result : Except ε PUnit} (h : (l.forM f).run.run s = (result, s')) :
    (∀ e, result = .error e → Q e s') ∧ (result = .ok ⟨⟩ → P s') := by
  induction l generalizing s with
  | nil =>
    cases h
    exact ⟨fun _ he => (nomatch he), fun _ => hs⟩
  | cons a l ih =>
    rw [run_forM_cons] at h
    rcases ha : (f a).run.run s with ⟨e | _, s₁⟩
    · rw [ha] at h
      cases h
      refine ⟨fun e' he => ?_, fun hok => nomatch hok⟩
      cases he
      exact hfails a (List.mem_cons_self ..) s e _ hs ha
    · rw [ha] at h
      exact ih (fun b hb => hgives b (List.mem_cons_of_mem _ hb)) (fun b hb => hfails b (List.mem_cons_of_mem _ hb))
        (hgives a (List.mem_cons_self ..) s s₁ hs ha) h

/-! ## What steps give -/

/-- Of what the step gives, if it succeeds, something holds. -/
def Ensures (P : α → Prop) (x : ExceptT ε (StateM σ) α) : Prop := ∀ s a s', Gives x s a s' → P a

section
variable {P : α → Prop} {Q : β → Prop}

theorem ensures_pure {a : α} (h : P a) : Ensures P (pure a : ExceptT ε (StateM σ) α) := by
  intro s b s' hb
  rwa [(gives_pure.1 hb).1]

theorem ensures_throw (e : ε) : Ensures P (throw e : ExceptT ε (StateM σ) α) :=
  fun _ _ _ h => absurd h gives_throw

theorem ensures_bind {x : ExceptT ε (StateM σ) α} {k : α → ExceptT ε (StateM σ) β} (hx : Ensures P x)
    (hk : ∀ a, P a → Ensures Q (k a)) : Ensures Q (x >>= k) := by
  intro s b s'' h
  obtain ⟨a, s', ha, hb⟩ := gives_bind.1 h
  exact hk a (hx s a s' ha) s' b s'' hb

theorem ensures_bind' {x : ExceptT ε (StateM σ) α} {k : α → ExceptT ε (StateM σ) β}
    (hk : ∀ a, Ensures Q (k a)) : Ensures Q (x >>= k) :=
  ensures_bind (P := fun _ => True) (fun _ _ _ _ => trivial) fun a _ => hk a

theorem ensures_foldlM {f : β → α → ExceptT ε (StateM σ) β} (hf : ∀ b a, Q b → Ensures Q (f b a))
    (l : List α) {b : β} (hb : Q b) : Ensures Q (l.foldlM f b) := by
  induction l generalizing b with
  | nil => exact ensures_pure hb
  | cons a l ih =>
    rw [List.foldlM_cons]
    exact ensures_bind (hf b a hb) fun _ => ih

end

/-! ## What steps fail with -/

/-- If the step fails, something holds of the error. -/
def Fails (P : ε → Prop) (x : ExceptT ε (StateM σ) α) : Prop :=
  ∀ s e, (x.run.run s).1 = .error e → P e

section
variable {P : ε → Prop}

theorem fails_pure (a : α) : Fails P (pure a : ExceptT ε (StateM σ) α) := fun _ _ h => nomatch h

theorem fails_throw {e : ε} (h : P e) : Fails P (throw e : ExceptT ε (StateM σ) α) := by
  intro _ e' he
  cases he
  exact h

theorem fails_bind {x : ExceptT ε (StateM σ) α} {k : α → ExceptT ε (StateM σ) β} (hx : Fails P x)
    (hk : ∀ a, Fails P (k a)) : Fails P (x >>= k) := by
  intro s e h
  rw [run_bind] at h
  rcases hr : x.run.run s with ⟨e' | a, s'⟩
  · rw [hr] at h
    cases h
    exact hx s e (by rw [hr])
  · rw [hr] at h
    exact hk a s' e h

theorem fails_tryCatch {x : ExceptT ε (StateM σ) α} {k : ε → ExceptT ε (StateM σ) α} {Q : ε → Prop}
    (hx : Fails Q x) (hk : ∀ e, Q e → Fails P (k e)) : Fails P (tryCatch x k) := by
  intro s e h
  rw [run_tryCatch] at h
  rcases hr : x.run.run s with ⟨e' | a, s'⟩
  · rw [hr] at h
    exact hk e' (hx s e' (by rw [hr])) s' e h
  · rw [hr] at h
    cases h

theorem fails_foldlM {f : β → α → ExceptT ε (StateM σ) β} (hf : ∀ b a, Fails P (f b a))
    (l : List α) (b : β) : Fails P (l.foldlM f b) := by
  induction l generalizing b with
  | nil => exact fails_pure b
  | cons a l ih =>
    rw [List.foldlM_cons]
    exact fails_bind (hf b a) ih

theorem fails_forM {f : α → ExceptT ε (StateM σ) PUnit} (hf : ∀ a, Fails P (f a)) (l : List α) :
    Fails P (l.forM f) := by
  induction l with
  | nil => exact fails_pure _
  | cons a l ih => exact fails_bind (hf a) fun _ => ih

end

/-! ## What steps keep -/

/-- Whether the step succeeds or not, what holds of the state before holds of it after. -/
def Keeps (P : σ → Prop) (x : ExceptT ε (StateM σ) α) : Prop := ∀ s, P s → P (x.run.run s).2

section
variable {P : σ → Prop}

theorem keeps_pure (a : α) : Keeps P (pure a : ExceptT ε (StateM σ) α) := fun _ h => h

theorem keeps_throw (e : ε) : Keeps P (throw e : ExceptT ε (StateM σ) α) := fun _ h => h

theorem keeps_get : Keeps P (get : ExceptT ε (StateM σ) σ) := fun _ h => h

theorem keeps_modify {f : σ → σ} (h : ∀ s, P s → P (f s)) :
    Keeps P (modify f : ExceptT ε (StateM σ) PUnit) := h

theorem keeps_bind {x : ExceptT ε (StateM σ) α} {k : α → ExceptT ε (StateM σ) β} (hx : Keeps P x)
    (hk : ∀ a, Keeps P (k a)) : Keeps P (x >>= k) := by
  intro s hs
  have h := hx s hs
  rw [run_bind]
  rcases hr : x.run.run s with ⟨_ | a, s'⟩
  · rw [hr] at h; exact h
  · rw [hr] at h; exact hk a s' h

theorem keeps_tryCatch {x : ExceptT ε (StateM σ) α} {k : ε → ExceptT ε (StateM σ) α}
    (hx : Keeps P x) (hk : ∀ e, Keeps P (k e)) : Keeps P (tryCatch x k) := by
  intro s hs
  have h := hx s hs
  rw [run_tryCatch]
  rcases hr : x.run.run s with ⟨e | _, s'⟩
  · rw [hr] at h; exact hk e s' h
  · rw [hr] at h; exact h

theorem keeps_mapM {f : α → ExceptT ε (StateM σ) β} (hf : ∀ a, Keeps P (f a)) (l : List α) :
    Keeps P (l.mapM f) := by
  induction l with
  | nil => exact keeps_pure []
  | cons a l ih =>
    rw [List.mapM_cons]
    exact keeps_bind (hf a) fun _ => keeps_bind ih fun _ => keeps_pure _

theorem keeps_forM {f : α → ExceptT ε (StateM σ) PUnit} (hf : ∀ a, Keeps P (f a)) (l : List α) :
    Keeps P (l.forM f) := by
  induction l with
  | nil => exact keeps_pure _
  | cons a l ih => exact keeps_bind (hf a) fun _ => ih

theorem keeps_foldlM {f : β → α → ExceptT ε (StateM σ) β} (hf : ∀ b a, Keeps P (f b a)) (l : List α) (b : β) :
    Keeps P (l.foldlM f b) := by
  induction l generalizing b with
  | nil => exact keeps_pure b
  | cons a l ih =>
    rw [List.foldlM_cons]
    exact keeps_bind (hf b a) ih

/-- A step that succeeds keeps what it keeps. -/
theorem Gives.keeps {x : ExceptT ε (StateM σ) α} {s s' : σ} {a : α} (h : Gives x s a s')
    (hx : Keeps P x) (hs : P s) : P s' := by
  have := hx s hs
  unfold Gives at h
  rw [h] at this
  exact this

end

/-- Whether the step succeeds or not, it leads from a state of which `P` holds to one of which `Q` holds. -/
def Leaves (P Q : σ → Prop) (x : ExceptT ε (StateM σ) α) : Prop := ∀ s, P s → Q (x.run.run s).2

/-- Steps that keep what holds come before one that leads on. -/
theorem leaves_bind {P Q : σ → Prop} (hPQ : ∀ s, P s → Q s) {x : ExceptT ε (StateM σ) α}
    {k : α → ExceptT ε (StateM σ) β} (hx : Keeps P x) (hk : ∀ a, Leaves P Q (k a)) :
    Leaves P Q (x >>= k) := by
  intro s hs
  have h := hx s hs
  rw [run_bind]
  rcases hr : x.run.run s with ⟨_ | a, s'⟩
  · rw [hr] at h; exact hPQ s' h
  · rw [hr] at h; exact hk a s' h

end Stowage
