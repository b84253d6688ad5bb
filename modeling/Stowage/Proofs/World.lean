/-
Actions step by step: what they give when they succeed, and that most of them leave the directory that
relative paths start from.
-/
import Stowage.World
import Stowage.Proofs.Disk.Change

namespace Stowage.Action

variable {α β : Type}

/-! ## Actions on a disk -/

theorem run_change (c : Disk.Change α) (w : World) : (change c).run.run w =
    ((c.run.run w.disk).1.mapError Error.file, { w with disk := (c.run.run w.disk).2 }) := rfl

theorem run_ask (question : Disk → Except FileFault α) (w : World) :
    (ask question).run.run w = ((question w.disk).mapError Error.file, w) := by
  have hdisk : (disk).run.run w = (.ok w.disk, w) := rfl
  unfold ask
  rw [run_bind, hdisk]
  dsimp only
  rcases question w.disk with e | a <;> rfl

/-! ## Actions that succeed -/

theorem gives_ofExcept {r : Except Error α} {a : α} {w w' : World} :
    Gives (ofExcept r) w a w' ↔ r = .ok a ∧ w' = w := by
  rcases r with e | b
  · exact ⟨fun h => absurd h gives_throw, fun h => (nomatch h.1)⟩
  · rw [Except.ok.injEq, @eq_comm _ b a]
    exact gives_pure

theorem gives_disk {d : Disk} {w w' : World} : Gives disk w d w' ↔ d = w.disk ∧ w' = w := by
  unfold Gives disk
  show (Except.ok w.disk, w) = (Except.ok d, w') ↔ _
  rw [Prod.mk.injEq, Except.ok.injEq, eq_comm, @eq_comm _ w]

theorem gives_ask {question : Disk → Except FileFault α} {a : α} {w w' : World} :
    Gives (ask question) w a w' ↔ question w.disk = .ok a ∧ w' = w := by
  constructor
  · intro h
    obtain ⟨d, w₁, hd, h⟩ := gives_bind.1 h
    obtain ⟨rfl, rfl⟩ := gives_disk.1 hd
    split at h
    · rename_i b hb
      obtain ⟨rfl, rfl⟩ := gives_pure.1 h
      exact ⟨hb, rfl⟩
    · exact absurd h gives_throw
  · rintro ⟨h, rfl⟩
    refine gives_bind.2 ⟨w'.disk, w', gives_disk.2 ⟨rfl, rfl⟩, ?_⟩
    rw [h]
    exact gives_pure.2 ⟨rfl, rfl⟩

theorem gives_change {c : Disk.Change α} {a : α} {w w' : World} :
    Gives (change c) w a w' ↔ c.run.run w.disk = (.ok a, w'.disk) ∧ w'.notes = w.notes := by
  unfold Gives
  rw [run_change]
  obtain ⟨d', notes⟩ := w'
  rcases c.run.run w.disk with ⟨e | b, d⟩
  · exact ⟨fun h => (nomatch h), fun h => (nomatch h.1)⟩
  · constructor
    · intro h
      cases h
      exact ⟨rfl, rfl⟩
    · rintro ⟨h, hnotes⟩
      cases h
      cases hnotes
      rfl

/-- An action that is only followed by another failure when it fails. -/
theorem gives_of_tryCatch {x : Action α} {k : Error → Action α} {a : α} {w w' : World}
    (hk : ∀ e w₁, ¬ Gives (k e) w₁ a w') (h : Gives (tryCatch x k) w a w') : Gives x w a w' := by
  unfold Gives at h ⊢
  rw [run_tryCatch] at h
  rcases hx : x.run.run w with ⟨e | b, w₁⟩
  · rw [hx] at h
    exact absurd h (hk e w₁)
  · rw [hx] at h
    exact h

/-! ## The directory that relative paths start from -/

/-- The action leaves the directory that relative paths start from. -/
def Stays (x : Action α) : Prop := ∀ here, Keeps (fun w => w.disk.here = here) x

theorem stays_pure (a : α) : Stays (pure a) := fun _ => keeps_pure a

theorem stays_throw (e : Error) : Stays (throw e : Action α) := fun _ => keeps_throw e

theorem stays_bind {x : Action α} {k : α → Action β} (hx : Stays x) (hk : ∀ a, Stays (k a)) :
    Stays (x >>= k) := fun here => keeps_bind (hx here) fun a => hk a here

theorem stays_mapM {f : α → Action β} (hf : ∀ a, Stays (f a)) (l : List α) : Stays (l.mapM f) :=
  fun here => keeps_mapM (fun a => hf a here) l

theorem stays_ofExcept (r : Except Error α) : Stays (ofExcept r) := by
  rcases r with e | a
  · exact stays_throw e
  · exact stays_pure a

theorem stays_disk : Stays disk := stays_bind (fun _ => keeps_get) fun _ => stays_pure _

theorem stays_ask (question : Disk → Except FileFault α) : Stays (ask question) := by
  refine stays_bind stays_disk fun d => ?_
  split
  · exact stays_pure _
  · exact stays_throw _

theorem stays_change {c : Disk.Change α} (hc : Disk.Stays c) : Stays (change c) :=
  fun here w hw => hc here w.disk hw

end Stowage.Action
