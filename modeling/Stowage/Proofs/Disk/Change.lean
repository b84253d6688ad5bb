/-
Changes of the disk leave the directory that relative paths start from.
-/
import Stowage.Disk.Change
import Stowage.Proofs.Steps

namespace Stowage

namespace Disk

variable {α β : Type}

/-- The change leaves the directory that relative paths start from. -/
def Stays (c : Change α) : Prop := ∀ here, Keeps (fun d => d.here = here) c

theorem stays_pure (a : α) : Stays (pure a) := fun _ => keeps_pure a

theorem stays_throw (e : FileFault) : Stays (throw e : Change α) := fun _ => keeps_throw e

theorem stays_bind {c : Change α} {k : α → Change β} (hc : Stays c) (hk : ∀ a, Stays (k a)) :
    Stays (c >>= k) := fun here => keeps_bind (hc here) fun a => hk a here

theorem stays_get : Stays get := fun _ => keeps_get

theorem stays_modify {f : Disk → Disk} (h : ∀ d, (f d).here = d.here) : Stays (modify f) :=
  fun _ => keeps_modify fun d hd => (h d).trans hd

theorem stays_ask (question : Disk → Except FileFault α) : Stays (Change.ask question) := by
  refine stays_bind stays_get fun d => ?_
  rcases question d with e | a
  · exact stays_throw e
  · exact stays_pure a

theorem stays_store (p : Path) (content : Content) : Stays (store p content) := by
  refine stays_bind (stays_ask _) fun place => ?_
  split
  · exact stays_throw _
  · exact stays_modify fun _ => rfl
  · exact stays_modify fun _ => rfl

theorem stays_write (p : Path) (content : Content) : Stays (write p content) := by
  unfold write
  split
  · refine stays_bind (stays_bind (stays_ask _) fun place => ?_) fun _ => stays_store p content
    split
    · exact stays_throw _
    · exact stays_pure _
  · exact stays_store p content

theorem stays_createDirectory (p : Path) : Stays (createDirectory p) := by
  refine stays_bind (stays_ask _) fun place => ?_
  split
  · exact stays_throw _
  · exact stays_modify fun _ => rfl

/-- Creating directories keeps what creating each of them keeps. -/
theorem keeps_createChain {P : Disk → Prop} {l : List Path}
    (h : ∀ p ∈ l, Keeps P (createDirectory p)) : Keeps P (createChain l) := by
  have hthere : ∀ (p : Path) (e : FileFault),
      Keeps P (do if !(← get).isDirectory p then throw e : Change Unit) := fun p e =>
    keeps_bind keeps_get fun d => by
      split
      · exact keeps_throw e
      · exact keeps_pure _
  induction l with
  | nil => exact keeps_throw _
  | cons p parents ih =>
    have hp := h p (List.mem_cons_self ..)
    have ih := ih fun q hq => h q (List.mem_cons_of_mem _ hq)
    unfold createChain
    split
    · exact keeps_pure _
    · refine keeps_tryCatch hp fun e => ?_
      split
      · exact keeps_bind ih fun _ => keeps_tryCatch hp (hthere p)
      · exact hthere p e

theorem keeps_createDirectories {P : Disk → Prop} (h : ∀ p, Keeps P (createDirectory p)) (p : Path) :
    Keeps P (createDirectories p) := keeps_createChain fun q _ => h q

theorem stays_createDirectories (p : Path) : Stays (createDirectories p) := fun here =>
  keeps_createDirectories (fun p => stays_createDirectory p here) p

theorem stays_copy (source target : Path) : Stays (copy source target) := by
  refine stays_bind (stays_ask _) fun found => ?_
  split
  split
  · refine stays_bind (stays_ask _) fun place => ?_
    split
    · exact stays_write _ _
    · exact stays_write _ _
  · exact stays_throw _

theorem stays_removeFile (p : Path) : Stays (removeFile p) := by
  refine stays_bind (stays_ask _) fun place => ?_
  split
  · exact stays_throw _
  · exact stays_modify fun _ => rfl
  · exact stays_throw _

theorem stays_removeEmpty (p : Path) : Stays (removeEmpty p) := by
  refine stays_bind (stays_ask _) fun place => stays_bind (stays_ask _) fun _ => ?_
  split
  · refine stays_bind stays_get fun d => ?_
    split
    · exact stays_modify fun _ => rfl
    · exact stays_throw _
  · exact stays_throw _
  · exact stays_throw _

theorem stays_removeTree (p : Path) : Stays (removeTree p) := by
  refine stays_bind (stays_ask _) fun place => ?_
  split
  · exact stays_removeFile p
  · exact stays_bind (stays_modify fun _ => rfl) fun _ => stays_removeEmpty p
  · exact stays_throw _
  · exact stays_throw _

end Disk

end Stowage
