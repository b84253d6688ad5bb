/-
Values by name, in a list.
-/
import Mathlib.Tactic

namespace Stowage.Named

variable {α : Type} {k n : String}

theorem lookup_cons (n k : String) (x : α) (rest : List (String × α)) :
    List.lookup n ((k, x) :: rest) = if n = k then some x else rest.lookup n := by
  rw [List.lookup_cons]
  by_cases h : n = k
  · rw [if_pos h, beq_iff_eq.2 h]
  · rw [if_neg h, beq_eq_false_iff_ne.2 h]

theorem lookup_cons_of_ne (h : n ≠ k) (x : α) (rest : List (String × α)) :
    List.lookup n ((k, x) :: rest) = rest.lookup n := by
  rw [lookup_cons, if_neg h]

theorem mem_iff_lookup {l : List (String × α)} (h : (l.map Prod.fst).Nodup) {x : α} :
    (n, x) ∈ l ↔ l.lookup n = some x := by
  induction l with
  | nil => simp
  | cons e rest ih =>
    obtain ⟨k, y⟩ := e
    rw [List.map_cons, List.nodup_cons] at h
    by_cases hk : n = k
    · subst hk
      have hno : (n, x) ∉ rest := fun hm => h.1 (List.mem_map.2 ⟨_, hm, rfl⟩)
      rw [List.lookup_cons_self, List.mem_cons, Prod.mk.injEq]
      simp [hno, eq_comm]
    · rw [lookup_cons_of_ne hk, List.mem_cons, ih h.2, Prod.mk.injEq]
      simp [hk]

/-- Where no name is there twice the order does not matter. -/
theorem lookup_reverse {l : List (String × α)} (h : (l.map Prod.fst).Nodup) (n : String) :
    l.reverse.lookup n = l.lookup n := by
  have hreverse : (l.reverse.map Prod.fst).Nodup := by rwa [List.map_reverse, List.nodup_reverse]
  refine Option.ext fun x => ?_
  rw [← mem_iff_lookup h, ← mem_iff_lookup hreverse, List.mem_reverse]

/-- The last value of a name. -/
theorem lookup_reverse_eq_some {l : List (String × α)} {x : α} : l.reverse.lookup n = some x ↔
    ∃ before after, l = before ++ (n, x) :: after ∧ ∀ e ∈ after, e.1 ≠ n := by
  rw [List.lookup_eq_some_iff]
  constructor
  · rintro ⟨after, before, hl, hafter⟩
    refine ⟨before.reverse, after.reverse, ?_, fun e he => ?_⟩
    · rw [← List.reverse_reverse l, hl]
      simp
    · have hne := hafter e (List.mem_reverse.1 he)
      exact fun hn => by simp [hn] at hne
  · rintro ⟨before, after, rfl, hafter⟩
    refine ⟨after.reverse, before.reverse, by simp, fun e he => ?_⟩
    have hne := hafter e (List.mem_reverse.1 he)
    simpa using Ne.symm hne

end Stowage.Named
