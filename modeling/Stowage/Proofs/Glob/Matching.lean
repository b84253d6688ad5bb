/-
What patterns match below what they match. A pattern with a deep wildcard at its end matches whatever is spelled on from
a match. One without deep wildcards matches texts of one depth only, as nothing in it but a separator matches one.
-/
import Stowage.Glob
import Stowage.Proofs.Path.Joined

open Stowage.Path

namespace Stowage.Glob

/-- The pattern has a deep wildcard at its end. -/
def Pattern.EndsDeep (p : Pattern) : Prop := p.tokens.getLast? = some .anyDirectories

/-- The pattern has no deep wildcard. -/
def Pattern.IsShallow (p : Pattern) : Prop := .anyDirectories ∉ p.tokens

/-! ## Deep wildcards at the end -/

variable {o : Options} {next : List Char → Bool} {ts : List Token} {cs : List Char}

theorem matchDeep_of_nil (h : next [] = true) (cs : List Char) : matchDeep next cs = true := by
  induction cs with
  | nil => exact h
  | cons c cs ih => simp only [matchDeep, ih, Bool.or_true]

theorem matchRun_of_next (h : next cs = true) : matchRun o next cs = true := by
  cases cs with
  | nil => exact h
  | cons c cs => simp only [matchRun, h, Bool.true_or]

section
variable {more : List Char} (hnext : ∀ cs, next cs = true → next (cs ++ more) = true)
include hnext

theorem matchDeep_append (h : matchDeep next cs = true) : matchDeep next (cs ++ more) = true := by
  induction cs with
  | nil =>
    have hnil : next [] = true := h
    exact matchDeep_of_nil hnil more
  | cons c cs ih =>
    simp only [matchDeep, List.cons_append, Bool.or_eq_true, Bool.and_eq_true] at h ⊢
    exact h.imp (fun h => ⟨h.1, hnext cs h.2⟩) ih

theorem matchRun_append (h : matchRun o next cs = true) : matchRun o next (cs ++ more) = true := by
  induction cs with
  | nil => exact matchRun_of_next (hnext [] h)
  | cons c cs ih =>
    simp only [matchRun, List.cons_append, Bool.or_eq_true, Bool.and_eq_true] at h ⊢
    exact h.imp (hnext (c :: cs)) fun h => ⟨h.1, ih h.2⟩

end

theorem matchTokens_append (hdeep : ts.getLast? = some .anyDirectories) (h : matchTokens o ts cs = true)
    (more : List Char) : matchTokens o ts (cs ++ more) = true := by
  induction ts generalizing cs with
  | nil => cases hdeep
  | cons t ts ih =>
    by_cases hts : ts = []
    · subst hts
      cases hdeep
      simp only [matchTokens, Bool.or_eq_true]
      exact .inr (matchDeep_of_nil rfl _)
    · have hlater : ∀ cs, matchTokens o ts cs = true → matchTokens o ts (cs ++ more) = true := by
        rw [List.getLast?_cons_of_ne_nil hts] at hdeep
        exact fun cs => ih hdeep
      cases t with
      | anyRun => exact matchRun_append hlater h
      | anyDirectories =>
        simp only [matchTokens, Bool.or_eq_true] at h ⊢
        exact h.imp (hlater cs) (matchDeep_append hlater)
      | _ =>
        cases cs with
        | nil => cases h
        | cons c cs =>
          simp only [matchTokens, List.cons_append, Bool.and_eq_true] at h ⊢
          exact ⟨h.1, hlater cs h.2⟩

/-! ## No deep wildcards -/

/-- A run of characters that is passed over holds no separator. -/
theorem exists_rest_of_matchRun (ho : o.literalSeparator = true) (h : matchRun o next cs = true) :
    ∃ run rest, cs = run ++ rest ∧ '/' ∉ run ∧ next rest = true := by
  induction cs with
  | nil => exact ⟨[], [], rfl, List.not_mem_nil, h⟩
  | cons c cs ih =>
    simp only [matchRun, ho, Bool.or_eq_true, Bool.and_eq_true, Bool.true_and, Bool.not_eq_true',
      decide_eq_false_iff_not] at h
    rcases h with h | ⟨hc, h⟩
    · exact ⟨[], c :: cs, rfl, List.not_mem_nil, h⟩
    · obtain ⟨run, rest, rfl, hrun, hrest⟩ := ih h
      refine ⟨c :: run, rest, rfl, fun hslash => ?_, hrest⟩
      exact (List.mem_cons.1 hslash).elim (fun h => hc h.symm) hrun

theorem eq_slash_iff {t : Token} {c : Char} (h : t.accepts levels c = true) : c = '/' ↔ t = .char '/' := by
  cases t with
  | char a =>
    have hc : c = a := of_decide_eq_true h
    rw [hc, Token.char.injEq]
  | anyChar =>
    have hc : c ≠ '/' := by simpa [Token.accepts, levels] using h
    exact iff_of_false hc (by simp)
  | within set | without set =>
    have hc : c ≠ '/' := by
      rw [Token.accepts, Bool.and_eq_true] at h
      simpa [levels] using h.1
    exact iff_of_false hc (by simp)
  | anyRun | anyDirectories => cases h

/-- Without deep wildcards a text has the separators of the pattern and no others. -/
theorem count_slash_of_matchTokens (hshallow : .anyDirectories ∉ ts) (h : matchTokens levels ts cs = true) :
    cs.count '/' = ts.count (.char '/') := by
  induction ts generalizing cs with
  | nil =>
    rw [matchTokens, List.isEmpty_iff] at h
    rw [h]
    rfl
  | cons t ts ih =>
    rw [List.mem_cons, not_or] at hshallow
    have hlater : ∀ {cs}, matchTokens levels ts cs = true → cs.count '/' = ts.count (.char '/') := ih hshallow.2
    cases t with
    | anyRun =>
      obtain ⟨run, rest, rfl, hrun, hrest⟩ := exists_rest_of_matchRun rfl h
      rw [List.count_append, List.count_eq_zero.2 hrun, hlater hrest, List.count_cons_of_ne (by decide), Nat.zero_add]
    | anyDirectories => exact absurd rfl hshallow.1
    | _ =>
      cases cs with
      | nil => cases h
      | cons c cs =>
        simp only [matchTokens, Bool.and_eq_true] at h
        rw [List.count_cons, List.count_cons, hlater h.2]
        simp only [beq_iff_eq, eq_slash_iff h.1]

/-! ## Paths below a match -/

section
variable {q : Pattern} {dir rest : List String}

theorem Pattern.EndsDeep.accepts_append (hdeep : q.EndsDeep) (h : q.accepts o (joined dir) = true) :
    q.accepts o (joined (dir ++ rest)) = true := by
  by_cases hdir : dir = []
  · subst hdir
    exact matchTokens_append hdeep h (joined rest).toList
  by_cases hrest : rest = []
  · subst hrest
    rwa [List.append_nil]
  unfold Pattern.accepts
  rw [joined_append hdir hrest, String.append_assoc, String.toList_append]
  exact matchTokens_append hdeep h _

theorem Pattern.IsShallow.not_accepts_append (hshallow : q.IsShallow) (hdir : dir ≠ []) (hrest : rest ≠ [])
    (h : q.accepts levels (joined dir) = true) : q.accepts levels (joined (dir ++ rest)) = false := by
  rw [Bool.eq_false_iff]
  intro hbelow
  have hcount := count_slash_of_matchTokens hshallow h
  have hcount' := count_slash_of_matchTokens hshallow hbelow
  have hseparator : ("/" : String).toList.count '/' = 1 := rfl
  rw [joined_append hdir hrest, String.toList_append, String.toList_append, List.count_append, List.count_append,
    hseparator] at hcount'
  omega

end

end Stowage.Glob
