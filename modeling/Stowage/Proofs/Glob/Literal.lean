/-
Patterns without wildcards. The pattern of a quoted text compiles, accepts the characters of the text and no
others, and a pattern that stands for a text is spelled as that text.
-/
import Mathlib.Data.List.Forall2
import Stowage.Glob.Expansion

namespace Stowage.Glob

/-- The characters that are quoted. -/
def IsSpecial (c : Char) : Prop := c = '?' ∨ c = '*' ∨ c = '[' ∨ c = ']'

instance (c : Char) : Decidable (IsSpecial c) := inferInstanceAs (Decidable (_ ∨ _))

/-- A quoted character. -/
def exactlyChar (c : Char) : Token := if IsSpecial c then .within [.one c] else .char c

/-- The pattern of a quoted text. -/
def exactly (n : String) : Pattern := ⟨n.toList.map exactlyChar⟩

/-- A character as it is quoted. -/
def quoted (c : Char) : List Char := if IsSpecial c then ['[', c, ']'] else [c]

theorem toList_literal (n : String) : (literal n).toList = n.toList.flatMap quoted := by
  unfold literal
  rw [String.toList_ofList]; rfl

/-! ## Compiling -/

theorem setToken_special {c : Char} (hc : IsSpecial c) (r : List Char) :
    setToken (c :: ']' :: r) = some (.within [.one c], r) := by
  -- the first character of a set never closes it, so a bracket can be quoted like the others
  rcases hc with rfl | rfl | rfl | rfl <;> rfl

theorem compileFrom_special {c : Char} (hc : IsSpecial c) (position : Nat) (before : Option Char)
    (r : List Char) : compileFrom position before ('[' :: c :: ']' :: r) =
      (compileFrom (position + 3) (some ']') r).map (.within [.one c] :: ·) := by
  rw [compileFrom]
  split
  · rename_i h
    rw [setToken_special hc] at h; cases h
  · rename_i h
    rw [setToken_special hc] at h
    cases h
    have hlength : position + 1 + ((c :: ']' :: r).length - r.length) = position + 3 := by
      simp only [List.length_cons]; omega
    rw [hlength]; rfl

theorem compileFrom_plain {c : Char} (hc : ¬ IsSpecial c) (position : Nat) (before : Option Char)
    (r : List Char) : compileFrom position before (c :: r) =
      (compileFrom (position + 1) (some c) r).map (.char c :: ·) := by
  unfold IsSpecial at hc
  simp only [not_or] at hc
  rw [compileFrom]
  · rfl
  · exact hc.1
  · exact fun _ h => absurd h hc.2.1
  · exact fun _ h => absurd h hc.2.1
  · exact hc.2.1
  · exact hc.2.2.1

theorem compileFrom_quoted (cs : List Char) (position : Nat) (before : Option Char) :
    compileFrom position before (cs.flatMap quoted) = .ok (cs.map exactlyChar) := by
  induction cs generalizing position before with
  | nil => rw [List.flatMap_nil, compileFrom]; rfl
  | cons c cs ih =>
    rw [List.flatMap_cons, List.map_cons]
    unfold quoted exactlyChar
    split
    · rename_i hc
      show compileFrom position before ('[' :: c :: ']' :: cs.flatMap quoted) = _
      rw [compileFrom_special hc, ih]; rfl
    · rename_i hc
      show compileFrom position before (c :: cs.flatMap quoted) = _
      rw [compileFrom_plain hc, ih]; rfl

theorem compile_literal (n : String) : compile (literal n) = .ok (exactly n) := by
  unfold compile
  rw [toList_literal, compileFrom_quoted]; rfl

theorem exists_of_cons_ok {x : Except Fault (List Token)} {t : Token} {ts : List Token}
    (h : (do return t :: (← x)) = Except.ok ts) : ∃ rest, x = .ok rest ∧ ts = t :: rest := by
  rcases x with f | rest
  · cases h
  · cases h; exact ⟨rest, rfl, rfl⟩

theorem literal?_set {r rest : List Char} {t : Token} (h : setToken r = some (t, rest))
    (ts : List Token) : literal? (t :: ts) = none := by
  unfold setToken at h
  split at h <;>
  · obtain ⟨_, -, he⟩ := Option.map_eq_some_iff.1 h
    cases he; rfl

theorem compileFrom_literal? {position : Nat} {before : Option Char} {cs ls : List Char}
    {ts : List Token} (h : compileFrom position before cs = .ok ts) (hl : literal? ts = some ls) :
    ls = cs := by
  fun_induction compileFrom position before cs generalizing ts ls with
  | case1 => cases h; cases hl; rfl
  | case2 | case5 | case8 =>
    obtain ⟨_, -, rfl⟩ := exists_of_cons_ok h
    cases hl
  | case3 | case6 | case7 | case9 => cases h
  | case4 => cases h; cases hl
  | case10 _ _ _ _ _ hset =>
    obtain ⟨_, -, rfl⟩ := exists_of_cons_ok h
    rw [literal?_set hset] at hl
    cases hl
  | case11 _ _ c r _ _ _ _ _ ih =>
    obtain ⟨rest, hrest, rfl⟩ := exists_of_cons_ok h
    obtain ⟨l, hrestl, rfl⟩ := Option.map_eq_some_iff.1 hl
    rw [ih hrest hrestl]

/-- What a pattern without wildcards stands for is its own text. -/
theorem compile_literal? {text : String} {c : Pattern} {ls : List Char} (h : compile text = .ok c)
    (hl : literal? c.tokens = some ls) : ls = text.toList := by
  unfold compile at h
  rcases hc : compileFrom 0 none text.toList with f | tokens
  · rw [hc] at h; cases h
  · rw [hc] at h
    cases h
    exact compileFrom_literal? hc hl

theorem tokens_of_literal? {ts : List Token} {ls : List Char} (h : literal? ts = some ls) :
    ts = ls.map .char := by
  fun_induction literal? ts generalizing ls with
  | case1 => cases h; rfl
  | case2 c ts ih =>
    obtain ⟨l, hl, rfl⟩ := Option.map_eq_some_iff.1 h
    rw [ih hl]; rfl
  | case3 => cases h

theorem literal?_exactly {cs ls : List Char} (h : literal? (cs.map exactlyChar) = some ls) : ls = cs := by
  induction cs generalizing ls with
  | nil => cases h; rfl
  | cons c cs ih =>
    rw [List.map_cons] at h
    unfold exactlyChar at h
    split at h
    · cases h
    · obtain ⟨l, hl, rfl⟩ := Option.map_eq_some_iff.1 h
      rw [ih hl]

theorem exists_special {cs : List Char} (h : literal? (cs.map exactlyChar) = none) :
    ∃ c ∈ cs, IsSpecial c := by
  induction cs with
  | nil => cases h
  | cons c cs ih =>
    by_cases hc : IsSpecial c
    · exact ⟨c, by simp, hc⟩
    · rw [List.map_cons, exactlyChar, if_neg hc] at h
      obtain ⟨x, hx, hs⟩ := ih (Option.map_eq_none_iff.1 h)
      exact ⟨x, by simp [hx], hs⟩

/-! ## Matching -/

theorem accepts_exactlyChar {o : Options} {b c : Char} (h : (exactlyChar c).accepts o b = true) :
    charEq o b c = true := by
  unfold exactlyChar at h
  split at h
  · simp only [Token.accepts, Bool.and_eq_true, List.any_cons, List.any_nil, Bool.or_false] at h
    exact h.2
  · exact h

/-- A quoted text is matched character by character. -/
theorem forall₂_of_matchTokens {o : Options} {cs bs : List Char}
    (h : matchTokens o (cs.map exactlyChar) bs = true) :
    List.Forall₂ (fun b c => charEq o b c = true) bs cs := by
  induction cs generalizing bs with
  | nil =>
    rw [List.map_nil, matchTokens, List.isEmpty_iff] at h
    rw [h]; exact .nil
  | cons c cs ih =>
    rcases bs with _ | ⟨b, bs⟩
    · rw [List.map_cons, exactlyChar] at h
      split at h <;> cases h
    · have hstep : matchTokens o (exactlyChar c :: cs.map exactlyChar) (b :: bs) =
          ((exactlyChar c).accepts o b && matchTokens o (cs.map exactlyChar) bs) := by
        unfold exactlyChar
        split <;> rfl
      rw [List.map_cons, hstep, Bool.and_eq_true] at h
      exact .cons (accepts_exactlyChar h.1) (ih h.2)

theorem eq_of_accepts {o : Options} (ho : o.caseSensitive = true) {n m : String}
    (h : (exactly n).accepts o m = true) : m = n := by
  rw [← String.toList_inj, ← List.forall₂_eq_eq_eq]
  refine (forall₂_of_matchTokens h).imp fun b c hbc => ?_
  simpa [charEq, ho] using hbc

theorem not_charEq_dot {o : Options} {c : Char} (hc : IsSpecial c) : charEq o '.' c = false := by
  unfold charEq
  rcases hc with rfl | rfl | rfl | rfl <;> split <;> decide

theorem not_special_of_dots {o : Options} {bs cs : List Char}
    (h : List.Forall₂ (fun b c => charEq o b c = true) bs cs) (hb : ∀ b ∈ bs, b = '.') :
    ∀ c ∈ cs, ¬ IsSpecial c := by
  induction h with
  | nil => exact fun c hc => absurd hc List.not_mem_nil
  | @cons b c bs cs hbc _ ih =>
    rw [List.forall_mem_cons] at hb ⊢
    refine ⟨fun hc => ?_, ih hb.2⟩
    rw [hb.1, not_charEq_dot hc] at hbc
    cases hbc

/-- A quoted text with wildcard characters is no text of dots. -/
theorem not_accepts_dots {o : Options} {n s : String} (hs : ∀ b ∈ s.toList, b = '.')
    (h : literal? (exactly n).tokens = none) : (exactly n).accepts o s = false := by
  obtain ⟨c, hc, hspecial⟩ := exists_special h
  rw [Bool.eq_false_iff]
  exact fun ha => not_special_of_dots (forall₂_of_matchTokens ha) hs c hc hspecial

end Stowage.Glob
