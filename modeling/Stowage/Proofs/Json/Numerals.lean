/-
Numbers that are written and read again. The digits of a written number are read back as they stand, whatever ends the
number, so that reading it is a matter of the digits alone. An integer is what it was before. A double is read with the
rounding of each step, which need not lead back to it.
-/
import Stowage.Json.Printer
import Stowage.Proofs.Json.Members

namespace Stowage.Json

variable {α : Type}

/-! ## Digits -/

/-- The text goes on without such a character, or ends. -/
def StartsWithout (p : Char → Bool) (rest : List Char) : Prop := ∀ c, rest.head? = some c → p c = false

theorem startsWithout_cons {p : Char → Bool} {c : Char} (h : p c = false) (rest : List Char) :
    StartsWithout p (c :: rest) := by
  rintro x hx
  cases hx
  exact h

/-- What follows a number does not go on with it. -/
def Ended (rest : List Char) : Prop := StartsWithout (fun c => isDigit c || c = '.' || c = 'e' || c = 'E') rest

/-- The reader takes the text as that result, whatever ends it. -/
def Reads (reader : Reader α) (text : List Char) (result : Except Fault α) : Prop :=
  ∀ rest, Ended rest → reader (text ++ rest) = result.map (·, rest)

theorem parse_of_reads {reader : Reader α} {text : String} {result : Except Fault α}
    (h : Reads reader text.toList result) : parse reader text = result := by
  have hread := h [] nofun
  rw [List.append_nil] at hread
  unfold parse
  rw [hread]
  rcases result with e | x <;> rfl

/-- At least one digit. -/
structure IsDigits (ds : List Char) : Prop where
  ne_nil : ds ≠ []
  all : ∀ c ∈ ds, isDigit c = true

theorem Ended.withoutDigit {rest : List Char} (h : Ended rest) : StartsWithout isDigit rest := by
  intro c hc
  have hall := h c hc
  simp only [Bool.or_eq_false_iff] at hall
  exact hall.1.1.1

theorem someDigits_append {ds rest : List Char} (h : IsDigits ds) (hrest : StartsWithout isDigit rest) :
    someDigits (ds ++ rest) = .ok (ds, rest) := by
  obtain ⟨c, cs, rfl⟩ := List.exists_cons_of_ne_nil h.ne_nil
  have htail : rest.takeWhile isDigit = [] ∧ rest.dropWhile isDigit = rest := by
    rcases rest with _ | ⟨x, rest⟩
    · exact ⟨rfl, rfl⟩
    · have hx : isDigit x = false := hrest x rfl
      rw [List.takeWhile_cons, List.dropWhile_cons, hx]
      exact ⟨rfl, rfl⟩
  show (if isDigit c then _ else _) = _
  rw [if_pos (h.all c (List.mem_cons_self ..)), List.span_eq_takeWhile_dropWhile, List.takeWhile_append_of_pos h.all,
    List.dropWhile_append_of_pos h.all, htail.1, htail.2, List.append_nil]

/-- A digit is no sign. -/
theorem ne_of_isDigit {c x : Char} (hx : isDigit x = true) (hc : isDigit c = false) : x ≠ c := by
  rintro rfl
  rw [hx] at hc
  cases hc

/-! ## The parts of a number -/

def signed (isNegative : Bool) (ds : List Char) : List Char := if isNegative then '-' :: ds else ds

def fractionText (fraction : Option (List Char)) : List Char := fraction.elim [] ('.' :: ·)

def exponentText (exponent : Option (Bool × List Char)) : List Char := exponent.elim [] fun e => 'e' :: signed e.1 e.2

theorem sign_signed {x : Char} (hx : isDigit x = true) (isNegative : Bool) (cs : List Char) :
    sign (signed isNegative (x :: cs)) = (isNegative, x :: cs) := by
  cases isNegative
  · show sign (x :: cs) = _
    unfold sign
    split
    · rename_i heq
      exact absurd (List.cons.inj heq).1 (ne_of_isDigit hx rfl)
    · rfl
  · rfl

theorem exponentSign_signed {x : Char} (hx : isDigit x = true) (isSmall : Bool) (cs : List Char) :
    exponentSign (signed isSmall (x :: cs)) = (isSmall, x :: cs) := by
  unfold exponentSign
  split
  · rename_i heq
    cases isSmall
    · exact absurd (List.cons.inj heq).1 (ne_of_isDigit hx rfl)
    · cases heq
  · exact sign_signed hx isSmall cs

theorem wholeDigits_append {whole rest : List Char} (h : IsDigits whole)
    (hfirst : whole.head? = some '0' → whole = ['0']) (hrest : StartsWithout isDigit rest) :
    wholeDigits (whole ++ rest) = .ok (whole, rest) := by
  have hsome : someDigits (whole ++ rest) = .ok (whole, rest) := someDigits_append h hrest
  unfold wholeDigits
  split
  · rename_i c r heq
    have hzero : whole = ['0'] := by
      obtain ⟨w, ws, rfl⟩ := List.exists_cons_of_ne_nil h.ne_nil
      exact hfirst (congrArg some (List.cons.inj heq).1)
    subst hzero
    obtain rfl := (List.cons.inj heq).2
    rw [if_neg (by rw [hrest c rfl]; exact Bool.false_ne_true)]
  · exact hsome

theorem fractionDigits_append {fraction : Option (List Char)} (h : ∀ ds, fraction = some ds → IsDigits ds)
    {rest : List Char} (hrest : StartsWithout (fun c => isDigit c || c = '.') rest) :
    fractionDigits (fractionText fraction ++ rest) = .ok (fraction, rest) := by
  rcases fraction with _ | ds
  · show fractionDigits rest = _
    unfold fractionDigits
    split
    · exact absurd (hrest _ rfl) (by decide)
    · rfl
  · have hdigits : StartsWithout isDigit rest := fun c hc => (Bool.or_eq_false_iff.1 (hrest c hc)).1
    show (someDigits (ds ++ rest) >>= _) = _
    rw [someDigits_append (h ds rfl) hdigits]
    rfl

theorem exponentDigits_append {exponent : Option (Bool × List Char)} (h : ∀ e, exponent = some e → IsDigits e.2)
    {rest : List Char} (hrest : Ended rest) :
    exponentDigits (exponentText exponent ++ rest) = .ok (exponent, rest) := by
  rcases exponent with _ | ⟨isSmall, ds⟩
  · show exponentDigits rest = _
    unfold exponentDigits
    split
    · exact absurd (hrest _ rfl) (by decide)
    · exact absurd (hrest _ rfl) (by decide)
    · rfl
  · have hds : IsDigits ds := h _ rfl
    have hsome : someDigits (ds ++ rest) = .ok (ds, rest) := someDigits_append hds hrest.withoutDigit
    obtain ⟨x, xs, rfl⟩ := List.exists_cons_of_ne_nil hds.ne_nil
    have hx : isDigit x = true := hds.all x (List.mem_cons_self ..)
    have hsigned : signed isSmall (x :: xs) ++ rest = signed isSmall (x :: (xs ++ rest)) := by cases isSmall <;> rfl
    show scaling (signed isSmall (x :: xs) ++ rest) = _
    unfold scaling
    rw [hsigned, exponentSign_signed hx, ← List.cons_append]
    dsimp only
    rw [hsome]
    rfl

/-! ## Written digits -/

/-- The text of a number with some digits. -/
def Digits.text (d : Digits) : List Char :=
  signed d.isNegative (d.whole ++ (fractionText d.fraction ++ exponentText d.exponent))

/-- The digits can stand for a number. -/
structure Digits.WellFormed (d : Digits) : Prop where
  whole : IsDigits d.whole
  first : d.whole.head? = some '0' → d.whole = ['0']
  fraction : ∀ ds, d.fraction = some ds → IsDigits ds
  exponent : ∀ e, d.exponent = some e → IsDigits e.2

theorem digits_text {d : Digits} (h : d.WellFormed) {rest : List Char} (hrest : Ended rest) :
    digits (d.text ++ rest) = .ok (d, rest) := by
  have hexponent : StartsWithout (fun c => isDigit c || c = '.') (exponentText d.exponent ++ rest) := by
    rcases d.exponent with _ | e
    · intro c hc
      have hall := hrest c hc
      simp only [Bool.or_eq_false_iff] at hall ⊢
      exact hall.1.1
    · exact startsWithout_cons rfl _
  have hfraction : StartsWithout isDigit (fractionText d.fraction ++ (exponentText d.exponent ++ rest)) := by
    rcases d.fraction with _ | ds
    · exact fun c hc => (Bool.or_eq_false_iff.1 (hexponent c hc)).1
    · exact startsWithout_cons rfl _
  have hsign : sign (d.text ++ rest) =
      (d.isNegative, d.whole ++ (fractionText d.fraction ++ (exponentText d.exponent ++ rest))) := by
    obtain ⟨x, xs, hx⟩ := List.exists_cons_of_ne_nil h.whole.ne_nil
    have hdigit : isDigit x = true := h.whole.all x (hx ▸ List.mem_cons_self ..)
    unfold Digits.text
    rw [hx, List.cons_append, List.cons_append, ← sign_signed hdigit]
    cases d.isNegative <;> simp [signed]
  unfold digits
  rw [hsign]
  dsimp only
  rw [wholeDigits_append h.whole h.first hfraction]
  show (fractionDigits _ >>= _) = _
  rw [fractionDigits_append h.fraction hexponent]
  show (exponentDigits _ >>= _) = _
  rw [exponentDigits_append h.exponent hrest]
  rfl

/-! ## Decimal digits of naturals -/

/-- The digits of a natural. -/
def decimals (n : Nat) : List Char := Nat.toDigits 10 n

theorem toList_toString (n : Nat) : (toString n).toList = decimals n := Nat.toList_repr

theorem isDigits_decimals (n : Nat) : IsDigits (decimals n) := by
  refine ⟨Nat.toDigits_ne_nil, fun c hc => ?_⟩
  have h := Nat.isDigit_of_mem_toDigits (by decide) (by decide) hc
  simpa [Char.isDigit, isDigit, Char.le_def] using h

/-- Only zero starts with a zero. -/
theorem head_decimals {n : Nat} (h : (decimals n).head? = some '0') : n = 0 := by
  induction n using Nat.strong_induction_on with
  | _ n ih =>
    unfold decimals at h
    rw [Nat.toDigits_eq_if (by decide)] at h
    split at h
    · rename_i hlt
      have hall : ∀ m < 10, some (Nat.digitChar m) = some '0' → m = 0 := by decide
      exact hall n hlt h
    · rw [List.head?_append_of_ne_nil _ Nat.toDigits_ne_nil] at h
      have := ih (n / 10) (by omega) h
      omega

theorem decimals_first {n : Nat} (h : (decimals n).head? = some '0') : decimals n = ['0'] := by
  rw [head_decimals h]
  rfl

/-- Digits that fit 64 bits are gathered into their natural. -/
theorem gather_eq {ds : List Char} {n : Nat} (h : Nat.ofDigitChars 10 ds n ≤ natural64) :
    gather n ds = (Nat.ofDigitChars 10 ds n, []) := by
  induction ds generalizing n with
  | nil => rfl
  | cons c ds ih =>
    rw [Nat.ofDigitChars_cons, Nat.mul_comm] at h ⊢
    have hle : n * 10 + digitValue c ≤ natural64 := by
      refine le_trans ?_ h
      rw [Nat.ofDigitChars_eq_ofDigitChars_zero]
      exact le_trans (Nat.le_mul_of_pos_left _ (Nat.pow_pos (by decide))) (Nat.le_add_right _ _)
    rw [gather, if_pos hle]
    exact ih h

theorem gather_decimals {n : Nat} (h : n ≤ natural64) : gather 0 (decimals n) = (n, []) := by
  have hvalue : Nat.ofDigitChars 10 (decimals n) 0 = n := Nat.ofDigitChars_toDigits (by decide) (by decide)
  rw [gather_eq (by rw [hvalue]; exact h), hvalue]

end Stowage.Json

namespace Stowage.Double

/-! ## Decimals of doubles -/

/-- A double that is not zero is not read from zero. -/
theorem digits_ne_zero_of_reads {x : Double} {d : Decimal} (hx : x.mantissa ≠ 0) (h : x.reads d = true) :
    d.digits ≠ 0 := by
  intro hd
  have hunit : 0 < pow2 x.exponent * pow10 (-d.exponent) :=
    Nat.mul_pos (Nat.pow_pos (by decide)) (Nat.pow_pos (by decide))
  have hlarge : 4 * (pow2 x.exponent * pow10 (-d.exponent)) ≤
      4 * x.mantissa * (pow2 x.exponent * pow10 (-d.exponent)) :=
    Nat.mul_le_mul_right _ (by omega)
  unfold reads at h
  simp only [hd, Nat.mul_zero, Nat.zero_mul, Nat.zero_add] at h
  split at h <;> split at h <;> simp at h <;> omega

theorem digits_ne_zero_of_onGrid {x : Double} {k : Int} {d : Decimal} (hx : x.mantissa ≠ 0)
    (h : x.onGrid k = some d) : d.digits ≠ 0 := by
  obtain ⟨near, far, h⟩ : ∃ near far, (if x.reads near = true then some near
      else if x.reads far = true then some far else none) = some d := ⟨_, _, h⟩
  by_cases hnear : x.reads near = true
  · rw [if_pos hnear] at h
    exact digits_ne_zero_of_reads hx (Option.some.inj h ▸ hnear)
  · rw [if_neg hnear] at h
    by_cases hfar : x.reads far = true
    · rw [if_pos hfar] at h
      exact digits_ne_zero_of_reads hx (Option.some.inj h ▸ hfar)
    · rw [if_neg hfar] at h
      cases h

theorem digits_trim_ne_zero {d : Decimal} (h : d.digits ≠ 0) (fuel : Nat) : (d.trim fuel).digits ≠ 0 := by
  induction fuel generalizing d with
  | zero => exact h
  | succ fuel ih =>
    unfold Decimal.trim
    split
    · exact ih (d := ⟨d.digits / 10, d.exponent + 1⟩) (by show d.digits / 10 ≠ 0; omega)
    · exact h

/-- The shortest decimal has no zeros at its end, and zero is a single digit. -/
theorem exponent_shortest {x : Double} (h : x.shortest.digits = 0) : x.shortest.exponent = 0 := by
  unfold shortest at h ⊢
  split at h
  · rename_i hx
    rw [if_pos hx]
  · rename_i hx
    rw [if_neg hx]
    dsimp only at h ⊢
    rcases hf : (List.range 17).findSome? fun (n : Nat) => x.onGrid (magnitude x.quotient.1 x.quotient.2 640 309 - n)
      with _ | d
    · rfl
    · obtain ⟨n, -, hgrid⟩ := List.exists_of_findSome?_eq_some hf
      rw [hf] at h
      exact absurd h (digits_trim_ne_zero (digits_ne_zero_of_onGrid hx hgrid) 20)

end Stowage.Double

namespace Stowage.Json

theorem toList_toString_int (i : Int) : (toString i).toList = signed (decide (i < 0)) (decimals i.natAbs) := by
  rcases i with n | n
  · rw [show decide (Int.ofNat n < 0) = false from rfl]
    exact toList_toString n
  · show ("-" ++ toString (n + 1)).toList = _
    rw [String.toList_append, toList_toString, decide_eq_true (Int.negSucc_lt_zero n)]
    rfl

theorem isDigits_zeros (n : Nat) {ds : List Char} (h : IsDigits ds) : IsDigits (List.replicate n '0' ++ ds) := by
  refine ⟨List.append_ne_nil_of_right_ne_nil _ h.ne_nil, fun c hc => ?_⟩
  rcases List.mem_append.1 hc with hc | hc
  · rw [(List.mem_replicate.1 hc).2]
    rfl
  · exact h.all c hc

theorem IsDigits.take {ds : List Char} (h : IsDigits ds) {n : Nat} (hn : 0 < n) : IsDigits (ds.take n) :=
  ⟨fun hnil => (List.take_eq_nil_iff.1 hnil).elim (fun h0 => absurd h0 hn.ne') h.ne_nil,
    fun c hc => h.all c (List.mem_of_mem_take hc)⟩

theorem IsDigits.drop {ds : List Char} (h : IsDigits ds) {n : Nat} (hn : n < ds.length) : IsDigits (ds.drop n) :=
  ⟨fun hnil => absurd (List.drop_eq_nil_iff.1 hnil) (Nat.not_le.2 hn), fun c hc => h.all c (List.mem_of_mem_drop hc)⟩

theorem isDigits_zero : IsDigits ['0'] := ⟨List.cons_ne_nil _ _, List.forall_mem_singleton.2 rfl⟩

/-- A start of digits has no leading zero either. -/
theorem take_first {ds : List Char} (h : ds.head? = some '0' → ds = ['0']) {n : Nat} (hn : 0 < n) :
    (ds.take n).head? = some '0' → ds.take n = ['0'] := by
  intro hhead
  rw [List.head?_take, if_neg hn.ne'] at hhead
  rw [h hhead]
  exact List.take_of_length_le hn

/-- A written double is the text of some digits. -/
theorem writeReal_text (f : RealFormat) {d : Double.Decimal} (hd : d.digits = 0 → d.exponent = 0) :
    ∃ g : Digits, g.WellFormed ∧ g.isNegative = false ∧ (writeReal f d).toList = g.text := by
  have hds : IsDigits (decimals d.digits) := isDigits_decimals d.digits
  have hfirst : (decimals d.digits).head? = some '0' → decimals d.digits = ['0'] := decimals_first
  have hdecimals : (toString d.digits).toList = decimals d.digits := toList_toString d.digits
  have hsize : (toString d.digits).length = (decimals d.digits).length := by rw [← String.length_toList, hdecimals]
  unfold writeReal
  dsimp only
  rw [hsize]
  split
  · -- in place, with zeros before the point
    have hhead : (decimals d.digits ++ List.replicate d.exponent.toNat '0').head? = some '0' →
        decimals d.digits ++ List.replicate d.exponent.toNat '0' = ['0'] := by
      intro h
      rw [List.head?_append_of_ne_nil _ hds.ne_nil] at h
      rw [hd (head_decimals h), hfirst h]
      rfl
    have hzeros : ∀ c ∈ List.replicate d.exponent.toNat '0', isDigit c = true := fun c hc =>
      (List.mem_replicate.1 hc).2 ▸ rfl
    refine ⟨⟨false, decimals d.digits ++ List.replicate d.exponent.toNat '0', some ['0'], none⟩,
      ⟨⟨List.append_ne_nil_of_left_ne_nil hds.ne_nil _, ?_⟩, hhead, ?_, nofun⟩, rfl, ?_⟩
    · exact fun c hc => (List.mem_append.1 hc).elim (hds.all c) (hzeros c)
    · rintro _ ⟨⟩
      exact isDigits_zero
    · rw [String.toList_append, String.toList_append, hdecimals, zeros, String.toList_ofList]
      rfl
  · split
    · -- in place, with the point between the digits
      have hpos : 0 < (((decimals d.digits).length : Int) + d.exponent).toNat := by omega
      refine ⟨⟨false, (decimals d.digits).take (((decimals d.digits).length : Int) + d.exponent).toNat,
        some ((decimals d.digits).drop (((decimals d.digits).length : Int) + d.exponent).toNat), none⟩,
        ⟨hds.take hpos, take_first hfirst hpos, ?_, nofun⟩, rfl, ?_⟩
      · rintro _ ⟨⟩
        exact hds.drop (by omega)
      · rw [hdecimals, List.splitAt_eq]
        simp [Digits.text, signed, fractionText, exponentText]
    · split
      · -- in place, with zeros after the point
        refine ⟨⟨false, ['0'], some (List.replicate (-(((decimals d.digits).length : Int) + d.exponent)).toNat '0' ++
          decimals d.digits), none⟩, ⟨isDigits_zero, fun _ => rfl, ?_, nofun⟩, rfl, ?_⟩
        · rintro _ ⟨⟩
          exact isDigits_zeros _ hds
        · rw [String.toList_append, String.toList_append, hdecimals, zeros, String.toList_ofList]
          simp [Digits.text, signed, fractionText, exponentText]
      · -- with an exponent
        rw [hdecimals, List.splitAt_eq]
        dsimp only
        rw [String.toList_append, String.toList_append, String.toList_append, toList_toString_int, String.toList_ofList]
        have hexponent : ∀ e, some (decide ((((decimals d.digits).length : Int) + d.exponent - 1) < 0),
            decimals (((decimals d.digits).length : Int) + d.exponent - 1).natAbs) = some e → IsDigits e.2 := by
          rintro _ ⟨⟩
          exact isDigits_decimals _
        by_cases hone : (decimals d.digits).drop 1 = []
        · refine ⟨⟨false, (decimals d.digits).take 1, none, some _⟩,
            ⟨hds.take Nat.one_pos, take_first hfirst Nat.one_pos, nofun, hexponent⟩, rfl, ?_⟩
          rw [hone]
          simp [Digits.text, signed, fractionText, exponentText]
        · refine ⟨⟨false, (decimals d.digits).take 1, some ((decimals d.digits).drop 1), some _⟩,
            ⟨hds.take Nat.one_pos, take_first hfirst Nat.one_pos, ?_, hexponent⟩, rfl, ?_⟩
          · rintro _ ⟨⟩
            exact ⟨hone, fun c hc => hds.all c (List.mem_of_mem_drop hc)⟩
          · rw [if_neg (by simpa using hone)]
            simp [Digits.text, signed, fractionText, exponentText]

/-! ## Numbers -/

/-- The digits of an integer. -/
def integerDigits (isNegative : Bool) (n : Nat) : Digits := ⟨isNegative, decimals n, none, none⟩

theorem wellFormed_integerDigits (isNegative : Bool) (n : Nat) : (integerDigits isNegative n).WellFormed :=
  ⟨isDigits_decimals n, decimals_first, nofun, nofun⟩

theorem text_integerDigits (isNegative : Bool) (n : Nat) :
    (integerDigits isNegative n).text = signed isNegative (decimals n) := by
  show signed isNegative (decimals n ++ ([] ++ [])) = _
  rw [List.append_nil, List.append_nil]

theorem writeNatural_text (n : Nat) : (writeNumber (.natural n)).toList = (integerDigits false n).text := by
  rw [text_integerDigits]
  exact toList_toString n

theorem writeNegative_text (n : Nat) : (writeNumber (.negative n)).toList = (integerDigits true n).text := by
  rw [text_integerDigits]
  show ("-" ++ toString n).toList = _
  rw [String.toList_append, toList_toString]
  rfl

/-- A written number is the text of some digits. -/
theorem writeNumber_text (n : Number) : ∃ g : Digits, g.WellFormed ∧ (writeNumber n).toList = g.text := by
  cases n with
  | natural n => exact ⟨_, wellFormed_integerDigits false n, writeNatural_text n⟩
  | negative n => exact ⟨_, wellFormed_integerDigits true n, writeNegative_text n⟩
  | real isNegative x =>
    obtain ⟨⟨_, whole, fraction, exponent⟩, hg, rfl, htext⟩ := writeReal_text realFormat Double.exponent_shortest
    refine ⟨⟨isNegative, whole, fraction, exponent⟩, ⟨hg.whole, hg.first, hg.fraction, hg.exponent⟩, ?_⟩
    show ((if isNegative then "-" else "") ++ writeReal realFormat x.shortest).toList = _
    rw [String.toList_append, htext]
    cases isNegative <;> rfl

theorem reads_text {g : Digits} (hg : g.WellFormed) : Reads numeral g.text g.number := by
  intro rest hrest
  unfold numeral
  rw [digits_text hg hrest]
  show (g.number >>= _) = _
  rcases g.number with e | n <;> rfl

theorem parse_numeral {g : Digits} (hg : g.WellFormed) {text : String} (h : text.toList = g.text) :
    parse numeral text = g.number := parse_of_reads (h ▸ reads_text hg)

/-- A written number is read as it is on its own, whatever ends it. -/
theorem reads_writeNumber (n : Number) : Reads numeral (writeNumber n).toList (parse numeral (writeNumber n)) := by
  obtain ⟨g, hg, htext⟩ := writeNumber_text n
  rw [parse_numeral hg htext, htext]
  exact reads_text hg

/-- The number is one of those that are read. -/
def Number.InRange : Number → Prop
  | .natural n => n ≤ natural64
  | .negative n => 0 < n ∧ n ≤ Nat.pow 2 63
  | .real _ _ => True

/-- An integer is read back. -/
theorem parse_writeNumber {n : Number} (hn : n.InRange) (hinteger : ∀ isNegative x, n ≠ .real isNegative x) :
    parse numeral (writeNumber n) = .ok n := by
  cases n with
  | natural n =>
    rw [parse_numeral (wellFormed_integerDigits false n) (writeNatural_text n)]
    unfold Digits.number integerDigits
    dsimp only
    rw [gather_decimals hn]
    rfl
  | negative n =>
    have hle : n ≤ natural64 := le_trans hn.2 (by decide)
    rw [parse_numeral (wellFormed_integerDigits true n) (writeNegative_text n)]
    unfold Digits.number integerDigits
    dsimp only
    rw [gather_decimals hle]
    simp [hn.1, hn.2]
  | real isNegative x => exact absurd rfl (hinteger isNegative x)

theorem gather_le {n : Nat} (hn : n ≤ natural64) (ds : List Char) : (gather n ds).1 ≤ natural64 := by
  induction ds generalizing n with
  | nil => exact hn
  | cons c ds ih =>
    rw [gather]
    split
    · exact ih ‹_›
    · exact hn

/-- What is read is in range. -/
theorem inRange_number (g : Digits) : Allows Number.InRange g.number := by
  unfold Digits.number
  have hle : (gather 0 g.whole).1 ≤ natural64 := gather_le (Nat.zero_le _) _
  rcases hgathered : gather 0 g.whole with ⟨n, restWhole⟩
  rw [hgathered] at hle
  dsimp only
  split
  · exact allows_ok hle
  · split
    · rename_i hnegative
      simp only [Bool.and_eq_true, decide_eq_true_eq] at hnegative
      exact allows_ok ⟨hnegative.1.2, hnegative.2⟩
    · split
      · exact allows_ok trivial
      · exact allows_error _

theorem yields_numeral : Yields Number.InRange numeral := fun _ =>
  allows_bind' fun d => allows_bind (inRange_number d.1) fun _ hn => allows_ok hn

end Stowage.Json
