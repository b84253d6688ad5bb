/-
Binary floating point in exact arithmetic: the nearest double of a quotient of naturals, and the
fewest decimal digits that lie closer to a double than to any other.
-/

namespace Stowage

/-- The double `mantissa · 2 ^ exponent`, where the mantissa has at most 53 bits. -/
structure Double where
  mantissa : Nat
  exponent : Int
  deriving DecidableEq, Inhabited

namespace Double

def zero : Double := ⟨0, -1074⟩

/-- Two to the part of an exponent above zero. -/
def pow2 (e : Int) : Nat := Nat.pow 2 e.toNat

/-! ## Rounding -/

/-- The natural nearest to `num / den`, a tie goes to the even one. -/
def roundEven (num den : Nat) : Nat :=
  let q := num / den
  let r := num % den
  if 2 * r < den then q
  else if den < 2 * r then q + 1
  else if q % 2 = 0 then q else q + 1

/-- The double nearest to `num / den`; nothing when it is beyond the largest double. -/
def ofQuotient (num den : Nat) : Option Double :=
  if num = 0 then some zero else
  let guess : Int := (num.log2 : Int) - den.log2 - 53
  let scaled (e : Int) : Nat × Nat := (num * pow2 (-e), den * pow2 e)
  let guess := if (scaled guess).1 / (scaled guess).2 < Nat.pow 2 53 then guess else guess + 1
  let e := max guess (-1074)
  let m := roundEven (scaled e).1 (scaled e).2
  let (m, e) := if m = Nat.pow 2 53 then (Nat.pow 2 52, e + 1) else (m, e)
  if e > 971 then none else some ⟨m, e⟩

/-- The exact value as a quotient of naturals. -/
def quotient (x : Double) : Nat × Nat := (x.mantissa * pow2 x.exponent, pow2 (-x.exponent))

/-- The nearest double of a product. -/
def mul (x y : Double) : Option Double :=
  ofQuotient (x.quotient.1 * y.quotient.1) (x.quotient.2 * y.quotient.2)

/-- The nearest double of a quotient. -/
def div (x y : Double) : Option Double :=
  ofQuotient (x.quotient.1 * y.quotient.2) (x.quotient.2 * y.quotient.1)

/-! ## Decimal digits -/

/-- The decimal `digits · 10 ^ exponent`. -/
structure Decimal where
  digits : Nat
  exponent : Int
  deriving DecidableEq, Inhabited

/-- Ten to the part of an exponent above zero. -/
def pow10 (e : Int) : Nat := Nat.pow 10 e.toNat

/-- The decimal reads back as the double: it lies no further from it than half the way to its
neighbours, and on the halves themselves only when the mantissa is even. -/
def reads (x : Double) (d : Decimal) : Bool :=
  -- every quantity is scaled by four times the denominators of both numbers
  let unit := pow2 x.exponent * pow10 (-d.exponent)
  let value := 4 * x.mantissa * unit
  let decimal := 4 * d.digits * pow10 d.exponent * pow2 (-x.exponent)
  let below := if x.mantissa = Nat.pow 2 52 ∧ x.exponent > -1074 then unit else 2 * unit
  let above := 2 * unit
  if x.mantissa % 2 = 0 then value ≤ decimal + below && decimal ≤ value + above
  else value < decimal + below && decimal < value + above

/-- The largest `p` with `10 ^ p ≤ num / den`, found downwards from `start`. -/
def magnitude (num den : Nat) : Nat → Int → Int
  | 0, p => p
  | fuel + 1, p => if den * pow10 p ≤ num * pow10 (-p) then p else magnitude num den fuel (p - 1)

/-- The decimal on the grid of `10 ^ k` that reads back and is nearest to the double. -/
def onGrid (x : Double) (k : Int) : Option Decimal :=
  let (num, den) := x.quotient
  let num := num * pow10 (-k)
  let den := den * pow10 k
  let low : Decimal := ⟨num / den, k⟩
  let high : Decimal := ⟨num / den + 1, k⟩
  let near := if roundEven num den = low.digits then low else high
  let far := if near = low then high else low
  if x.reads near then some near else if x.reads far then some far else none

/-- A decimal without trailing zeros. -/
def Decimal.trim : Nat → Decimal → Decimal
  | 0, d => d
  | fuel + 1, d =>
    if d.digits ≠ 0 ∧ d.digits % 10 = 0 then Decimal.trim fuel ⟨d.digits / 10, d.exponent + 1⟩
    else d

/-- The decimal with the fewest digits that reads back, the nearest one among those. -/
def shortest (x : Double) : Decimal :=
  if x.mantissa = 0 then ⟨0, 0⟩ else
  let (num, den) := x.quotient
  let p := magnitude num den 640 309
  let found := (List.range 17).findSome? fun (n : Nat) => x.onGrid (p - n)
  (found.getD ⟨0, 0⟩).trim 20

end Double
end Stowage
