import TypeCorpus.Number.Binary64
import TypeCorpus.Number.Digits

/-! Decimal texts of floating point numbers. Of the decimals that read back as a number, `shortest`
takes one with the fewest digits, and of those the nearest: a decimal reads back when it lies
between the middles of the gaps to the neighbours, the middles included if the significand is even.
Of two that are equally near, `Tie` says which is taken. `Style` is that choice together with how
an exponent is written and where positional notation ends. -/

namespace TypeCorpus.Number

/-- The decimal `coefficient` times ten to the power of `exponent`. -/
structure Decimal where
  coefficient : Nat
  exponent : Int
  deriving DecidableEq

/-- The decimals that read back as a number: `value`, `low` and `high` are fractions over `unit`. -/
structure ReadBack where
  value : Nat
  low : Nat
  high : Nat
  unit : Nat
  closed : Bool

/-- Below a power of two the gap is half as wide as above it. -/
def Finite.readBack (x : Finite) : ReadBack where
  value := 4 * x.scaled
  low := 4 * x.scaled - (if x.fraction.val = 0 ∧ 1 < x.exponent.val then 1 else 2) * (1 <<< x.unit)
  high := 4 * x.scaled + 2 * (1 <<< x.unit)
  unit := 4 <<< 1074
  closed := x.significand % 2 = 0

/-- Ten to a power that may be negative, as a fraction. -/
def tenPower (k : Int) : Nat × Nat := (Nat.pow 10 k.toNat, Nat.pow 10 (-k).toNat)

/-- Whether a decimal reads back. -/
def ReadBack.holds (r : ReadBack) (d : Decimal) : Bool :=
  let (up, down) := tenPower d.exponent
  let v := d.coefficient * up * r.unit
  if r.closed then r.low * down ≤ v && v ≤ r.high * down else r.low * down < v && v < r.high * down

/-- The number of digits before the point, less than one for a small value. -/
def ReadBack.magnitude (r : ReadBack) : Int :=
  (digits (r.value * Nat.pow 10 400 / r.unit)).length - 400

/-- Which of two equally near decimals is taken: the one with the even last digit, or the larger. -/
inductive Tie where
  | toEven
  | up
  deriving DecidableEq

/-- The decimals with `n` digits on both sides of the value, the nearer first. -/
def ReadBack.neighbours (tie : Tie) (r : ReadBack) (n : Nat) : List Decimal :=
  let k := r.magnitude - n
  let (up, down) := tenPower k
  let a := r.value * down
  let d := r.unit * up
  let below : Decimal := ⟨a / d, k⟩
  let above : Decimal := ⟨a / d + 1, k⟩
  let rest := a % d
  if 2 * rest < d ∨ (2 * rest = d ∧ tie = .toEven ∧ a / d % 2 = 0) then [below, above]
  else [above, below]

/-- Takes the zeros off the end of the coefficient, at most `n` of them. -/
def Decimal.strip : Nat → Decimal → Decimal
  | 0, d => d
  | n + 1, d =>
    if d.coefficient % 10 = 0 then strip n ⟨d.coefficient / 10, d.exponent + 1⟩ else d

/-- Seventeen digits always read back. -/
def Finite.shortest (tie : Tie) (x : Finite) : Decimal :=
  let r := x.readBack
  let found := (List.range 17).findSome? fun n => (r.neighbours tie (n + 1)).find? r.holds
  (found.getD ⟨0, 0⟩).strip 20

/-- How numbers are written: the numbers of digits before the point that positional notation covers,
whether an exponent that is not negative has a sign, and which of two equally near decimals is
taken. -/
structure Style where
  fewest : Int
  most : Int
  plusSign : Bool
  tie : Tie

/-- The text of a positive decimal in a style. -/
def Decimal.text (style : Style) (d : Decimal) : List Char :=
  let ds := digits d.coefficient
  let point := ds.length + d.exponent
  if style.fewest ≤ point ∧ point ≤ style.most then
    if point ≤ 0 then '0' :: '.' :: List.replicate (-point).toNat '0' ++ ds
    else if 0 ≤ d.exponent then ds ++ List.replicate d.exponent.toNat '0' ++ ['.', '0']
    else ds.take point.toNat ++ '.' :: ds.drop point.toNat
  else
    ds.take 1 ++ (if ds.length = 1 then [] else '.' :: ds.drop 1) ++
      'e' :: (if style.plusSign && 0 < point then ['+'] else []) ++ integerDigits (point - 1)

def Finite.text (style : Style) (x : Finite) : List Char :=
  (if x.negative then ['-'] else []) ++
    (if x.isZero then ['0', '.', '0'] else (x.shortest style.tie).text style)

/-- The number nearest to a decimal; `none` beyond the largest. -/
def Finite.ofDecimal? (negative : Bool) (d : Decimal) : Option Finite :=
  let (up, down) := tenPower d.exponent
  ofRatio? negative (d.coefficient * up) down

/-- Plain texts are positional from a ten-thousandth up to sixteen digits, and a half goes up. -/
def plainStyle : Style := ⟨-3, 16, false, .up⟩

namespace Binary64

/-- The text of any number, with names for those that are not finite. -/
def text : Binary64 → String
  | finite x => String.ofList (x.text plainStyle)
  | infinite negative => if negative then "-inf" else "inf"
  | notANumber => "NaN"

end Binary64

end TypeCorpus.Number
