/-! Binary floating point numbers of 64 bits. A finite one is a whole number of units, and a unit is
a power of two times the smallest positive number, 2 to the power of minus 1074; so magnitudes
compare as natural numbers. `nearest` divides with rounding to the nearest quotient, a half going to
the even one, and `Finite.ofRatio?` is the finite number nearest to a fraction, if there is one. -/

namespace TypeCorpus.Number

/-- Two to the power of 52, the first significand of full width. -/
def fullWidth : Nat := 4503599627370496

/-- A finite number by its fields: a sign, a biased exponent and the bits below the leading one. -/
structure Finite where
  negative : Bool
  exponent : Fin 2047
  fraction : Fin 4503599627370496
  deriving DecidableEq

inductive Binary64 where
  | finite (x : Finite)
  | infinite (negative : Bool)
  | notANumber
  deriving DecidableEq

namespace Finite

/-- Zero with a sign. -/
def zero (negative : Bool) : Finite := ⟨negative, ⟨0, by decide⟩, ⟨0, by decide⟩⟩

def one : Finite := ⟨false, ⟨1023, by decide⟩, ⟨0, by decide⟩⟩

/-- The number of units, with the leading one that the fields leave out. -/
def significand (x : Finite) : Nat :=
  if x.exponent = 0 then x.fraction else fullWidth + x.fraction

/-- The unit, as a power of two of the smallest positive number. -/
def unit (x : Finite) : Nat := x.exponent - 1

/-- The magnitude, counted in the smallest positive number. -/
def scaled (x : Finite) : Nat := x.significand <<< x.unit

def isZero (x : Finite) : Bool := x.scaled = 0

end Finite

/-- The quotient nearest to `a / d`; a half goes to the even one. -/
def nearest (a d : Nat) : Nat :=
  let q := a / d
  let r := a % d
  if 2 * r < d then q else if d < 2 * r then q + 1 else if q % 2 = 0 then q else q + 1

namespace Finite

/-- The number of `m` units of `2 ^ u`; `none` if that is too large. -/
def ofUnits? (negative : Bool) (m u : Nat) : Option Finite :=
  if m < fullWidth then
    some ⟨negative, 0, Fin.ofNat _ m⟩
  else if m < 2 * fullWidth then
    if u < 2046 then some ⟨negative, Fin.ofNat _ (u + 1), Fin.ofNat _ (m - fullWidth)⟩ else none
  else if u < 2045 then
    some ⟨negative, Fin.ofNat _ (u + 2), Fin.ofNat _ (m / 2 - fullWidth)⟩
  else none

/-- The finite number nearest to `p / q`; `none` beyond the largest. The unit is the smallest that
leaves a significand of at most full width, and rounding up to twice that moves on to the next unit.
-/
def ofRatio? (negative : Bool) (p q : Nat) : Option Finite :=
  let a := p <<< 1074
  let u := (a / q).log2 - 52
  ofUnits? negative (nearest a (q <<< u)) u

end Finite

end TypeCorpus.Number
