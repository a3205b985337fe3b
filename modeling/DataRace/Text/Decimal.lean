/-!
# DataRace.Text.Decimal

Numbers with a fixed count of decimals.

The exact value of a binary floating-point number is a fraction over a power
of two; it is rounded once, and a value half way goes to the even digit.
-/

namespace DataRace

namespace Text

/-- The quotient rounded to the nearest number, a half to the even one. -/
def roundDiv (num den : Nat) : Nat :=
  let q := num / den
  let r := num % den
  if 2 * r < den then q
  else if 2 * r > den then q + 1
  else q + q % 2

/-- The exact magnitude of a finite floating-point number as a fraction. -/
def fraction (x : Float) : Nat × Nat :=
  let bits := x.toBits.toNat
  let exponent := bits / 0x10000000000000 % 0x800
  let low := bits % 0x10000000000000
  let significand := if exponent = 0 then low else low + 0x10000000000000
  let exponent := max exponent 1
  if 1075 ≤ exponent then
    (significand * Nat.pow 2 (exponent - 1075), 1)
  else
    (significand, Nat.pow 2 (1075 - exponent))

/-- A count of units of `10 ^ -places`, written with a decimal point. -/
def pointed (places : Nat) (units : Nat) : String :=
  let decimals := toString (units % Nat.pow 10 places)
  toString (units / Nat.pow 10 places) ++ "." ++
    "".pushn '0' (places - decimals.length) ++ decimals

/-- A non-negative number with the given count of decimals. -/
def fixed (places : Nat) (x : Float) : String :=
  let (num, den) := fraction x
  pointed places (roundDiv (num * Nat.pow 10 places) den)

end Text

end DataRace
