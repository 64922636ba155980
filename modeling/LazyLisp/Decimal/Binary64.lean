/-!
# Doubles as a mantissa and a power of two

A double-precision number is read here from its bits, as a sign, a
natural mantissa and a power of two. All texts of floats are computed
from this exact form, so that no digit depends on floating-point
arithmetic.
-/

namespace LazyLisp

/-- What a double-precision number is: not a number, an infinity, or a
sign with a mantissa times a power of two. The zeros have mantissa zero. -/
inductive Binary64 where
  /-- Not a number. -/
  | nan
  /-- An infinity, negative or positive. -/
  | infinite (negative : Bool)
  /-- The number `± mantissa · 2 ^ exponent`. -/
  | finite (negative : Bool) (mantissa : Nat) (exponent : Int)
deriving DecidableEq

namespace Binary64

/-- The mantissa bit that is not stored: that of all numbers but the
smallest ones. -/
def hiddenBit : Nat := Nat.pow 2 52

/-- The exponent of the smallest numbers. -/
def leastExponent : Int := -1074

/-- Reads the three fields of a 64-bit pattern. -/
def ofBits (bits : Nat) : Binary64 :=
  let negative := bits / Nat.pow 2 63 % 2 == 1
  let field : Nat := bits / Nat.pow 2 52 % Nat.pow 2 11
  let fraction := bits % Nat.pow 2 52
  if field = 2047 then
    if fraction = 0 then .infinite negative else .nan
  else if field = 0 then .finite negative fraction leastExponent
  else .finite negative (hiddenBit + fraction) ((field : Int) - 1075)

/-- The exact content of a float. -/
def ofFloat (x : Float) : Binary64 := ofBits x.toBits.toNat

/-- The natural number `mantissa · 2 ^ exponent`, if it is one. -/
def integral? (mantissa : Nat) (exponent : Int) : Option Nat :=
  if 0 ≤ exponent then some (mantissa * Nat.pow 2 exponent.toNat)
  else
    let unit : Nat := Nat.pow 2 (-exponent).toNat
    if mantissa % unit = 0 then some (mantissa / unit) else none

end Binary64

end LazyLisp
