import LazyLisp.Decimal.Shortest

/-!
# How floats are written

Floats are always written without an exponent. Two styles exist and
differ only on numbers without a fraction: as a *value* such a number is
written out exactly and marked with `.0`, so that it cannot be taken for
an integer; as a *literal*, in messages about the program's text, it
appears with its shortest digits alone.
-/

namespace LazyLisp.Decimal

/-- The decisions that distinguish the two ways to write a float. -/
structure FloatStyle where
  /-- Write a number without a fraction exactly and with `.0` after it. -/
  markIntegral : Bool

namespace FloatStyle

/-- Floats among the values of a program. -/
def value : FloatStyle := ⟨true⟩

/-- Floats in messages that quote a program's text. -/
def literal : FloatStyle := ⟨false⟩

/-- The sign of a number; zero has one too. -/
def sign (negative : Bool) : String := if negative then "-" else ""

/-- The text of a number that is not negative. -/
def magnitude (style : FloatStyle) (mantissa : Nat) (exponent : Int) : String :=
  match style.markIntegral, Binary64.integral? mantissa exponent with
  | true, some n => n.repr ++ ".0"
  | _, _ => if mantissa = 0 then "0" else positional (shortest mantissa exponent)

/-- The text of a decoded float. -/
def write (style : FloatStyle) : Binary64 → String
  | .nan => "NaN"
  | .infinite negative => sign negative ++ "inf"
  | .finite negative mantissa exponent => sign negative ++ style.magnitude mantissa exponent

/-- The text of a float. -/
def text (style : FloatStyle) (x : Float) : String := style.write (Binary64.ofFloat x)

end FloatStyle

end LazyLisp.Decimal
