import LazyLisp.Decimal.Binary64

/-!
# The shortest decimal that reads back

Among all decimals that lie in the interval of reals rounded to a given
double, this module picks one with the fewest digits and, of those, the
nearest to the double; an exact tie goes up. The search walks the decimal
grids `10 ^ k` from coarse to fine and tests, in exact arithmetic on
naturals, the two neighbours of the double on each grid.
-/

namespace LazyLisp.Decimal

/-- A positive decimal: the number `digits · 10 ^ exponent`. -/
structure Scaled where
  /-- All significant digits, read as one natural number. -/
  digits : Nat
  /-- The power of ten that they count. -/
  exponent : Int
deriving DecidableEq, Inhabited

/-- The reals that round to one positive double, in quarters of a unit in
its last place: `low` and `high` bound them, `value` is the double itself,
and all three count `2 ^ exponent`. -/
structure Interval where
  low : Nat
  value : Nat
  high : Nat
  exponent : Int
  /-- Whether the two ends belong to the interval: an even mantissa wins
  ties. -/
  closed : Bool

/-- The interval of the double `mantissa · 2 ^ exponent`. Below a power of
two the spacing of doubles halves, so the lower end moves closer. -/
def Interval.ofDouble (mantissa : Nat) (exponent : Int) : Interval :=
  let atPower := mantissa == Binary64.hiddenBit && exponent != Binary64.leastExponent
  { low := 4 * mantissa - (if atPower then 1 else 2)
    value := 4 * mantissa
    high := 4 * mantissa + 2
    exponent := exponent - 2
    closed := mantissa % 2 == 0 }

/-- The natural factors that make `2 ^ e` and `10 ^ k` comparable: `m · 2 ^ e`
and `c · 10 ^ k` compare as `m · twos` and `c · tens`. -/
structure Grid where
  twos : Nat
  tens : Nat

/-- The factors for an interval's power of two and a grid's power of ten. -/
def Grid.of (e k : Int) : Grid :=
  { twos := Nat.pow 2 e.toNat * Nat.pow 10 (-k).toNat
    tens := Nat.pow 2 (-e).toNat * Nat.pow 10 k.toNat }

/-- Whether the grid point `c` lies in the interval. -/
def Grid.contains (g : Grid) (i : Interval) (c : Nat) : Bool :=
  let point := c * g.tens
  if i.closed then i.low * g.twos ≤ point && point ≤ i.high * g.twos
  else i.low * g.twos < point && point < i.high * g.twos

/-- The grid point in the interval that is nearest to the double, if the
grid has any; of two equally near ones the larger. -/
def Grid.pick (g : Grid) (i : Interval) : Option Nat :=
  let value := i.value * g.twos
  let below := value / g.tens
  let above := below + 1
  match g.contains i below, g.contains i above with
  | true, true =>
      if value - below * g.tens < above * g.tens - value then some below else some above
  | true, false => some below
  | false, true => some above
  | false, false => none

/-- An exponent whose power of ten exceeds `value · 2 ^ e`. -/
def upperExponent (value : Nat) (e : Int) : Int :=
  let whole := value * Nat.pow 2 e.toNat / Nat.pow 2 (-e).toNat
  if whole = 0 then
    1 - ((Nat.toDigits 10 (Nat.pow 2 (-e).toNat / value)).length : Int)
  else ((Nat.toDigits 10 whole).length : Int)

/-- Tries the grids `10 ^ k`, `10 ^ (k - 1)`, … and takes the first point
found. -/
def search (i : Interval) : Nat → Int → Scaled
  | 0, k => ⟨i.value, k⟩
  | steps + 1, k =>
      match (Grid.of i.exponent k).pick i with
      | some c => ⟨c, k⟩
      | none => search i steps (k - 1)

/-- The shortest decimal that reads back as the positive double
`mantissa · 2 ^ exponent`. Seventeen digits always suffice, and the search
starts at most two grids above the first of them. -/
def shortest (mantissa : Nat) (exponent : Int) : Scaled :=
  let i := Interval.ofDouble mantissa exponent
  search i 20 (upperExponent i.value i.exponent)

/-- The decimal written without an exponent. -/
def positional (d : Scaled) : String :=
  let digits := Nat.toDigits 10 d.digits
  let places := (-d.exponent).toNat
  if places = 0 then String.ofList (digits ++ List.replicate d.exponent.toNat '0')
  else if digits.length ≤ places then
    "0." ++ String.ofList (List.replicate (places - digits.length) '0' ++ digits)
  else
    String.ofList (digits.take (digits.length - places)) ++ "."
      ++ String.ofList (digits.drop (digits.length - places))

end LazyLisp.Decimal
