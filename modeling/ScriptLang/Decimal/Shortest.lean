/-! Shortest decimal text of a binary fraction. A binary floating-point number stands for every
real in an interval around it; the shortest decimal that reads back is a multiple of the coarsest
power of ten that has a multiple in that interval. All arithmetic is exact. -/

namespace ScriptLang

/-- The number `digits * 10 ^ exponent`. -/
structure Decimal where
  digits : Nat
  exponent : Int
deriving DecidableEq, Repr

namespace Decimal

/-- Which of two equally near decimals is taken. -/
inductive Tie where
  | up
  | toEven
deriving DecidableEq, Repr

/-- The reals that read as the number `value`, all four scaled by one power of ten and by four.
The ends belong to the interval when `closed`. -/
structure Interval where
  low : Nat
  value : Nat
  high : Nat
  closed : Bool
deriving DecidableEq, Repr

/-- Whether a scaled number reads as the interval's value. -/
def Interval.holds (i : Interval) (x : Nat) : Bool :=
  if i.closed then i.low ≤ x && x ≤ i.high else i.low < x && x < i.high

/-- The multiple of `4 * 10 ^ k` in the interval that is nearest to the value, as its factor. -/
def Interval.nearest? (i : Interval) (tie : Tie) (k : Nat) : Option Nat :=
  let grid := 4 * Nat.pow 10 k
  let below := i.value / grid
  let above := below + 1
  match i.holds (below * grid), i.holds (above * grid) with
  | false, false => none
  | true, false => some below
  | false, true => some above
  | true, true =>
    let down := i.value - below * grid
    let up := above * grid - i.value
    if down < up then some below
    else if up < down then some above
    else match tie with
      | .up => some above
      | .toEven => some (if below % 2 = 0 then below else above)

/-- The nearest multiple on the coarsest grid, from `10 ^ k` down to the grid of exponent zero,
on which the value itself lies. -/
def Interval.coarsest (i : Interval) (tie : Tie) : Nat → Nat × Nat
  | 0 => (i.value / 4, 0)
  | k + 1 =>
    match i.nearest? tie (k + 1) with
    | some factor => (factor, k + 1)
    | none => i.coarsest tie k

/-- The shortest decimal that reads as `mantissa * 2 ^ exponent`. The reals below the number that
read as it reach half as far as those above it when `narrow`. -/
def shortest (tie : Tie) (mantissa : Nat) (exponent : Int) (narrow : Bool) : Decimal :=
  let scale := match exponent with
    | .ofNat n => Nat.pow 2 n
    | .negSucc n => Nat.pow 5 (n + 1)
  let unit : Int := min exponent 0
  let interval : Interval := {
    low := (4 * mantissa - if narrow then 1 else 2) * scale
    value := 4 * mantissa * scale
    high := (4 * mantissa + 2) * scale
    closed := mantissa % 2 = 0 }
  -- No power of ten above the number's own order of magnitude has a multiple in the interval.
  let start := ((Nat.log2 mantissa + 1 + exponent) * 30103 / 100000 + 2 - unit).toNat
  let (factor, k) := interval.coarsest tie start
  ⟨factor, unit + k⟩

/-- The number of digits. -/
def width (d : Decimal) : Nat := d.digits.repr.length

/-- The exponent of the first digit. -/
def magnitude (d : Decimal) : Int := d.exponent + d.width - 1

/-! ### Layouts -/

/-- Digits with a point where it belongs and no exponent; a whole number has no point. -/
def positional (d : Decimal) : String :=
  let digits := d.digits.repr.toList
  match d.exponent with
  | .ofNat n => String.ofList (digits ++ List.replicate n '0')
  | .negSucc n =>
    let padded := List.replicate (n + 2 - digits.length) '0' ++ digits
    let whole := padded.length - (n + 1)
    String.ofList (padded.take whole ++ '.' :: padded.drop whole)

/-- The first digit, a point and the other digits, or `bare` after the first digit if it is the
only one. -/
def mantissaText (d : Decimal) (bare : String) : String :=
  match d.digits.repr.toList with
  | [] => ""
  | [c] => String.ofList [c] ++ bare
  | c :: cs => String.ofList (c :: '.' :: cs)

end Decimal

end ScriptLang
