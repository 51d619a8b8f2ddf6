import ScriptLang.Decimal.Shortest

/-! Numbers are IEEE 754 binary64. This module opens a number into sign, mantissa and exponent and
holds the texts that more than one kind of output shares. -/

namespace ScriptLang.Number

/-- A number taken apart. A finite one is `mantissa * 2 ^ exponent`, negated if `negative`. -/
inductive Parts where
  | nan
  | infinite (negative : Bool)
  | finite (negative : Bool) (mantissa : Nat) (exponent : Int)
deriving DecidableEq, Repr

/-- The parts of a number, read off its 64 bits. -/
def parts (x : Float) : Parts :=
  let bits := x.toBits.toNat
  let negative : Bool := bits / Nat.pow 2 63 = 1
  let field : Nat := bits / Nat.pow 2 52 % Nat.pow 2 11
  let fraction := bits % Nat.pow 2 52
  if field = 2047 then
    if fraction = 0 then .infinite negative else .nan
  else if field = 0 then .finite negative fraction (-1074)
  else .finite negative (Nat.pow 2 52 + fraction) ((field : Int) - 1075)

/-- The shortest decimal that reads back as the finite number with these parts. Below a power of
two the numbers lie twice as dense as above it. -/
def shortest (tie : Decimal.Tie) (mantissa : Nat) (exponent : Int) : Decimal :=
  Decimal.shortest tie mantissa exponent (mantissa = Nat.pow 2 52 && exponent ≠ -1074)

/-- The whole number `mantissa * 2 ^ exponent`, if it is one. -/
def whole? (mantissa : Nat) : Int → Option Nat
  | .ofNat n => some (mantissa * Nat.pow 2 n)
  | .negSucc n =>
    if mantissa % Nat.pow 2 (n + 1) = 0 then some (mantissa / Nat.pow 2 (n + 1)) else none

/-- A minus sign in front of the text of a negative number. -/
def signed (negative : Bool) (text : String) : String :=
  if negative then "-" ++ text else text

/-- The shortest digits without an exponent, however many zeros that takes. A whole number has no
point, and infinity and the undefined number have names. -/
def plain (x : Float) : String :=
  match parts x with
  | .nan => "NaN"
  | .infinite negative => signed negative "inf"
  | .finite negative 0 _ => signed negative "0"
  | .finite negative mantissa exponent =>
    signed negative (shortest .up mantissa exponent).positional

/-- The number written as `whole` or as `whole.fraction`, both nonempty and in decimal digits. -/
def ofDigits (whole fraction : List UInt8) : Float :=
  let value := (whole ++ fraction).foldl (fun n b => 10 * n + (b.toNat - 48)) 0
  Float.ofScientific value true fraction.length

end ScriptLang.Number
