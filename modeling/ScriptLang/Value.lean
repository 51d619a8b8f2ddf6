import ScriptLang.Number

/-! Values. Functions, classes and instances live in a heap and are told apart by their place. -/

namespace ScriptLang

abbrev FrameId := Nat
abbrev FunctionId := Nat
abbrev ClassId := Nat
abbrev InstanceId := Nat

/-- A function that every session provides. -/
structure Native where
  name : String
  arity : Nat
deriving DecidableEq, Repr

inductive Value where
  | nil
  | bool (b : Bool)
  | number (x : Float)
  | string (s : String)
  | native (f : Native)
  | function (f : FunctionId)
  | classObj (c : ClassId)
  | instanceObj (i : InstanceId)
deriving DecidableEq

namespace Value

/-- Everything but nil and false counts as true. -/
def truthy : Value → Bool
  | .nil => false
  | .bool b => b
  | _ => true

/-- Equality as scripts see it. Numbers are equal when they are the same number, so zero differs
from negative zero and an undefined number equals itself; native functions are equal when their
names are. -/
def equals : Value → Value → Bool
  | .native f, .native g => f.name = g.name
  | a, b => a = b

/-- The exponent of a printed number. -/
def exponentText : Int → String
  | .ofNat n => "E" ++ n.repr
  | .negSucc n => "E-" ++ (n + 1).repr

/-- A printed number: shortest digits, in scientific notation below a thousandth and from ten
million on, with at least one decimal place there and none for a whole number elsewhere. -/
def numberText (x : Float) : String :=
  match Number.parts x with
  | .nan => "NaN"
  | .infinite negative => Number.signed negative "Infinity"
  | .finite negative 0 _ => Number.signed negative "0"
  | .finite negative mantissa exponent =>
    let d := Number.shortest .up mantissa exponent
    Number.signed negative <|
      if d.magnitude < -3 ∨ 7 ≤ d.magnitude then d.mantissaText ".0" ++ exponentText d.magnitude
      else d.positional

end Value

end ScriptLang
