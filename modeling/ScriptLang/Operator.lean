import ScriptLang.Fault
import ScriptLang.Value

/-! What operators make of values. -/

namespace ScriptLang.Value

/-- An operator in front of a value. -/
def applyUnary (operator : Kind) (v : Value) : Except FaultCause Value :=
  match operator, v with
  | .minus, .number x => .ok (.number (-x))
  | .minus, _ => .error .operandNotNumber
  | .bang, v => .ok (.bool (!v.truthy))
  | _, _ => .error .invalidUnary

/-- An operator that takes numbers only. -/
def arithmetic (operator : Kind) (a b : Float) : Except FaultCause Value :=
  match operator with
  | .minus => .ok (.number (a - b))
  | .star => .ok (.number (a * b))
  | .slash => .ok (.number (a / b))
  | .greater => .ok (.bool (b < a))
  | .greaterEqual => .ok (.bool (b ≤ a))
  | .less => .ok (.bool (a < b))
  | .lessEqual => .ok (.bool (a ≤ b))
  | _ => .error .invalidBinary

/-- An operator between two values. -/
def applyBinary (operator : Kind) (a b : Value) : Except FaultCause Value :=
  match operator with
  | .plus =>
    match a, b with
    | .number x, .number y => .ok (.number (x + y))
    | .string s, .string t => .ok (.string (s ++ t))
    | _, _ => .error .operandsNotAddable
  | .equalEqual => .ok (.bool (a.equals b))
  | .bangEqual => .ok (.bool (!a.equals b))
  | _ =>
    match a, b with
    | .number x, .number y => arithmetic operator x y
    | _, _ => .error .operandsNotNumbers

end ScriptLang.Value
