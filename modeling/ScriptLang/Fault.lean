import ScriptLang.Message
import ScriptLang.Sink

/-! Failures of running scripts. -/

namespace ScriptLang

/-- Why a script fails at a token. -/
inductive FaultCause where
  | operandNotNumber
  | operandsNotNumbers
  | operandsNotAddable
  | undefinedVariable (name : String)
  | undefinedProperty (name : String)
  | notCallable
  | wrongArity (expected got : Nat)
  | noProperties
  | noFields
  | superclassNotClass
  | stackOverflow
  | invalidUnary
  | invalidBinary
deriving DecidableEq, Repr

def FaultCause.text : FaultCause → String
  | .operandNotNumber => "Operand must be a number."
  | .operandsNotNumbers => "Operands must be numbers."
  | .operandsNotAddable => "Operands must be two numbers or two strings."
  | .undefinedVariable name => "Undefined variable '" ++ name ++ "'."
  | .undefinedProperty name => "Undefined property '" ++ name ++ "'."
  | .notCallable => "Can only call functions and classes."
  | .wrongArity expected got =>
    "Expected " ++ expected.repr ++ " arguments but got " ++ got.repr ++ "."
  | .noProperties => "Only instances have properties."
  | .noFields => "Only instances have fields."
  | .superclassNotClass => "Superclass must be a class."
  | .stackOverflow => "Stack overflow."
  | .invalidUnary => "Invalid unary operator."
  | .invalidBinary => "Invalid binary operator."

/-- A failure: of the script at a token, or of the sink it prints to. -/
inductive Fault where
  | raised (token : Token) (cause : FaultCause)
  | sink (e : SinkError)
deriving DecidableEq

def Fault.message : Fault → String
  | .raised token cause => Message.running token cause.text
  | .sink e => e.message

end ScriptLang
