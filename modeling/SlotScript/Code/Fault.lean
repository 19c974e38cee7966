import SlotScript.Diagnostic
import SlotScript.Operator

/-! # Faults found while lowering

A program that reads well may still use a name that is not declared, or an
operator on types it is not defined for.  Such a fault is tied to the token that
causes it. -/

namespace SlotScript

/-- A reason why a statement cannot be lowered. -/
inductive LowerFault where
  | undefinedVariable (name : String)
  | duplicateDeclaration (name : String)
  | unresolvableType (name : String)
  | unsupportedPromotion (left right : Ty)
  | unsupportedIntegralPromotion (left right : Ty)
  | unsupportedComparison (left right : Ty)
  | assignmentMismatch (name : String) (value target : Ty)
  | notNumeric (t : Ty)
  | notIntegral (t : Ty)
  | notBoolean (t : Ty)
  | invalidConversion (source target : Ty)
  | unsupportedOperator (lexeme : String)
  | noValue
  | unsupportedStatement (name : String)
deriving DecidableEq, Repr

/-- The two kinds of faults: names that mean nothing, and types that do not
fit. -/
inductive LowerFault.Category where
  | resolution | type
deriving DecidableEq, Repr

namespace LowerFault

/-- The category's name. -/
def Category.name : Category → String
  | .resolution => "Resolution"
  | .type => "Type"

/-- The category of a fault. -/
def category : LowerFault → Category
  | .undefinedVariable _ | .duplicateDeclaration _ | .unresolvableType _ => .resolution
  | _ => .type

/-- The fault as it is shown to the user. -/
def message : LowerFault → String
  | .undefinedVariable name => "Undefined variable '" ++ name ++ "'."
  | .duplicateDeclaration name => "Variable '" ++ name ++ "' already declared in this scope."
  | .unresolvableType name => "Cannot resolve type '" ++ name ++ "'."
  | .unsupportedPromotion left right =>
    "Cannot promote types " ++ left.name ++ " and " ++ right.name ++ " to a numeric type."
  | .unsupportedIntegralPromotion left right =>
    "Cannot promote types " ++ left.name ++ " and " ++ right.name ++ " to an integer type."
  | .unsupportedComparison left right =>
    "Cannot compare types " ++ left.name ++ " and " ++ right.name ++ "."
  | .assignmentMismatch name value target =>
    "Cannot assign value of type '" ++ value.name ++ "' to variable '" ++ name ++
      "' of type '" ++ target.name ++ "'."
  | .notNumeric t => "Operand is not a numeric type: " ++ t.name
  | .notIntegral t => "Operand is not an integer type: " ++ t.name
  | .notBoolean t => "Cannot convert type " ++ t.name ++ " to bool"
  | .invalidConversion source target =>
    "Cannot convert type " ++ source.name ++ " to " ++ target.name ++ "."
  | .unsupportedOperator lexeme => "Unsupported binary operator: " ++ lexeme
  | .noValue => "Expression has no value."
  | .unsupportedStatement name => "Unsupported statement: " ++ name

end LowerFault

/-- A fault with the place that causes it. -/
structure LowerError where
  line : Nat
  location : Location
  fault : LowerFault
deriving DecidableEq, Repr

namespace LowerError

/-- The error at a token. -/
def atToken (t : Token) (fault : LowerFault) : LowerError := ⟨t.line, .ofToken t, fault⟩

/-- The error as it is shown to the user. -/
def text (e : LowerError) : String :=
  lineMark e.line ++ " " ++ e.fault.category.name ++ " error " ++ e.location.text ++ ": " ++
    e.fault.message

end LowerError

end SlotScript
