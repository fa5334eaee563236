import TypeInference.Scope.Symbol
import TypeInference.Syntax.Operator
import TypeInference.Ty.Unify

/-!
# `Diagnostic` — why a program is refused

A diagnostic is a cause and the place it is about. The wording, the code and the note at the place are
functions of the cause; types appear in it by their texts, as they were when the cause arose.

## Contents
* `Cause` — the reasons for a refusal, first those about names, then those about types;
* `Cause.message`, `Cause.code`, `Cause.note` — what is shown for a cause;
* `Diagnostic`, and the diagnostic of a clash (`Clash.diagnostic`).
-/

namespace TypeInference

/-! ## Causes -/

/-- The reasons to refuse a program. Causes about names carry the name and, where it was found, its kind; causes
    about types carry the texts of the types. -/
inductive Cause
  /-- The scope, the struct or the enum has this name already. -/
  | duplicate (kind : SymbolKind) (name : String)
  /-- No scope around has the name. -/
  | undefined (name : String)
  /-- The name is used as a value, or assigned, and is of a kind that cannot be. -/
  | notAValue (kind : SymbolKind) (name : String)
  /-- The name is used as a type and is of another kind. -/
  | notAType (kind : SymbolKind) (name : String)
  /-- The name is the target of a jump and is of another kind. -/
  | notALabel (kind : SymbolKind) (name : String)
  /-- The variable has its value and may not change. -/
  | immutableAssignment (name : String)
  /-- There is no function to return from. -/
  | returnOutsideFunction
  /-- A scope around declares the name as a type. -/
  | shadowsType (name : String)
  /-- No scope has been recorded for the node. -/
  | missingScope
  /-- Two types that have to be equal are not. -/
  | mismatch (left right : String)
  /-- A type variable would have to contain itself. -/
  | recursiveUnification (var ty : String)
  /-- The index of a list is not a number. -/
  | nonNumericIndex (found : String)
  /-- The index of a map is not of the type of its keys. -/
  | indexKeyMismatch (expected found : String)
  /-- The value is no string, list or map. -/
  | notIndexable (found : String)
  /-- A unary operator does not apply to its operand. -/
  | operatorMismatch (op : UnaryOp) (operand : String)
  /-- A binary operator does not apply to its operands. -/
  | binaryOperatorMismatch (op : BinaryOp) (left right : String)
  deriving DecidableEq, Repr

/-- A text between two grave accents, as diagnostics name what the program wrote. -/
def quoted (text : String) : String := "`" ++ text ++ "`"

namespace Cause

/-- The wording of a refusal. It is made from what the cause carries and from nothing else, so two refusals for the
    same cause read the same. -/
def message : Cause → String
  | .duplicate kind name => kind.text ++ " " ++ quoted name ++ " declared twice in the same scope"
  | .undefined name => "use of undefined name " ++ quoted name
  | .notAValue kind name => kind.text ++ " " ++ quoted name ++ " cannot be used as a value"
  | .notAType kind name => kind.text ++ " " ++ quoted name ++ " is not a type"
  | .notALabel kind name => kind.text ++ " " ++ quoted name ++ " is not a label"
  | .immutableAssignment name => "cannot assign to immutable " ++ quoted name
  | .returnOutsideFunction => quoted "return" ++ " outside of a function"
  | .shadowsType name => quoted name ++ " shadows a type declared in an enclosing scope"
  | .missingScope => "node was analyzed before scope injection"
  | .mismatch left right => (Clash.mismatch left right).message
  | .recursiveUnification var ty => (Clash.recursive var ty).message
  | .nonNumericIndex found => "expected index of list to be a number, got " ++ quoted found
  | .indexKeyMismatch expected found =>
    "expected index of map to be " ++ quoted expected ++ ", got " ++ quoted found
  | .notIndexable found => "value of type " ++ quoted found ++ " is not indexable"
  | .operatorMismatch op operand =>
    "operator " ++ quoted op.lexeme ++ " cannot be applied to operand of type " ++ quoted operand
  | .binaryOperatorMismatch op left right =>
    "operator " ++ quoted op.lexeme ++ " cannot be applied to operands of type " ++ quoted left ++
      " and " ++ quoted right

/-- The code of a refusal, for lists of known problems. The two causes about operators share a code; all others have
    one of their own. -/
def code : Cause → String
  | .duplicate _ _ => "quack::scope::duplicate"
  | .undefined _ => "quack::scope::undefined"
  | .notAValue _ _ => "quack::scope::not_a_value"
  | .notAType _ _ => "quack::scope::not_a_type"
  | .notALabel _ _ => "quack::scope::not_a_label"
  | .immutableAssignment _ => "quack::scope::immutable"
  | .returnOutsideFunction => "quack::scope::return_outside_fn"
  | .shadowsType _ => "quack::scope::shadows_type"
  | .missingScope => "quack::scope::missing"
  | .mismatch _ _ => "quack::types::mismatch"
  | .recursiveUnification _ _ => "quack::types::recursive"
  | .nonNumericIndex _ => "quack::types::non_numeric_index"
  | .indexKeyMismatch _ _ => "quack::types::key_mismatch"
  | .notIndexable _ => "quack::types::not_indexable"
  | .operatorMismatch _ _ => "quack::types::operator"
  | .binaryOperatorMismatch _ _ _ => "quack::types::operator"

/-- The note shown at the place of a refusal, if there is one: only the refusals of a declaration that is repeated
    and of a name that is not there have one. -/
def note : Cause → Option String
  | .duplicate _ _ => some "redeclared here"
  | .undefined _ => some "not found in this scope"
  | _ => none

end Cause

/-! ## Refusals -/

/-- A refusal: its cause, and the place it is about. Two refusals are compared as a whole, cause and place. -/
structure Diagnostic where
  cause : Cause
  span : Span
  deriving DecidableEq, Repr

/-- The wording of a diagnostic. -/
def Diagnostic.message (d : Diagnostic) : String := d.cause.message

/-- A clash of two types, as a refusal at a place. The wording stays that of the clash. -/
def Clash.diagnostic (span : Span) : Clash → Diagnostic
  | .mismatch left right => ⟨.mismatch left right, span⟩
  | .recursive var ty => ⟨.recursiveUnification var ty, span⟩

end TypeInference
