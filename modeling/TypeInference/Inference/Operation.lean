import TypeInference.Inference.State

/-!
# `Inference.Operation` — the types of operations

Operators ask for fixed types of their operands, except that equality takes any two operands of one type.
Indexing only looks: it never binds a variable, so the indexed type and the index must be known well enough
when the access is met.

## Contents
* `UnaryOp.type`, `BinaryOp.operandType?`, `BinaryOp.resultType` — what operators ask for and give;
* `inferUnary`, `inferBinary` — operators applied to operands;
* `Store.access` — the type of a component.
-/

namespace TypeInference

open InferM

/-! ## What operators ask for and give -/

/-- The type of a unary operator's operand, which is the type of its result as well: the unary operators stay within
    one type. -/
def UnaryOp.type : UnaryOp → TypeId
  | .plus | .minus => .number
  | .not => .bool

/-- The type of both operands of a binary operator; equality leaves it open. -/
def BinaryOp.operandType? : BinaryOp → Option TypeId
  | .add | .sub | .mul | .div | .mod | .pow => some .number
  | .concat => some .string
  | .lt | .gt | .le | .ge => some .number
  | .and | .or | .xor => some .bool
  | .eq | .ne => none

/-- The type of a binary operator's result. Comparisons of numbers give truth values, all other operators with fixed
    operands give what they take. -/
def BinaryOp.resultType : BinaryOp → TypeId
  | .add | .sub | .mul | .div | .mod | .pow => .number
  | .concat => .string
  | .lt | .gt | .le | .ge | .and | .or | .xor | .eq | .ne => .bool

/-! ## Operators at work -/

/-- The type of a unary operator applied to an operand. A refusal shows the operand's type as it was before: the
    text is taken before the unification, which may bind variables even if it clashes. -/
def inferUnary (op : UnaryOp) (operand : TypeId) (span : Span) : InferM TypeId := do
  let shown ← query (·.display operand)
  unifyOr (fun _ => ⟨.operatorMismatch op shown, span⟩) operand op.type
  pure op.type

/-- The type of a binary operator applied to operands. A refusal shows the operands' types as they were before,
    whichever of the two unifications it comes from. -/
def inferBinary (op : BinaryOp) (left right : TypeId) (span : Span) : InferM TypeId := do
  let shownLeft ← query (·.display left)
  let shownRight ← query (·.display right)
  let refusal := fun (_ : Clash) => (⟨.binaryOperatorMismatch op shownLeft shownRight, span⟩ : Diagnostic)
  match op.operandType? with
  | some expected => do
    unifyOr refusal left expected
    unifyOr refusal right expected
  | none => unifyOr refusal left right
  pure op.resultType

namespace Store

/-! ## Indexing -/

/-- Refuses a pair of types, with the text of one of them, which one is for the caller to say. -/
def refuseShowing {α : Type} (cause : String → Cause) (ty : TypeId) (span : Span) (s : Store) :
    Except (Halt Diagnostic) α := do
  let shown ← Halt.ofQuery (s.display ty)
  throw (.failure ⟨cause shown, span⟩)

/-- The type of the component of `left` at `index`: a string has strings, a list is indexed by numbers, and a map by
    exactly the type of its keys. Nothing is unified here, so an index that is a variable is refused by a list, and
    by a map unless it is the variable of its keys. -/
def access (left index : TypeId) (span indexSpan : Span) (s : Store) : Except (Halt Diagnostic) TypeId := do
  match ← Halt.ofQuery (s.operator? left) with
  | some (.string, _) => pure .string
  | some (.list, [element]) =>
    if ← Halt.ofQuery (s.hasConstructor .number index) then
      pure element
    else
      s.refuseShowing .nonNumericIndex index indexSpan
  | some (.map, [key, value]) =>
    if ← Halt.ofQuery (s.same index key) then
      pure value
    else do
      let expected ← Halt.ofQuery (s.display key)
      s.refuseShowing (.indexKeyMismatch expected) index indexSpan
  | _ => s.refuseShowing .notIndexable left span

end Store

end TypeInference
