/-!
# `Syntax.Operator` — the operators of the language

Unary operators stand before one operand, binary ones between two. `lexeme` is the way an operator is
written, which is also how diagnostics name it.
-/

namespace TypeInference

/-! ## Before one operand -/

/-- The operators written before their operand. `plus` and `minus` take numbers, `not` takes truth values. -/
inductive UnaryOp
  | plus
  | minus
  | not
  deriving DecidableEq, Repr

/-- How a unary operator is written, in a program and in the diagnostics about it. -/
def UnaryOp.lexeme : UnaryOp → String
  | .plus => "+"
  | .minus => "-"
  | .not => "not"

/-! ## Between two operands -/

/-- The operators written between their operands: arithmetic, concatenation of strings, comparison, and the
    connectives of truth values. -/
inductive BinaryOp
  | add
  | sub
  | mul
  | div
  | mod
  | pow
  | concat
  | eq
  | ne
  | lt
  | gt
  | le
  | ge
  | and
  | or
  | xor
  deriving DecidableEq, Repr

/-- How a binary operator is written, in a program and in the diagnostics about it. -/
def BinaryOp.lexeme : BinaryOp → String
  | .add => "+"
  | .sub => "-"
  | .mul => "*"
  | .div => "/"
  | .mod => "mod"
  | .pow => "**"
  | .concat => "++"
  | .eq => "="
  | .ne => "<>"
  | .lt => "<"
  | .gt => ">"
  | .le => "<="
  | .ge => ">="
  | .and => "and"
  | .or => "or"
  | .xor => "xor"

end TypeInference
