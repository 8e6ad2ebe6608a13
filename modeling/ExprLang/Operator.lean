/-!
# Operators

The operators of the language, grouped by what they do with their operands, with their spellings and
binding levels. A higher level binds more tightly.
-/

namespace ExprLang

/-- Operators that compute a new value from two values. -/
inductive ArithOp where
  | pow | mul | div | mod | add | sub
  | shiftLeft | shiftRight | shiftRightUnsigned
  | bitAnd | bitXor | bitOr
  deriving DecidableEq, Repr

/-- Orderings. -/
inductive OrderOp where
  | lt | le | gt | ge
  deriving DecidableEq, Repr

/-- Tests for equality. -/
inductive EqualityOp where
  | equal | unequal
  deriving DecidableEq, Repr

/-- Operators that evaluate their second operand only when the first does not decide. -/
inductive LogicOp where
  | and | or
  deriving DecidableEq, Repr

/-- Operators between two expressions. -/
inductive BinaryOp where
  | arith (op : ArithOp)
  | order (op : OrderOp)
  | equality (op : EqualityOp)
  | logic (op : LogicOp)
  | sequence
  deriving DecidableEq, Repr

/-- Operators in front of one expression. -/
inductive UnaryOp where
  | not | bitNot | plus | minus
  deriving DecidableEq, Repr

/-- Counting up and down in place. -/
inductive StepOp where
  | increment | decrement
  deriving DecidableEq, Repr

/-- Assignments: of a plain value, or of the target's value combined with another. -/
inductive AssignOp where
  | plain
  | arith (op : ArithOp)
  | logic (op : LogicOp)
  deriving DecidableEq, Repr

/-- How an operator is written. -/
def ArithOp.spelling : ArithOp → String
  | .pow => "**"
  | .mul => "*"
  | .div => "/"
  | .mod => "%"
  | .add => "+"
  | .sub => "-"
  | .shiftLeft => "<<"
  | .shiftRight => ">>"
  | .shiftRightUnsigned => ">>>"
  | .bitAnd => "&"
  | .bitXor => "^"
  | .bitOr => "|"

@[inherit_doc ArithOp.spelling]
def OrderOp.spelling : OrderOp → String
  | .lt => "<"
  | .le => "<="
  | .gt => ">"
  | .ge => ">="

@[inherit_doc ArithOp.spelling]
def EqualityOp.spelling : EqualityOp → String
  | .equal => "=="
  | .unequal => "!="

@[inherit_doc ArithOp.spelling]
def LogicOp.spelling : LogicOp → String
  | .and => "&&"
  | .or => "||"

@[inherit_doc ArithOp.spelling]
def BinaryOp.spelling : BinaryOp → String
  | .arith op => op.spelling
  | .order op => op.spelling
  | .equality op => op.spelling
  | .logic op => op.spelling
  | .sequence => ";"

@[inherit_doc ArithOp.spelling]
def UnaryOp.spelling : UnaryOp → String
  | .not => "!"
  | .bitNot => "~"
  | .plus => "+"
  | .minus => "-"

@[inherit_doc ArithOp.spelling]
def StepOp.spelling : StepOp → String
  | .increment => "++"
  | .decrement => "--"

@[inherit_doc ArithOp.spelling]
def AssignOp.spelling : AssignOp → String
  | .plain => "="
  | .arith op => op.spelling ++ "="
  | .logic op => op.spelling ++ "="

namespace Level

/-- The level at which a whole program, an element or a grouped expression is read. -/
def lowest : Nat := 0
/-- The level of `;`. -/
def sequence : Nat := 10
/-- The level of assignments. -/
def assignment : Nat := 20
/-- The level of `? :`. -/
def conditional : Nat := 30
/-- The level of `! ~ + -` in front of an operand. -/
def unary : Nat := 140
/-- The level of `**`, at which the operand of a unary operator is read. -/
def power : Nat := 150
/-- The level of every expression that needs no operator. -/
def primary : Nat := 160

end Level

/-- The binding level of an operator (`getOpPriority`). -/
def ArithOp.level : ArithOp → Nat
  | .pow => Level.power
  | .mul | .div | .mod => 130
  | .add | .sub => 120
  | .shiftLeft | .shiftRight | .shiftRightUnsigned => 110
  | .bitAnd => 80
  | .bitXor => 70
  | .bitOr => 60

@[inherit_doc ArithOp.level]
def LogicOp.level : LogicOp → Nat
  | .and => 50
  | .or => 40

@[inherit_doc ArithOp.level]
def BinaryOp.level : BinaryOp → Nat
  | .arith op => op.level
  | .order _ => 100
  | .equality _ => 90
  | .logic op => op.level
  | .sequence => Level.sequence

/-- The level at which an operator's right operand is read: `**` groups to the right, every other
    operator to the left. -/
def BinaryOp.rightLevel (op : BinaryOp) : Nat :=
  if op = .arith .pow then op.level else op.level + 1

end ExprLang
