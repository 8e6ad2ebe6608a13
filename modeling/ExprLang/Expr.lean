import ExprLang.Token

/-!
# Expression trees

An expression keeps the place of the token that stands for it: of its operator, its opening bracket
or its first token. What can be assigned to or called is a `Target`: a name, an indexed element or
a member.

Each literal is a node of its own, known by its number, whatever is written there: in `[1, 1]` there
are two. The parser leaves all nodes at zero; a tree is numbered when its program is compiled.
-/

namespace ExprLang

/-- A literal as it is written. -/
structure Literal where
  kind : LiteralKind
  lexeme : String
  deriving DecidableEq, Repr

mutual

/-- An assignable place (`referenceNode`). -/
inductive Target where
  | name (name : String) (pos : Position)
  | index (base index : Expr) (pos : Position)
  | member (base : Expr) (name : String) (pos : Position)

/-- An expression (`Node`). A call also keeps its own source text, without blanks. -/
inductive Expr where
  | literal (node : Nat) (kind : LiteralKind) (lexeme : String) (pos : Position)
  | ref (target : Target)
  | call (callee : Target) (args : List Expr) (text : String) (pos : Position)
  | list (elems : List Expr) (pos : Position)
  | object (entries : List Entry) (pos : Position)
  | group (inner : Expr) (pos : Position)
  | unary (op : UnaryOp) (operand : Expr) (pos : Position)
  | stepBefore (op : StepOp) (target : Target) (pos : Position)
  | stepAfter (op : StepOp) (target : Target) (pos : Position)
  | binary (op : BinaryOp) (left right : Expr) (pos : Position)
  | conditional (test ifTrue ifFalse : Expr) (pos : Position)
  | assign (op : AssignOp) (target : Target) (value : Expr) (pos : Position)

/-- A member of an object expression (`PairNode`). -/
inductive Entry where
  | mk (key : String) (pos : Position) (value : Expr)

end

instance : Inhabited Expr := ⟨.literal 0 .int "0" Position.start⟩

/-- The place of a target. -/
def Target.pos : Target → Position
  | .name _ pos | .index _ _ pos | .member _ _ pos => pos

/-- The place of an expression (`Node.Position`). -/
def Expr.pos : Expr → Position
  | .ref target => target.pos
  | .literal _ _ _ pos | .call _ _ _ pos | .list _ pos | .object _ pos | .group _ pos
  | .unary _ _ pos | .stepBefore _ _ pos | .stepAfter _ _ pos | .binary _ _ _ pos
  | .conditional _ _ _ pos | .assign _ _ _ pos => pos

/-- The target that an expression is, if it is one. -/
def Expr.target? : Expr → Option Target
  | .ref target => some target
  | _ => none

/-- The name of a literal's kind in a description. -/
def LiteralKind.title : LiteralKind → String
  | .int => "Int"
  | .hex => "Hex"
  | .double => "Double"
  | .text => "Text"

mutual

/-- The description of a target, every part in parentheses. -/
def Target.describe : Target → String
  | .name name _ => "Identifier '" ++ name ++ "'"
  | .index base index _ => "Index (" ++ base.describe ++ ")[" ++ index.describe ++ "]"
  | .member base name _ => "Member (" ++ base.describe ++ ")." ++ name

/-- The description of an expression, every part in parentheses (`Node.String`). -/
def Expr.describe : Expr → String
  | .literal _ kind lexeme _ => kind.title ++ " " ++ lexeme
  | .ref target => target.describe
  | .call callee args _ _ =>
    "Call (" ++ callee.describe ++ ") on (" ++ ", ".intercalate (Expr.describeAll args) ++ ")"
  | .list elems _ => "List [" ++ ", ".intercalate (Expr.describeAll elems) ++ "]"
  | .object entries _ => "Object \x7b" ++ ", ".intercalate (Expr.describeEntries entries) ++ "\x7d"
  | .group inner _ => "Group (" ++ inner.describe ++ ")"
  | .unary op operand _ => "Unary " ++ op.spelling ++ " (" ++ operand.describe ++ ")"
  | .stepBefore op target _ => "Prefix " ++ op.spelling ++ " (" ++ target.describe ++ ")"
  | .stepAfter op target _ => "Postfix (" ++ target.describe ++ ") " ++ op.spelling
  | .binary op left right _ =>
    "Binary (" ++ left.describe ++ ") " ++ op.spelling ++ " (" ++ right.describe ++ ")"
  | .conditional test ifTrue ifFalse _ =>
    "Ternary (" ++ test.describe ++ ") ? (" ++ ifTrue.describe ++ ") : (" ++ ifFalse.describe ++ ")"
  | .assign op target value _ =>
    "Assign (" ++ target.describe ++ ") " ++ op.spelling ++ " (" ++ value.describe ++ ")"

/-- The description of a member of an object expression. -/
def Entry.describe : Entry → String
  | .mk key _ value => "Pair (" ++ key ++ "): (" ++ value.describe ++ ")"

/-- The descriptions of some expressions. -/
def Expr.describeAll : List Expr → List String
  | [] => []
  | e :: es => e.describe :: Expr.describeAll es

/-- The descriptions of some members. -/
def Expr.describeEntries : List Entry → List String
  | [] => []
  | e :: es => e.describe :: Expr.describeEntries es

end

mutual

/-- A short form of a target for messages, with indices left out. -/
def Target.label : Target → String
  | .name name _ => name
  | .index base _ _ => base.label ++ "[...]"
  | .member base name _ => base.label ++ "." ++ name

/-- A short form of an expression for messages (`tokenTextOf`). -/
def Expr.label : Expr → String
  | .ref target => target.label
  | .call _ _ text _ => text
  | e => e.describe

end

/-- A source text in tree form; an empty text has no tree. -/
structure Program where
  root : Option Expr

/-- The description of a program (`Program.String`). -/
def Program.describe (p : Program) : String :=
  match p.root with
  | none => "<empty>"
  | some e => e.describe

end ExprLang
