import ExprLang.Expr

/-!
# Numbered literals

When a program is compiled, every literal of its tree becomes a new node. The nodes made so far are
kept in a table, each with its literal, and the number of a node is its place there.
-/

namespace ExprLang

mutual

/-- A target with its literals as new nodes, and the table with them. -/
def Target.numbered : Target → Array Literal → Target × Array Literal
  | .name name pos, nodes => (.name name pos, nodes)
  | .index base index pos, nodes =>
    let (base, nodes) := base.numbered nodes
    let (index, nodes) := index.numbered nodes
    (.index base index pos, nodes)
  | .member base name pos, nodes =>
    let (base, nodes) := base.numbered nodes
    (.member base name pos, nodes)

/-- An expression with its literals as new nodes, and the table with them. -/
def Expr.numbered : Expr → Array Literal → Expr × Array Literal
  | .literal _ kind lexeme pos, nodes =>
    (.literal nodes.size kind lexeme pos, nodes.push ⟨kind, lexeme⟩)
  | .ref target, nodes =>
    let (target, nodes) := target.numbered nodes
    (.ref target, nodes)
  | .call callee args text pos, nodes =>
    let (callee, nodes) := callee.numbered nodes
    let (args, nodes) := Expr.allNumbered args nodes
    (.call callee args text pos, nodes)
  | .list elems pos, nodes =>
    let (elems, nodes) := Expr.allNumbered elems nodes
    (.list elems pos, nodes)
  | .object entries pos, nodes =>
    let (entries, nodes) := Expr.entriesNumbered entries nodes
    (.object entries pos, nodes)
  | .group inner pos, nodes =>
    let (inner, nodes) := inner.numbered nodes
    (.group inner pos, nodes)
  | .unary op operand pos, nodes =>
    let (operand, nodes) := operand.numbered nodes
    (.unary op operand pos, nodes)
  | .stepBefore op target pos, nodes =>
    let (target, nodes) := target.numbered nodes
    (.stepBefore op target pos, nodes)
  | .stepAfter op target pos, nodes =>
    let (target, nodes) := target.numbered nodes
    (.stepAfter op target pos, nodes)
  | .binary op left right pos, nodes =>
    let (left, nodes) := left.numbered nodes
    let (right, nodes) := right.numbered nodes
    (.binary op left right pos, nodes)
  | .conditional test ifTrue ifFalse pos, nodes =>
    let (test, nodes) := test.numbered nodes
    let (ifTrue, nodes) := ifTrue.numbered nodes
    let (ifFalse, nodes) := ifFalse.numbered nodes
    (.conditional test ifTrue ifFalse pos, nodes)
  | .assign op target value pos, nodes =>
    let (target, nodes) := target.numbered nodes
    let (value, nodes) := value.numbered nodes
    (.assign op target value pos, nodes)

/-- A member of an object expression with its literals as new nodes. -/
def Entry.numbered : Entry → Array Literal → Entry × Array Literal
  | .mk key pos value, nodes =>
    let (value, nodes) := value.numbered nodes
    (.mk key pos value, nodes)

/-- Expressions with their literals as new nodes. -/
def Expr.allNumbered : List Expr → Array Literal → List Expr × Array Literal
  | [], nodes => ([], nodes)
  | e :: es, nodes =>
    let (e, nodes) := e.numbered nodes
    let (es, nodes) := Expr.allNumbered es nodes
    (e :: es, nodes)

/-- Members with their literals as new nodes. -/
def Expr.entriesNumbered : List Entry → Array Literal → List Entry × Array Literal
  | [], nodes => ([], nodes)
  | e :: es, nodes =>
    let (e, nodes) := e.numbered nodes
    let (es, nodes) := Expr.entriesNumbered es nodes
    (e :: es, nodes)

end

/-- A program with its literals as new nodes, and the table with them. -/
def Program.numbered (p : Program) (nodes : Array Literal) : Program × Array Literal :=
  match p.root with
  | none => (⟨none⟩, nodes)
  | some root =>
    let (root, nodes) := root.numbered nodes
    (⟨some root⟩, nodes)

end ExprLang
