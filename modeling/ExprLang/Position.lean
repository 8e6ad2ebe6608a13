/-!
# Places in a source text

Lines and columns are counted from one, columns in characters.
-/

namespace ExprLang

/-- A place in a source text (`position`). -/
structure Position where
  line : Nat
  col : Nat
  deriving DecidableEq, Repr, Inhabited

namespace Position

/-- The place of the first character. -/
def start : Position := ⟨1, 1⟩

/-- The place just after the character `c` standing at `p` (`scanner.advance`): a line feed opens a
    new line. -/
def next (p : Position) (c : Char) : Position :=
  if c = '\n' then ⟨p.line + 1, 1⟩ else ⟨p.line, p.col + 1⟩

/-- The place just after a run of characters that begins at `p`. -/
def after (p : Position) (cs : List Char) : Position :=
  cs.foldl next p

/-- The written form `line:col` (`position.String`). -/
def toText (p : Position) : String :=
  toString p.line ++ ":" ++ toString p.col

@[simp] theorem after_nil (p : Position) : p.after [] = p := rfl

@[simp] theorem after_cons (p : Position) (c : Char) (cs : List Char) :
    p.after (c :: cs) = (p.next c).after cs := rfl

theorem after_append (p : Position) (cs ds : List Char) :
    p.after (cs ++ ds) = (p.after cs).after ds := by
  simp [after, List.foldl_append]

end Position

end ExprLang
