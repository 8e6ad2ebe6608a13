import ExprLang.Expr
import ExprLang.Parsed
import ExprLang.Text.Escape

/-!
# From tokens to an expression

Operands are read first, then operators are taken up as long as they bind at least as tightly as the
level asked for. Each reader returns what it read and the tokens that are left, with the proof that
some were used.
-/

namespace ExprLang.Expr

/-- Why some tokens are no expression. -/
inductive ParseError where
  /-- The tokens end where an expression has to go on. -/
  | ended
  /-- The tokens end right after the opening of a list or of arguments. -/
  | endedAtOpening
  /-- A token that cannot stand where it does. -/
  | unexpected (token : Token)
  /-- An operator that needs a target, and what stands in its place. -/
  | invalidTarget (operator : Token) (found : Expr)
  /-- Arguments after what cannot be called; the place is that of the opening parenthesis. -/
  | invalidCallee (opening : Token) (found : Expr)
  /-- A member key with a backslash, at the given byte offset, that opens no escape. -/
  | invalidKey (key : Token) (offset : Nat)

/-- The key that a token stands for in an object expression. -/
def key? (t : Token) : Except ParseError String :=
  match t.kind with
  | .identifier | .literal .int => .ok t.lexeme
  | .literal .text =>
    match Text.decode t.lexeme with
    | .ok key => .ok key
    | .error offset => .error (.invalidKey t offset)
  | _ => .error (.unexpected t)

/-- The unary operator that a kind stands for in front of an operand. -/
def unaryOp? : Token.Kind → Option UnaryOp
  | .not => some .not
  | .bitNot => some .bitNot
  | .binary (.arith .add) => some .plus
  | .binary (.arith .sub) => some .minus
  | _ => none

mutual

/-- Reads the longest expression whose operators all have at least the given level
    (`parseExpression`). -/
def parseLevel (level : Nat) (ts : List Token) : Except ParseError (Parsed Expr ts) := do
  let first ← parseUnary ts
  let whole ← parseOperators level first.value first.rest
  return ⟨whole.value, whole.rest, Nat.lt_of_le_of_lt whole.noLonger first.shorter⟩
termination_by 8 * ts.length + 5
decreasing_by
  all_goals first | (have h₁ := first.shorter; omega) | omega

/-- Goes on after `left` with the operators of at least the given level (`parseExpression`). A `;`
    that no expression follows ends what stands before it and is passed over. -/
def parseOperators (level : Nat) (left : Expr) (ts : List Token) :
    Except ParseError (Continued Expr ts) :=
  match ts with
  | [] => return ⟨left, [], Nat.le_refl _⟩
  | op :: rest =>
    match op.kind.level? with
    | none => return ⟨left, op :: rest, Nat.le_refl _⟩
    | some found =>
      if found < level then return ⟨left, op :: rest, Nat.le_refl _⟩
      else
        match op.kind with
        | .binary .sequence =>
          if (rest.head?.any fun t => t.kind.startsExpression) then do
            let right ← parseLevel (BinaryOp.rightLevel .sequence) rest
            let whole ← parseOperators level (.binary .sequence left right.value op.pos) right.rest
            return ⟨whole.value, whole.rest, by
              have := right.shorter; have := whole.noLonger; simp only [List.length_cons]; omega⟩
          else do
            let whole ← parseOperators level left rest
            return ⟨whole.value, whole.rest, by
              have := whole.noLonger; simp only [List.length_cons]; omega⟩
        | .binary operator => do
          let right ← parseLevel operator.rightLevel rest
          let whole ← parseOperators level (.binary operator left right.value op.pos) right.rest
          return ⟨whole.value, whole.rest, by
            have := right.shorter; have := whole.noLonger; simp only [List.length_cons]; omega⟩
        | .assign operator =>
          match left.target? with
          | none => .error (.invalidTarget op left)
          | some target => do
            let value ← parseLevel Level.assignment rest
            let whole ← parseOperators level (.assign operator target value.value op.pos) value.rest
            return ⟨whole.value, whole.rest, by
              have := value.shorter; have := whole.noLonger; simp only [List.length_cons]; omega⟩
        | .question => do
          let ifTrue ← parseLevel Level.assignment rest
          match h : ifTrue.rest with
          | [] => .error .ended
          | colon :: afterColon =>
            if colon.kind = .colon then do
              let ifFalse ← parseLevel Level.conditional afterColon
              let whole ← parseOperators level
                (.conditional left ifTrue.value ifFalse.value op.pos) ifFalse.rest
              return ⟨whole.value, whole.rest, by
                have := ifTrue.shorter; have := ifFalse.shorter; have := whole.noLonger
                simp only [h, List.length_cons] at *; omega⟩
            else .error (.unexpected colon)
        | _ => .error (.unexpected op)
termination_by 8 * ts.length + 4
decreasing_by
  all_goals
    simp only [List.length_cons]
    first
      | (have h₁ := right.shorter; omega)
      | (have h₁ := value.shorter; omega)
      | (have h₁ := ifTrue.shorter; have := ifFalse.shorter
         simp only [h, List.length_cons] at *; omega)
      | (have h₁ := ifTrue.shorter; simp only [h, List.length_cons] at *; omega)
      | omega

/-- Reads an operand with the operators in front of it. The operand of a unary
    operator takes in a power, so that a sign applies to the whole power. -/
def parseUnary (ts : List Token) : Except ParseError (Parsed Expr ts) :=
  match ts with
  | [] => .error .ended
  | t :: rest =>
    match unaryOp? t.kind with
    | some op => do
      let operand ← parseLevel Level.power rest
      return ⟨.unary op operand.value t.pos, operand.rest, by
        have := operand.shorter; simp only [List.length_cons]; omega⟩
    | none =>
      match t.kind with
      | .step op => do
        let operand ← parseSuffixed rest
        match operand.value.target? with
        | none => .error (.invalidTarget t operand.value)
        | some target =>
          return ⟨.stepBefore op target t.pos, operand.rest, by
            have := operand.shorter; simp only [List.length_cons]; omega⟩
      | _ => parseSuffixed (t :: rest)
termination_by 8 * ts.length + 3
decreasing_by all_goals simp only [List.length_cons]; omega

/-- Reads a primary expression and all that is attached to it (`parsePostfix`): arguments, indices,
    members, and at the end a step. -/
def parseSuffixed (ts : List Token) : Except ParseError (Parsed Expr ts) := do
  let first ← parsePrimary ts
  let whole ← parseSuffixes ts first.value first.rest
  return ⟨whole.value, whole.rest, Nat.lt_of_le_of_lt whole.noLonger first.shorter⟩
termination_by 8 * ts.length + 2
decreasing_by
  all_goals first | (have h₁ := first.shorter; omega) | omega

/-- Goes on after `base` with what is attached to it (`parsePostfix`). `origin` holds the tokens
    from the start of `base` on; a call takes its place and its source text from them. -/
def parseSuffixes (origin : List Token) (base : Expr) (ts : List Token) :
    Except ParseError (Continued Expr ts) :=
  match ts with
  | [] => return ⟨base, [], Nat.le_refl _⟩
  | t :: rest =>
    match t.kind with
    | .leftParen =>
      match base.target? with
      | none => .error (.invalidCallee t base)
      | some callee => do
        let args ← parseArguments .rightParen rest
        let text := Token.joined (origin.take (origin.length - args.rest.length))
        let pos := (origin.head?.map Token.pos).getD t.pos
        let whole ← parseSuffixes origin (.call callee args.value text pos) args.rest
        return ⟨whole.value, whole.rest, by
          have := args.shorter; have := whole.noLonger; simp only [List.length_cons]; omega⟩
    | .leftBracket => do
      let index ← parseLevel Level.lowest rest
      match h : index.rest with
      | [] => .error .ended
      | closing :: afterIndex =>
        if closing.kind = .rightBracket then do
          let whole ← parseSuffixes origin (.ref (.index base index.value t.pos)) afterIndex
          return ⟨whole.value, whole.rest, by
            have := index.shorter; have := whole.noLonger
            simp only [h, List.length_cons] at *; omega⟩
        else .error (.unexpected closing)
    | .dot =>
      match rest with
      | [] => .error .ended
      | name :: afterName =>
        if name.kind = .identifier then do
          let whole ← parseSuffixes origin (.ref (.member base name.lexeme t.pos)) afterName
          return ⟨whole.value, whole.rest, by
            have := whole.noLonger; simp only [List.length_cons]; omega⟩
        else .error (.unexpected name)
    | .step op =>
      match base.target? with
      | none => .error (.invalidTarget t base)
      | some target => return ⟨.stepAfter op target t.pos, rest, by simp⟩
    | _ => return ⟨base, t :: rest, Nat.le_refl _⟩
termination_by 8 * ts.length + 1
decreasing_by
  all_goals
    simp only [List.length_cons]
    first
      | (have h₁ := args.shorter; omega)
      | (have h₁ := index.shorter; simp only [h, List.length_cons] at *; omega)
      | omega

/-- Reads a literal, a name, a group, a list or an object (`parseAtom`). -/
def parsePrimary (ts : List Token) : Except ParseError (Parsed Expr ts) :=
  match ts with
  | [] => .error .ended
  | t :: rest =>
    match t.kind with
    | .literal kind => return ⟨.literal 0 kind t.lexeme t.pos, rest, by simp⟩
    | .identifier => return ⟨.ref (.name t.lexeme t.pos), rest, by simp⟩
    | .leftParen => do
      let inner ← parseLevel Level.lowest rest
      match h : inner.rest with
      | [] => .error .ended
      | closing :: afterGroup =>
        if closing.kind = .rightParen then
          return ⟨.group inner.value t.pos, afterGroup, by
            have := inner.shorter; simp only [h, List.length_cons] at *; omega⟩
        else .error (.unexpected closing)
    | .leftBracket => do
      let elems ← parseArguments .rightBracket rest
      return ⟨.list elems.value t.pos, elems.rest, by
        have := elems.shorter; simp only [List.length_cons]; omega⟩
    | .leftBrace => do
      let entries ← parseEntries rest
      return ⟨.object entries.value t.pos, entries.rest, by
        have := entries.shorter; simp only [List.length_cons]; omega⟩
    | _ => .error (.unexpected t)
termination_by 8 * ts.length + 1
decreasing_by all_goals simp only [List.length_cons]; omega

/-- Reads the expressions of a list or of arguments, up to and with the closing token (`parseList`).
    -/
def parseArguments (closer : Token.Kind) (ts : List Token) :
    Except ParseError (Parsed (List Expr) ts) :=
  match ts with
  | [] => .error .endedAtOpening
  | t :: rest => parseElements closer (t :: rest)
termination_by 8 * ts.length + 7
decreasing_by all_goals simp only [List.length_cons]; omega

/-- Reads expressions with commas between them, up to and with the closing token. A comma may stand
    before the closing token. -/
def parseElements (closer : Token.Kind) (ts : List Token) :
    Except ParseError (Parsed (List Expr) ts) :=
  match ts with
  | [] => .error .ended
  | t :: rest =>
    if t.kind = closer then return ⟨[], rest, by simp⟩
    else do
      let elem ← parseLevel Level.lowest (t :: rest)
      match h : elem.rest with
      | [] => .error .ended
      | after :: others =>
        if after.kind = .comma then do
          let elems ← parseElements closer others
          return ⟨elem.value :: elems.value, elems.rest, by
            have := elem.shorter; have := elems.shorter
            simp only [h, List.length_cons] at *; omega⟩
        else if after.kind = closer then
          return ⟨[elem.value], others, by
            have := elem.shorter; simp only [h, List.length_cons] at *; omega⟩
        else .error (.unexpected after)
termination_by 8 * ts.length + 6
decreasing_by
  all_goals
    first
      | (have h₁ := elem.shorter; simp only [h, List.length_cons] at *; omega)
      | omega

/-- Reads the members of an object with commas between them, up to and with the closing brace
    (`parseObject`). -/
def parseEntries (ts : List Token) : Except ParseError (Parsed (List Entry) ts) :=
  match ts with
  | [] => .error .ended
  | t :: rest =>
    if t.kind = .rightBrace then return ⟨[], rest, by simp⟩
    else do
      let key ← key? t
      match hr : rest with
      | [] => .error .ended
      | colon :: afterColon =>
        if colon.kind = .colon then do
          let value ← parseLevel Level.lowest afterColon
          match h : value.rest with
          | [] => .error .ended
          | after :: others =>
            if after.kind = .comma then do
              let entries ← parseEntries others
              return ⟨.mk key t.pos value.value :: entries.value, entries.rest, by
                have := value.shorter; have := entries.shorter
                simp only [h, hr, List.length_cons] at *; omega⟩
            else if after.kind = .rightBrace then
              return ⟨[.mk key t.pos value.value], others, by
                have := value.shorter; simp only [h, hr, List.length_cons] at *; omega⟩
            else .error (.unexpected after)
        else .error (.unexpected colon)
termination_by 8 * ts.length + 6
decreasing_by
  all_goals
    simp only [List.length_cons]
    first
      | (have h₁ := value.shorter; simp only [h, List.length_cons] at *; omega)
      | omega

end

/-- Reads a whole list of tokens as one expression; no tokens are no expression (`Parse`). -/
def ofTokens (ts : List Token) : Except ParseError (Option Expr) :=
  match ts with
  | [] => return none
  | t :: rest => do
    let whole ← parseLevel Level.lowest (t :: rest)
    match whole.rest with
    | [] => return some whole.value
    | extra :: _ => .error (.unexpected extra)

end ExprLang.Expr
