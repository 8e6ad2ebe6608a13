import ExprLang.Operator
import ExprLang.Position

/-!
# Tokens

A token is a kind, the characters it was read from and the place of the first of them.
-/

namespace ExprLang

/-- The four ways to write a value down. -/
inductive LiteralKind where
  | int | hex | double | text
  deriving DecidableEq, Repr

namespace Token

/-- What a token is. -/
inductive Kind where
  | identifier
  | literal (kind : LiteralKind)
  | leftParen | rightParen | leftBracket | rightBracket | leftBrace | rightBrace
  | comma | colon | dot | question
  | not | bitNot
  | step (op : StepOp)
  | binary (op : BinaryOp)
  | assign (op : AssignOp)
  deriving DecidableEq, Repr

namespace Kind

/-- How a token of a fixed spelling is written; names and literals have none. -/
def spelling : Kind → String
  | .identifier | .literal _ => ""
  | .leftParen => "("
  | .rightParen => ")"
  | .leftBracket => "["
  | .rightBracket => "]"
  | .leftBrace => "\x7b"
  | .rightBrace => "\x7d"
  | .comma => ","
  | .colon => ":"
  | .dot => "."
  | .question => "?"
  | .not => "!"
  | .bitNot => "~"
  | .step op => op.spelling
  | .binary op => op.spelling
  | .assign op => op.spelling

/-- The kinds of a fixed spelling, longer spellings before the shorter ones that begin them
    (`operatorSpellings`). -/
def fixed : List Kind :=
  [.assign (.arith .shiftRightUnsigned),
   .binary (.arith .shiftRightUnsigned), .assign (.arith .pow), .assign (.arith .shiftLeft),
   .assign (.arith .shiftRight), .assign (.logic .and), .assign (.logic .or),
   .binary (.arith .pow), .assign (.arith .mul), .assign (.arith .div), .assign (.arith .mod),
   .assign (.arith .add), .assign (.arith .sub), .assign (.arith .bitAnd), .assign (.arith .bitXor),
   .assign (.arith .bitOr), .binary (.equality .equal), .binary (.equality .unequal),
   .binary (.order .le), .binary (.order .ge), .binary (.arith .shiftLeft),
   .binary (.arith .shiftRight), .binary (.logic .and), .binary (.logic .or),
   .step .increment, .step .decrement,
   .leftParen, .rightParen, .leftBracket, .rightBracket, .leftBrace, .rightBrace,
   .comma, .colon, .dot, .question, .not, .bitNot,
   .binary (.arith .mul), .binary (.arith .div), .binary (.arith .mod), .binary (.arith .add),
   .binary (.arith .sub), .binary (.order .lt), .binary (.order .gt), .binary (.arith .bitAnd),
   .binary (.arith .bitXor), .binary (.arith .bitOr), .assign .plain, .binary .sequence]

/-- The kinds of a fixed spelling beside the characters they are written with. -/
def spelled : List (Kind × List Char) :=
  fixed.map fun kind => (kind, kind.spelling.toList)

/-- What a kind is called when a token is described (`Kind.String`). -/
def title : Kind → String
  | .identifier => "identifier"
  | .literal .int => "integer literal"
  | .literal .hex => "hex literal"
  | .literal .double => "double literal"
  | .literal .text => "string literal"
  | kind => kind.spelling

/-- Whether a token of this kind can begin an expression (`canStartExpression`). -/
def startsExpression : Kind → Bool
  | .identifier | .literal _ | .leftParen | .leftBracket | .leftBrace
  | .not | .bitNot | .binary (.arith .add) | .binary (.arith .sub) | .step _ => true
  | _ => false

/-- The level of a token that can continue an expression (`getOpPriority`). -/
def level? : Kind → Option Nat
  | .binary op => some op.level
  | .assign _ => some Level.assignment
  | .question => some Level.conditional
  | _ => none

end Kind

end Token

/-- A token of a source text (`Tok`). -/
structure Token where
  kind : Token.Kind
  lexeme : String
  pos : Position
  deriving DecidableEq, Repr

namespace Token

/-- A description of the token (`Tok.String`): kind and lexeme, or the spelling alone, and the
    place. -/
def toText (t : Token) : String :=
  match t.kind with
  | .identifier | .literal _ =>
    t.kind.title ++ " '" ++ t.lexeme ++ "' [" ++ t.pos.toText ++ "]"
  | _ => t.lexeme ++ " [" ++ t.pos.toText ++ "]"

/-- The lexemes of some tokens, one after the other (`tokenText`). -/
def joined (ts : List Token) : String :=
  String.join (ts.map Token.lexeme)

end Token

end ExprLang
