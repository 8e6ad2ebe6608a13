import ExprLang.Proofs.Precedence
import ExprLang.Proofs.Quoting

/-!
# Spelling

`Expr.Spells` says which tokens spell an expression: its own tokens from left to right, with no
parentheses but those of groups and arguments. Every expression whose operands bind tightly enough
is read back from the tokens that spell it (`Expr.reads_back`), up to the places of tokens and the
source texts that calls keep.

An expression is read in the middle of others, so what is shown of its tokens is how reading goes on
after them: with the operators that follow (`ReadsOn`), or with what is attached (`ReadsAttached`).
-/

namespace ExprLang

/-- The kind of token that a unary operator is written with. -/
def UnaryOp.kind : UnaryOp → Token.Kind
  | .not => .not
  | .bitNot => .bitNot
  | .plus => .binary (.arith .add)
  | .minus => .binary (.arith .sub)

/-- A token of a fixed spelling. -/
def Token.plain (kind : Token.Kind) : Token := ⟨kind, kind.spelling, .start⟩

theorem Token.kind_plain (kind : Token.Kind) : (Token.plain kind).kind = kind := rfl

/-- Whether a token of this kind begins a primary expression. -/
def Token.Kind.startsPrimary : Token.Kind → Bool
  | .identifier | .literal _ | .leftParen | .leftBracket | .leftBrace => true
  | _ => false

/-- Whether a token of this kind ends every expression before it. -/
def Token.Kind.closes : Token.Kind → Bool
  | .comma | .colon | .rightParen | .rightBracket | .rightBrace => true
  | _ => false

namespace Token.Kind

theorem level?_of_closes {kind : Kind} (h : kind.closes = true) : kind.level? = none := by
  cases kind with
  | comma | colon | rightParen | rightBracket | rightBrace => rfl
  | _ => cases h

theorem isSuffix_of_closes {kind : Kind} (h : kind.closes = true) : kind.isSuffix = false := by
  cases kind with
  | comma | colon | rightParen | rightBracket | rightBrace => rfl
  | _ => cases h

theorem startsExpression_of_closes {kind : Kind} (h : kind.closes = true) :
    kind.startsExpression = false := by
  cases kind with
  | comma | colon | rightParen | rightBracket | rightBrace => rfl
  | _ => cases h

theorem isSuffix_of_level? {kind : Kind} {level : Nat} (h : kind.level? = some level) :
    kind.isSuffix = false := by
  cases kind with
  | leftParen | leftBracket | dot | step => cases h
  | _ => rfl

end Token.Kind

mutual

/-- A target without places and source texts. -/
@[simp]
def Target.unplaced : Target → Target
  | .name name _ => .name name .start
  | .index base index _ => .index base.unplaced index.unplaced .start
  | .member base name _ => .member base.unplaced name .start

/-- An expression without places and source texts. -/
@[simp]
def Expr.unplaced : Expr → Expr
  | .literal _ kind lexeme _ => .literal 0 kind lexeme .start
  | .ref target => .ref target.unplaced
  | .call callee args _ _ => .call callee.unplaced (Expr.unplacedAll args) "" .start
  | .list elems _ => .list (Expr.unplacedAll elems) .start
  | .object entries _ => .object (Expr.unplacedEntries entries) .start
  | .group inner _ => .group inner.unplaced .start
  | .unary op operand _ => .unary op operand.unplaced .start
  | .stepBefore op target _ => .stepBefore op target.unplaced .start
  | .stepAfter op target _ => .stepAfter op target.unplaced .start
  | .binary op left right _ => .binary op left.unplaced right.unplaced .start
  | .conditional test ifTrue ifFalse _ =>
    .conditional test.unplaced ifTrue.unplaced ifFalse.unplaced .start
  | .assign op target value _ => .assign op target.unplaced value.unplaced .start

/-- A member of an object expression without places and source texts. -/
@[simp]
def Entry.unplaced : Entry → Entry
  | .mk key _ value => .mk key .start value.unplaced

/-- Expressions without places and source texts. -/
@[simp]
def Expr.unplacedAll : List Expr → List Expr
  | [] => []
  | e :: es => e.unplaced :: Expr.unplacedAll es

/-- Members of an object expression without places and source texts. -/
@[simp]
def Expr.unplacedEntries : List Entry → List Entry
  | [] => []
  | e :: es => e.unplaced :: Expr.unplacedEntries es

end

/-- Literals, references, calls, lists, objects and groups: what something can be attached to. -/
def Expr.isPrimary : Expr → Bool
  | .literal .. | .ref _ | .call .. | .list .. | .object .. | .group .. => true
  | _ => false

/-- What an index or a member is taken of is a primary expression. -/
def Target.Based : Target → Prop
  | .name .. => True
  | .index base _ _ | .member base _ _ => base.isPrimary = true

namespace Expr

/-- The targets of an expression are based on primary expressions. -/
def Based : Expr → Prop
  | .ref target | .call target _ _ _ | .stepBefore _ target _ | .stepAfter _ target _
  | .assign _ target _ _ => target.Based
  | _ => True

/-- An expression that can be written down as it is: it fits, its targets are based on primary
    expressions, and the same goes for every expression in it. -/
inductive Writable : Expr → Prop
  | of {e : Expr} (hfits : e.Fits) (hbased : e.Based) (hparts : ∀ part ∈ e.parts, part.Writable) :
    e.Writable

/-- The tokens that spell a phrase. Nothing is asked of their places. -/
inductive Spells : Phrase → List Token → Prop
  | literal {node : Nat} {kind : LiteralKind} {t : Token} {pos : Position}
    (ht : t.kind = .literal kind) : Spells (.expr (.literal node kind t.lexeme pos)) [t]
  | name {t : Token} {pos : Position} (ht : t.kind = .identifier) :
    Spells (.expr (.ref (.name t.lexeme pos))) [t]
  | index {base index : Expr} {pos : Position} {ts us : List Token} {opening closing : Token}
    (hbase : Spells (.expr base) ts) (hopening : opening.kind = .leftBracket)
    (hindex : Spells (.expr index) us) (hclosing : closing.kind = .rightBracket) :
    Spells (.expr (.ref (.index base index pos))) (ts ++ opening :: (us ++ [closing]))
  | member {base : Expr} {pos : Position} {ts : List Token} {dot name : Token}
    (hbase : Spells (.expr base) ts) (hdot : dot.kind = .dot) (hname : name.kind = .identifier) :
    Spells (.expr (.ref (.member base name.lexeme pos))) (ts ++ [dot, name])
  | call {callee : Target} {args : List Expr} {text : String} {pos : Position} {ts us : List Token}
    {opening closing : Token} (hcallee : Spells (.expr (.ref callee)) ts)
    (hopening : opening.kind = .leftParen) (hargs : Spells (.elements args) us)
    (hclosing : closing.kind = .rightParen) :
    Spells (.expr (.call callee args text pos)) (ts ++ opening :: (us ++ [closing]))
  | list {elems : List Expr} {pos : Position} {ts : List Token} {opening closing : Token}
    (hopening : opening.kind = .leftBracket) (helems : Spells (.elements elems) ts)
    (hclosing : closing.kind = .rightBracket) :
    Spells (.expr (.list elems pos)) (opening :: (ts ++ [closing]))
  | object {entries : List Entry} {pos : Position} {ts : List Token} {opening closing : Token}
    (hopening : opening.kind = .leftBrace) (hentries : Spells (.entries entries) ts)
    (hclosing : closing.kind = .rightBrace) :
    Spells (.expr (.object entries pos)) (opening :: (ts ++ [closing]))
  | group {inner : Expr} {pos : Position} {ts : List Token} {opening closing : Token}
    (hopening : opening.kind = .leftParen) (hinner : Spells (.expr inner) ts)
    (hclosing : closing.kind = .rightParen) :
    Spells (.expr (.group inner pos)) (opening :: (ts ++ [closing]))
  | unary {op : UnaryOp} {operand : Expr} {pos : Position} {t : Token} {ts : List Token}
    (ht : t.kind = op.kind) (hoperand : Spells (.expr operand) ts) :
    Spells (.expr (.unary op operand pos)) (t :: ts)
  | stepBefore {op : StepOp} {target : Target} {pos : Position} {t : Token} {ts : List Token}
    (ht : t.kind = .step op) (htarget : Spells (.expr (.ref target)) ts) :
    Spells (.expr (.stepBefore op target pos)) (t :: ts)
  | stepAfter {op : StepOp} {target : Target} {pos : Position} {t : Token} {ts : List Token}
    (htarget : Spells (.expr (.ref target)) ts) (ht : t.kind = .step op) :
    Spells (.expr (.stepAfter op target pos)) (ts ++ [t])
  | binary {op : BinaryOp} {left right : Expr} {pos : Position} {t : Token} {ts us : List Token}
    (hleft : Spells (.expr left) ts) (ht : t.kind = .binary op)
    (hright : Spells (.expr right) us) : Spells (.expr (.binary op left right pos)) (ts ++ t :: us)
  | conditional {test ifTrue ifFalse : Expr} {pos : Position} {question colon : Token}
    {ts us vs : List Token} (htest : Spells (.expr test) ts) (hquestion : question.kind = .question)
    (htrue : Spells (.expr ifTrue) us) (hcolon : colon.kind = .colon)
    (hfalse : Spells (.expr ifFalse) vs) :
    Spells (.expr (.conditional test ifTrue ifFalse pos)) (ts ++ question :: (us ++ colon :: vs))
  | assign {op : AssignOp} {target : Target} {value : Expr} {pos : Position} {t : Token}
    {ts us : List Token} (htarget : Spells (.expr (.ref target)) ts) (ht : t.kind = .assign op)
    (hvalue : Spells (.expr value) us) :
    Spells (.expr (.assign op target value pos)) (ts ++ t :: us)
  -- what stands between brackets
  | noElements : Spells (.elements []) []
  | lastElement {elem : Expr} {ts : List Token} (helem : Spells (.expr elem) ts) :
    Spells (.elements [elem]) ts
  | element {elem : Expr} {elems : List Expr} {comma : Token} {ts us : List Token}
    (helem : Spells (.expr elem) ts) (hcomma : comma.kind = .comma) (hne : elems ≠ [])
    (helems : Spells (.elements elems) us) : Spells (.elements (elem :: elems)) (ts ++ comma :: us)
  | noEntries : Spells (.entries []) []
  | lastEntry {key : String} {pos : Position} {value : Expr} {t colon : Token} {ts : List Token}
    (hkey : key? t = .ok key) (hcolon : colon.kind = .colon) (hvalue : Spells (.expr value) ts) :
    Spells (.entries [.mk key pos value]) (t :: colon :: ts)
  | entry {key : String} {pos : Position} {value : Expr} {entries : List Entry}
    {t colon comma : Token} {ts us : List Token} (hkey : key? t = .ok key)
    (hcolon : colon.kind = .colon) (hvalue : Spells (.expr value) ts)
    (hcomma : comma.kind = .comma) (hne : entries ≠ []) (hentries : Spells (.entries entries) us) :
    Spells (.entries (.mk key pos value :: entries)) (t :: colon :: (ts ++ comma :: us))

theorem Writable.fits {e : Expr} (h : e.Writable) : e.Fits := by
  cases h with | of hfits _ _ => exact hfits

theorem Writable.based {e : Expr} (h : e.Writable) : e.Based := by
  cases h with | of _ hbased _ => exact hbased

theorem Writable.parts {e : Expr} (h : e.Writable) : ∀ part ∈ e.parts, part.Writable := by
  cases h with | of _ _ hparts => exact hparts

/-- The target of a writable expression is writable by itself. -/
theorem writable_ref {target : Target} (hbased : target.Based)
    (hparts : ∀ part ∈ target.parts, part.Writable) : (ref target).Writable :=
  .of trivial hbased hparts

/-! ## Every expression is spelled -/

/-- Elements are spelled with commas in between. -/
theorem exists_spells_elements {elems : List Expr}
    (h : ∀ elem ∈ elems, ∃ ts, Spells (.expr elem) ts) : ∃ ts, Spells (.elements elems) ts := by
  induction elems with
  | nil => exact ⟨[], .noElements⟩
  | cons elem elems ih =>
    obtain ⟨helem, helems⟩ := List.forall_mem_cons.mp h
    obtain ⟨ts, hts⟩ := helem
    obtain ⟨us, hus⟩ := ih helems
    by_cases hne : elems = []
    · subst hne
      exact ⟨ts, .lastElement hts⟩
    · exact ⟨_, .element hts (Token.kind_plain .comma) hne hus⟩

/-- A key can always be written between quotes. -/
theorem key?_quote (key : String) (pos : Position) :
    key? ⟨.literal .text, Text.quote key, pos⟩ = .ok key := by
  simp only [key?, Text.decode_quote]

theorem exists_spells_entries {entries : List Entry}
    (h : ∀ value ∈ entries.map Entry.value, ∃ ts, Spells (.expr value) ts) :
    ∃ ts, Spells (.entries entries) ts := by
  induction entries with
  | nil => exact ⟨[], .noEntries⟩
  | cons entry entries ih =>
    obtain ⟨key, pos, value⟩ := entry
    obtain ⟨hvalue, hentries⟩ := List.forall_mem_cons.mp h
    obtain ⟨ts, hts⟩ := hvalue
    obtain ⟨us, hus⟩ := ih hentries
    have hkey := key?_quote key pos
    have hcolon := Token.kind_plain .colon
    by_cases hne : entries = []
    · subst hne
      exact ⟨_, .lastEntry hkey hcolon hts⟩
    · exact ⟨_, .entry hkey hcolon hts (Token.kind_plain .comma) hne hus⟩

theorem exists_spells_target {target : Target}
    (h : ∀ part ∈ target.parts, ∃ ts, Spells (.expr part) ts) :
    ∃ ts, Spells (.expr (.ref target)) ts := by
  cases target with
  | name name pos =>
    have ht : (⟨.identifier, name, pos⟩ : Token).kind = .identifier := rfl
    exact ⟨_, .name ht⟩
  | index base index pos =>
    obtain ⟨hbase, hindex⟩ := List.forall_mem_cons.mp h
    obtain ⟨ts, hts⟩ := hbase
    obtain ⟨us, hus⟩ := List.forall_mem_singleton.mp hindex
    exact ⟨_, .index hts (Token.kind_plain .leftBracket) hus (Token.kind_plain .rightBracket)⟩
  | member base name pos =>
    obtain ⟨ts, hts⟩ := List.forall_mem_singleton.mp h
    have hname : (⟨.identifier, name, pos⟩ : Token).kind = .identifier := rfl
    exact ⟨_, .member hts (Token.kind_plain .dot) hname⟩

/-- Every expression can be spelled, on its own so that it is read back or not. -/
theorem exists_spells (e : Expr) : ∃ ts, Spells (.expr e) ts := by
  have ih : ∀ part ∈ e.parts, ∃ ts, Spells (.expr part) ts := fun part hpart =>
    have := sizeOf_lt_of_mem_parts hpart
    exists_spells part
  cases e with
  | literal node kind lexeme pos =>
    have ht : (⟨.literal kind, lexeme, pos⟩ : Token).kind = .literal kind := rfl
    exact ⟨_, .literal ht⟩
  | ref target => exact exists_spells_target ih
  | call callee args text pos =>
    obtain ⟨hcallee, hargs⟩ := List.forall_mem_cons.mp ih
    obtain ⟨ts, hts⟩ := hcallee
    obtain ⟨us, hus⟩ := exists_spells_elements hargs
    exact ⟨_, .call hts (Token.kind_plain .leftParen) hus (Token.kind_plain .rightParen)⟩
  | list elems pos =>
    obtain ⟨ts, hts⟩ := exists_spells_elements ih
    exact ⟨_, .list (Token.kind_plain .leftBracket) hts (Token.kind_plain .rightBracket)⟩
  | object entries pos =>
    obtain ⟨ts, hts⟩ := exists_spells_entries ih
    exact ⟨_, .object (Token.kind_plain .leftBrace) hts (Token.kind_plain .rightBrace)⟩
  | group inner pos =>
    obtain ⟨ts, hts⟩ := List.forall_mem_singleton.mp ih
    exact ⟨_, .group (Token.kind_plain .leftParen) hts (Token.kind_plain .rightParen)⟩
  | unary op operand pos =>
    obtain ⟨ts, hts⟩ := List.forall_mem_singleton.mp ih
    exact ⟨_, .unary (Token.kind_plain op.kind) hts⟩
  | stepBefore op target pos =>
    obtain ⟨ts, hts⟩ := exists_spells_target ih
    exact ⟨_, .stepBefore (Token.kind_plain (.step op)) hts⟩
  | stepAfter op target pos =>
    obtain ⟨ts, hts⟩ := exists_spells_target ih
    exact ⟨_, .stepAfter hts (Token.kind_plain (.step op))⟩
  | binary op left right pos =>
    obtain ⟨hleft, hright⟩ := List.forall_mem_cons.mp ih
    obtain ⟨ts, hts⟩ := hleft
    obtain ⟨us, hus⟩ := List.forall_mem_singleton.mp hright
    exact ⟨_, .binary hts (Token.kind_plain (.binary op)) hus⟩
  | conditional test ifTrue ifFalse pos =>
    obtain ⟨htest, hbranches⟩ := List.forall_mem_cons.mp ih
    obtain ⟨htrue, hfalse⟩ := List.forall_mem_cons.mp hbranches
    obtain ⟨ts, hts⟩ := htest
    obtain ⟨us, hus⟩ := htrue
    obtain ⟨vs, hvs⟩ := List.forall_mem_singleton.mp hfalse
    exact ⟨_, .conditional hts (Token.kind_plain .question) hus (Token.kind_plain .colon) hvs⟩
  | assign op target value pos =>
    obtain ⟨hvalue, htarget⟩ := List.forall_mem_cons.mp ih
    obtain ⟨us, hus⟩ := hvalue
    obtain ⟨ts, hts⟩ := exists_spells_target htarget
    exact ⟨_, .assign hts (Token.kind_plain (.assign op)) hus⟩
termination_by sizeOf e

/-! ## Where an expression ends -/

/-- The level from which on an operator after an expression would be taken up by its last
    operand. -/
def openLevel : Expr → Nat
  | .binary op _ _ _ => op.rightLevel
  | .conditional .. => 30
  | .assign .. => 20
  | .unary .. => 150
  | _ => 160

/-- Tokens that do not go on with an expression that stands before them, except with an operator
    that can take the whole of it as its left operand. -/
structure EndsBefore (e : Expr) (rest : List Token) : Prop where
  detached : ∀ t ∈ rest.head?, t.kind.isSuffix = false
  stops : Stops e.openLevel rest

theorem rightLevel_ge (op : BinaryOp) : op.level ≤ op.rightLevel := by
  by_cases h : op = .arith .pow
  · subst h
    decide
  · rw [rightLevel_of_ne_pow h]
    exact Nat.le_succ _

theorem level_ne_assignment (op : BinaryOp) : op.level ≠ 20 := by
  cases op with
  | arith op | order op | equality op | logic op => cases op <;> decide
  | sequence => decide

/-- An operand read at a level leaves no operator of that level to what it ends with. -/
theorem AtLevel.le_openLevel {n : Nat} {e : Expr} (h : e.AtLevel n) (hn : n ≤ 150) :
    n ≤ e.openLevel := by
  cases e with
  | binary op left right pos =>
    rcases h with hunary | hle
    · cases hunary
    · rw [level_binary] at hle
      exact hle.trans (rightLevel_ge op)
  | conditional test ifTrue ifFalse pos =>
    rcases h with hunary | hle
    · cases hunary
    · exact hle
  | assign op target value pos =>
    rcases h with hunary | hle
    · cases hunary
    · exact hle
  | unary op operand pos => exact hn
  | _ => exact hn.trans (by decide : 150 ≤ 160)

/-- An operator can only go on with the whole of its left operand. -/
theorem lt_openLevel {op : BinaryOp} {left : Expr} (hlevel : op.level ≤ left.level)
    (hpow : op = .arith .pow → 150 < left.level) : op.level < left.openLevel := by
  cases left with
  | binary op' l r pos =>
    rw [level_binary] at hlevel hpow
    have hle := level_le_power op'
    have hne : op ≠ .arith .pow := fun heq => absurd (hpow heq) (Nat.not_lt.mpr hle)
    have hlt := level_le_of_ne_pow hne
    show op.level < op'.rightLevel
    by_cases h : op' = .arith .pow
    · subst h
      rw [rightLevel_pow]
      omega
    · rw [rightLevel_of_ne_pow h]
      omega
  | conditional test ifTrue ifFalse pos =>
    have hne := level_ne_conditional op
    exact Nat.lt_of_le_of_ne hlevel hne
  | assign op' target value pos =>
    have hne := level_ne_assignment op
    exact Nat.lt_of_le_of_ne hlevel hne
  | unary op' operand pos => exact Nat.lt_of_le_of_lt hlevel (by decide : 140 < 150)
  | _ => exact Nat.lt_of_le_of_lt (level_le_power op) (by decide : 150 < 160)

/-- A condition ends before its `?`. -/
theorem conditional_lt_openLevel {test : Expr} (h : 30 < test.level) : 30 < test.openLevel := by
  cases test with
  | binary op left right pos =>
    rw [level_binary] at h
    exact Nat.lt_of_lt_of_le h (rightLevel_ge op)
  | conditional test ifTrue ifFalse pos => exact absurd h (by decide : ¬ 30 < 30)
  | assign op target value pos => exact absurd h (by decide : ¬ 30 < 20)
  | unary op operand pos => exact (by decide : 30 < 150)
  | _ => exact (by decide : 30 < 160)

/-! ## Reading goes on -/

theorem unaryOp?_kind (op : UnaryOp) : unaryOp? op.kind = some op := by
  cases op <;> rfl

theorem unaryOp?_of_startsPrimary {kind : Token.Kind} (h : kind.startsPrimary = true) :
    unaryOp? kind = none := by
  cases kind with
  | identifier | literal | leftParen | leftBracket | leftBrace => rfl
  | _ => cases h

/-- Whether the first of some tokens begins a primary expression. -/
def beginsPrimary (ts : List Token) : Bool := ts.head?.any fun t => t.kind.startsPrimary

/-- At any level that an expression can be read at, its tokens are read up to the operators that
    follow. -/
def ReadsOn (e : Expr) (ts : List Token) : Prop :=
  ∀ n rest, n ≤ 150 → e.AtLevel n → e.EndsBefore rest →
    ∃ e', e'.unplaced = e.unplaced ∧ ∀ whole after,
      Reads (.operators n e') rest (.expr whole) after →
        Reads (.level n) (ts ++ rest) (.expr whole) after

/-- The tokens of an expression are read up to what is attached to it. -/
def ReadsAttached (e : Expr) (ts : List Token) : Prop :=
  ∀ rest, ∃ e', e'.unplaced = e.unplaced ∧ ∀ whole after,
    Reads (.suffixes (ts ++ rest) e') rest (.expr whole) after →
      Reads .suffixed (ts ++ rest) (.expr whole) after

/-- How reading goes on after the tokens of a phrase. -/
def ReadsBack (ts : List Token) : Phrase → Prop
  | .expr e =>
    e.Writable → ReadsOn e ts ∧ (e.isPrimary = true → beginsPrimary ts = true ∧ ReadsAttached e ts)
  | .elements es =>
    (∀ e ∈ es, e.Writable) → ∀ closing rest,
      closing.kind = .rightParen ∨ closing.kind = .rightBracket →
      ∃ es', unplacedAll es' = unplacedAll es ∧
        Reads (.elements closing.kind) (ts ++ closing :: rest) (.elements es') rest
  | .entries es =>
    (∀ e ∈ es.map Entry.value, e.Writable) → ∀ closing rest, closing.kind = .rightBrace →
      ∃ es', unplacedEntries es' = unplacedEntries es ∧
        Reads .entries (ts ++ closing :: rest) (.entries es') rest

theorem stops_of_closes {t : Token} (ht : t.kind.closes = true) (n : Nat) (rest : List Token) :
    Stops n (t :: rest) := by
  rintro _ ⟨rfl⟩ found hfound
  rw [Token.Kind.level?_of_closes ht] at hfound
  cases hfound

theorem endsBefore_of_closes {t : Token} (ht : t.kind.closes = true) (e : Expr)
    (rest : List Token) : e.EndsBefore (t :: rest) where
  detached := by
    rintro _ ⟨rfl⟩
    exact Token.Kind.isSuffix_of_closes ht
  stops := stops_of_closes ht _ rest

/-- An operator that can take the whole of an expression as its left operand. -/
theorem endsBefore_of_level {t : Token} {e : Expr} {found : Nat}
    (hlevel : t.kind.level? = some found) (hfound : found < e.openLevel) (rest : List Token) :
    e.EndsBefore (t :: rest) where
  detached := by
    rintro _ ⟨rfl⟩
    exact Token.Kind.isSuffix_of_level? hlevel
  stops := by
    rintro _ ⟨rfl⟩ found' hfound'
    rw [hlevel] at hfound'
    cases hfound'
    exact hfound

theorem EndsBefore.of_le {e e' : Expr} {rest : List Token} (h : e.EndsBefore rest)
    (hle : e.openLevel ≤ e'.openLevel) : e'.EndsBefore rest :=
  ⟨h.detached, fun t ht found hfound => (h.stops t ht found hfound).trans_le hle⟩

theorem reads_of_stops {n : Nat} {e : Expr} {rest : List Token} (h : Stops n rest) :
    Reads (.operators n e) rest (.expr e) rest := by
  cases rest with
  | nil => exact .ended
  | cons t rest => exact .stops (h t rfl)

theorem reads_of_detached {origin : List Token} {e : Expr} {rest : List Token}
    (h : ∀ t ∈ rest.head?, t.kind.isSuffix = false) :
    Reads (.suffixes origin e) rest (.expr e) rest := by
  cases rest with
  | nil => exact .unattached
  | cons t rest => exact .detached (h t rfl)

theorem ReadsOn.level {e : Expr} {ts : List Token} (h : ReadsOn e ts) {n : Nat} {rest : List Token}
    (hn : n ≤ 150) (hat : e.AtLevel n) (hends : e.EndsBefore rest) (hstops : Stops n rest) :
    ∃ e', e'.unplaced = e.unplaced ∧ Reads (.level n) (ts ++ rest) (.expr e') rest := by
  obtain ⟨e', he', hread⟩ := h n rest hn hat hends
  exact ⟨e', he', hread e' rest (reads_of_stops hstops)⟩

/-- Everything is read at the lowest level, up to a token that closes. -/
theorem ReadsOn.closed {e : Expr} {ts : List Token} (h : ReadsOn e ts) {t : Token}
    (ht : t.kind.closes = true) (rest : List Token) :
    ∃ e', e'.unplaced = e.unplaced ∧
      Reads (.level Level.lowest) (ts ++ t :: rest) (.expr e') (t :: rest) :=
  h.level (by decide) (.inr (Nat.zero_le _)) (endsBefore_of_closes ht e rest)
    (stops_of_closes ht _ rest)

/-- An expression that is read together with what is attached to it is an operand. -/
theorem readsOn_of_suffixed {e : Expr} {ts : List Token} (hts : beginsPrimary ts = true)
    (h : ∀ rest, (∀ t ∈ rest.head?, t.kind.isSuffix = false) →
      ∃ e', e'.unplaced = e.unplaced ∧ Reads .suffixed (ts ++ rest) (.expr e') rest) :
    ReadsOn e ts := by
  intro n rest _ _ hends
  obtain ⟨e', he', hread⟩ := h rest hends.detached
  refine ⟨e', he', fun whole after hwhole => .level ?_ hwhole⟩
  cases ts with
  | nil => cases hts
  | cons t ts =>
    have hkind : t.kind.startsPrimary = true := hts
    refine .operand (unaryOp?_of_startsPrimary hkind) ?_ hread
    intro op heq
    rw [heq] at hkind
    cases hkind

theorem ReadsAttached.suffixed {e : Expr} {ts : List Token} (h : ReadsAttached e ts)
    {rest : List Token} (hrest : ∀ t ∈ rest.head?, t.kind.isSuffix = false) :
    ∃ e', e'.unplaced = e.unplaced ∧ Reads .suffixed (ts ++ rest) (.expr e') rest := by
  obtain ⟨e', he', hread⟩ := h rest
  exact ⟨e', he', hread e' rest (reads_of_detached hrest)⟩

/-- A primary expression is read as an operand if it is read before what is attached to it. -/
theorem readsBack_of_attached {e : Expr} {ts : List Token} (hts : beginsPrimary ts = true)
    (h : ReadsAttached e ts) :
    ReadsOn e ts ∧ (e.isPrimary = true → beginsPrimary ts = true ∧ ReadsAttached e ts) :=
  ⟨readsOn_of_suffixed hts fun _ => h.suffixed, fun _ => ⟨hts, h⟩⟩

theorem beginsPrimary_append {ts : List Token} (h : beginsPrimary ts = true) (us : List Token) :
    beginsPrimary (ts ++ us) = true := by
  cases ts with
  | nil => cases h
  | cons t ts => exact h

theorem begins_append {ts : List Token} (h : Token.begins ts = true) (us : List Token) :
    Token.begins (ts ++ us) = true := by
  cases ts with
  | nil => cases h
  | cons t ts => exact h

/-- What spells an expression begins like one. -/
theorem begins_of_spells {p : Phrase} {ts : List Token} (h : Spells p ts) :
    ∀ e, p = .expr e → Token.begins ts = true := by
  have head {t : Token} {ts : List Token} {kind : Token.Kind} (ht : t.kind = kind)
      (hkind : kind.startsExpression = true) : Token.begins (t :: ts) = true := by
    rw [← ht] at hkind
    exact hkind
  intro e he
  induction h generalizing e with
  | literal ht => exact head ht rfl
  | name ht => exact head ht rfl
  | index _ _ _ _ ih _ => exact begins_append (ih _ rfl) _
  | member _ _ _ ih => exact begins_append (ih _ rfl) _
  | call _ _ _ _ ih _ => exact begins_append (ih _ rfl) _
  | list ht _ _ _ => exact head ht rfl
  | object ht _ _ _ => exact head ht rfl
  | group ht _ _ _ => exact head ht rfl
  | @unary op _ _ _ _ ht _ _ => cases op <;> exact head ht rfl
  | stepBefore ht _ _ => exact head ht rfl
  | stepAfter _ _ ih => exact begins_append (ih _ rfl) _
  | binary _ _ _ ih _ => exact begins_append (ih _ rfl) _
  | conditional _ _ _ _ _ ih _ _ => exact begins_append (ih _ rfl) _
  | assign _ _ _ ih _ => exact begins_append (ih _ rfl) _
  | _ => cases he

theorem eq_ref_of_unplaced {e : Expr} {target : Target}
    (h : e.unplaced = (ref target).unplaced) :
    ∃ target', e = .ref target' ∧ target'.unplaced = target.unplaced := by
  cases e with
  | ref target' =>
    simp only [unplaced, ref.injEq] at h
    exact ⟨target', rfl, h⟩
  | _ => simp only [unplaced, reduceCtorEq] at h

/-- What the operands of a binary operator have to be. -/
theorem Fits.of_binary {op : BinaryOp} {left right : Expr} {pos : Position}
    (h : (binary op left right pos).Fits) :
    op.level ≤ left.level ∧ (op = .arith .pow → 150 < left.level) ∧
      right.AtLevel op.rightLevel := by
  by_cases hop : op = .arith .pow
  · subst hop
    obtain ⟨hleft, hright⟩ := h
    exact ⟨Nat.le_of_lt hleft, fun _ => hleft, hright⟩
  · have hfits : op.level ≤ left.level ∧ op.level < right.level := by
      rw [← level_binary op left right pos]
      unfold Fits at h
      split at h
      · next heq => cases heq; exact absurd rfl hop
      · next heq => cases heq; exact h
      · next heq => cases heq
      · next heq => cases heq
      · next heq => cases heq
      · next hbinary _ _ _ => exact absurd rfl (hbinary op left right pos)
    refine ⟨hfits.1, fun heq => absurd heq hop, .inr ?_⟩
    rw [rightLevel_of_ne_pow hop]
    exact hfits.2

/-- Binary operators are read after the tokens of their left operands. -/
theorem readsOn_binary {op : BinaryOp} {left right : Expr} {pos : Position} {t : Token}
    {ts us : List Token} (hfits : (binary op left right pos).Fits) (hleft : ReadsOn left ts)
    (ht : t.kind = .binary op) (hright : ReadsOn right us) (hbegins : Token.begins us = true) :
    ReadsOn (.binary op left right pos) (ts ++ t :: us) := by
  intro n rest hn hat hends
  obtain ⟨hlevel, hpow, hrightAt⟩ := hfits.of_binary
  have hle : n ≤ op.level := by
    rcases hat with hunary | hle
    · cases hunary
    · rwa [level_binary] at hle
  have hkind : t.kind.level? = some op.level := by rw [ht]; rfl
  have hrightEnds : right.EndsBefore rest :=
    hends.of_le (hrightAt.le_openLevel (rightLevel_le op))
  obtain ⟨right', hright', hreadRight⟩ :=
    hright.level (rightLevel_le op) hrightAt hrightEnds hends.stops
  obtain ⟨left', hleft', hreadLeft⟩ := hleft n (t :: (us ++ rest)) hn (.inr (hle.trans hlevel))
    (endsBefore_of_level hkind (lt_openLevel hlevel hpow) _)
  refine ⟨.binary op left' right' t.pos, by simp only [unplaced, hleft', hright'], ?_⟩
  intro whole after hwhole
  rw [List.append_assoc, List.cons_append]
  exact hreadLeft whole after
    (.binary ht hle (fun _ => begins_append hbegins rest) hreadRight hwhole)

theorem readsOn_conditional {test ifTrue ifFalse : Expr} {pos : Position} {question colon : Token}
    {ts us vs : List Token} (hfits : (conditional test ifTrue ifFalse pos).Fits)
    (htest : ReadsOn test ts) (hquestion : question.kind = .question) (htrue : ReadsOn ifTrue us)
    (hcolon : colon.kind = .colon) (hfalse : ReadsOn ifFalse vs) :
    ReadsOn (.conditional test ifTrue ifFalse pos) (ts ++ question :: (us ++ colon :: vs)) := by
  intro n rest hn hat hends
  obtain ⟨htestLevel, htrueLevel, hfalseLevel⟩ := hfits
  have hle : n ≤ 30 := by
    rcases hat with hunary | hle
    · cases hunary
    · exact hle
  have hkind : question.kind.level? = some 30 := by rw [hquestion]; rfl
  have hcloses : colon.kind.closes = true := by rw [hcolon]; rfl
  have htrueAt : ifTrue.AtLevel Level.assignment := .inr htrueLevel
  have hfalseAt : ifFalse.AtLevel Level.conditional := .inr hfalseLevel
  obtain ⟨ifFalse', hfalse', hreadFalse⟩ := hfalse.level (by decide) hfalseAt
    (hends.of_le (hfalseAt.le_openLevel (by decide))) hends.stops
  obtain ⟨ifTrue', htrue', hreadTrue⟩ := htrue.level (by decide) htrueAt
    (endsBefore_of_closes hcloses ifTrue (vs ++ rest)) (stops_of_closes hcloses _ (vs ++ rest))
  obtain ⟨test', htest', hreadTest⟩ := htest n (question :: (us ++ colon :: (vs ++ rest))) hn
    (.inr (hle.trans (Nat.le_of_lt htestLevel)))
    (endsBefore_of_level hkind (conditional_lt_openLevel htestLevel) _)
  refine ⟨.conditional test' ifTrue' ifFalse' question.pos,
    by simp only [unplaced, htest', htrue', hfalse'], ?_⟩
  intro whole after hwhole
  simp only [List.append_assoc, List.cons_append]
  exact hreadTest whole after (.conditional hquestion hle hreadTrue hcolon hreadFalse hwhole)

theorem readsOn_assign {op : AssignOp} {target : Target} {value : Expr} {pos : Position} {t : Token}
    {ts us : List Token} (hfits : (assign op target value pos).Fits)
    (htarget : ReadsOn (.ref target) ts) (ht : t.kind = .assign op) (hvalue : ReadsOn value us) :
    ReadsOn (.assign op target value pos) (ts ++ t :: us) := by
  intro n rest hn hat hends
  have hle : n ≤ 20 := by
    rcases hat with hunary | hle
    · cases hunary
    · exact hle
  have hkind : t.kind.level? = some 20 := by rw [ht]; rfl
  have hvalueAt : value.AtLevel Level.assignment := .inr hfits
  obtain ⟨value', hvalue', hreadValue⟩ := hvalue.level (by decide) hvalueAt
    (hends.of_le (hvalueAt.le_openLevel (by decide))) hends.stops
  have hopen : 20 < (ref target).openLevel := show 20 < 160 by decide
  obtain ⟨e', he', hreadTarget⟩ := htarget n (t :: (us ++ rest)) hn
    (.inr (hle.trans (by decide : 20 ≤ 160))) (endsBefore_of_level hkind hopen _)
  obtain ⟨target', rfl, htarget'⟩ := eq_ref_of_unplaced he'
  refine ⟨.assign op target' value' t.pos, by simp only [unplaced, htarget', hvalue'], ?_⟩
  intro whole after hwhole
  rw [List.append_assoc, List.cons_append]
  exact hreadTarget whole after (.assign ht hle hreadValue hwhole)

theorem readsOn_unary {op : UnaryOp} {operand : Expr} {pos : Position} {t : Token}
    {ts : List Token} (hfits : (unary op operand pos).Fits) (ht : t.kind = op.kind)
    (hoperand : ReadsOn operand ts) : ReadsOn (.unary op operand pos) (t :: ts) := by
  intro n rest _ _ hends
  have hat : operand.AtLevel Level.power := hfits
  obtain ⟨operand', hoperand', hread⟩ := hoperand.level (by decide) hat
    (hends.of_le (hat.le_openLevel (by decide))) hends.stops
  have hop : unaryOp? t.kind = some op := by rw [ht, unaryOp?_kind]
  exact ⟨.unary op operand' t.pos, by simp only [unplaced, hoperand'],
    fun _ _ hwhole => .level (.unary hop hread) hwhole⟩

theorem readsOn_stepBefore {op : StepOp} {target : Target} {pos : Position} {t : Token}
    {ts : List Token} (ht : t.kind = .step op) (htarget : ReadsAttached (.ref target) ts) :
    ReadsOn (.stepBefore op target pos) (t :: ts) := by
  intro n rest _ _ hends
  obtain ⟨e', he', hread⟩ := htarget.suffixed hends.detached
  obtain ⟨target', rfl, htarget'⟩ := eq_ref_of_unplaced he'
  exact ⟨.stepBefore op target' t.pos, by simp only [unplaced, htarget'],
    fun _ _ hwhole => .level (.stepBefore ht hread) hwhole⟩

theorem readsOn_stepAfter {op : StepOp} {target : Target} {pos : Position} {t : Token}
    {ts : List Token} (hts : beginsPrimary ts = true) (htarget : ReadsAttached (.ref target) ts)
    (ht : t.kind = .step op) : ReadsOn (.stepAfter op target pos) (ts ++ [t]) := by
  refine readsOn_of_suffixed (beginsPrimary_append hts [t]) fun rest _ => ?_
  obtain ⟨e', he', hread⟩ := htarget (t :: rest)
  obtain ⟨target', rfl, htarget'⟩ := eq_ref_of_unplaced he'
  refine ⟨.stepAfter op target' t.pos, by simp only [unplaced, htarget'], ?_⟩
  rw [List.append_assoc, List.singleton_append]
  exact hread _ rest (.stepAfter ht)

/-! ## What is attached -/

theorem readsAttached_index {base index : Expr} {pos : Position} {ts us : List Token}
    {opening closing : Token} (hbase : ReadsAttached base ts)
    (hopening : opening.kind = .leftBracket) (hindex : ReadsOn index us)
    (hclosing : closing.kind = .rightBracket) :
    ReadsAttached (.ref (.index base index pos)) (ts ++ opening :: (us ++ [closing])) := by
  intro rest
  obtain ⟨index', hindex', hreadIndex⟩ := hindex.closed (by rw [hclosing]; rfl) rest
  obtain ⟨base', hbase', hreadBase⟩ := hbase (opening :: (us ++ closing :: rest))
  refine ⟨.ref (.index base' index' opening.pos),
    by simp only [unplaced, Target.unplaced, hbase', hindex'], ?_⟩
  intro whole after hwhole
  simp only [List.append_assoc, List.cons_append, List.nil_append] at hwhole ⊢
  exact hreadBase whole after (.index hopening hreadIndex hclosing hwhole)

theorem readsAttached_member {base : Expr} {pos : Position} {ts : List Token} {dot name : Token}
    (hbase : ReadsAttached base ts) (hdot : dot.kind = .dot) (hname : name.kind = .identifier) :
    ReadsAttached (.ref (.member base name.lexeme pos)) (ts ++ [dot, name]) := by
  intro rest
  obtain ⟨base', hbase', hreadBase⟩ := hbase (dot :: name :: rest)
  refine ⟨.ref (.member base' name.lexeme dot.pos),
    by simp only [unplaced, Target.unplaced, hbase'], ?_⟩
  intro whole after hwhole
  simp only [List.append_assoc, List.cons_append, List.nil_append] at hwhole ⊢
  exact hreadBase whole after (.member hdot hname hwhole)

theorem readsAttached_call {callee : Target} {args : List Expr} {text : String} {pos : Position}
    {ts us : List Token} {opening closing : Token} (hcallee : ReadsAttached (.ref callee) ts)
    (hopening : opening.kind = .leftParen) (hclosing : closing.kind = .rightParen)
    (hargs : ∀ rest, ∃ args', unplacedAll args' = unplacedAll args ∧
      Reads (.elements closing.kind) (us ++ closing :: rest) (.elements args') rest) :
    ReadsAttached (.call callee args text pos) (ts ++ opening :: (us ++ [closing])) := by
  intro rest
  obtain ⟨args', hargs', hreadArgs⟩ := hargs rest
  rw [hclosing] at hreadArgs
  obtain ⟨e', he', hreadCallee⟩ := hcallee (opening :: (us ++ closing :: rest))
  obtain ⟨callee', rfl, hcallee'⟩ := eq_ref_of_unplaced he'
  simp only [List.append_assoc, List.cons_append, List.nil_append]
  let origin := ts ++ opening :: (us ++ closing :: rest)
  refine ⟨.call callee' args' (Token.joined (origin.take (origin.length - rest.length)))
    ((origin.head?.map Token.pos).getD opening.pos), by simp only [unplaced, hcallee', hargs'], ?_⟩
  intro whole after hwhole
  exact hreadCallee whole after (.call hopening hreadArgs hwhole)

theorem beginsPrimary_cons {t : Token} {kind : Token.Kind} (ht : t.kind = kind)
    (hkind : kind.startsPrimary = true) (ts : List Token) : beginsPrimary (t :: ts) = true := by
  rw [← ht] at hkind
  exact hkind

/-- What is read as a primary expression is read before what is attached to it. -/
theorem readsAttached_of_primary {e : Expr} {ts : List Token}
    (h : ∀ rest, ∃ e', e'.unplaced = e.unplaced ∧ Reads .primary (ts ++ rest) (.expr e') rest) :
    ReadsAttached e ts := by
  intro rest
  obtain ⟨e', he', hread⟩ := h rest
  exact ⟨e', he', fun _ _ hwhole => .suffixed hread hwhole⟩

/-- The first token of an element does not close the brackets. -/
theorem cons_of_begins {ts : List Token} (h : Token.begins ts = true) {kind : Token.Kind}
    (hkind : kind.closes = true) : ∃ t ts', ts = t :: ts' ∧ t.kind ≠ kind := by
  cases ts with
  | nil => cases h
  | cons t ts =>
    refine ⟨t, ts, rfl, ?_⟩
    rintro rfl
    have hstarts : t.kind.startsExpression = true := h
    rw [Token.Kind.startsExpression_of_closes hkind] at hstarts
    cases hstarts

/-- The tokens of a phrase are read back, by the phrases it is made of. -/
theorem readsBack_of_spells {p : Phrase} {ts : List Token} (h : Spells p ts) : ReadsBack ts p := by
  induction h with
  | @literal node kind t pos ht =>
    intro _
    refine readsBack_of_attached (beginsPrimary_cons ht rfl []) (readsAttached_of_primary ?_)
    exact fun rest => ⟨.literal 0 kind t.lexeme t.pos, rfl, .literal ht⟩
  | @name t pos ht =>
    intro _
    refine readsBack_of_attached (beginsPrimary_cons ht rfl []) (readsAttached_of_primary ?_)
    exact fun rest => ⟨.ref (.name t.lexeme t.pos), rfl, .name ht⟩
  | index _ hopening _ hclosing ihbase ihindex =>
    intro hw
    obtain ⟨hbase, hindex⟩ := List.forall_mem_cons.mp hw.parts
    obtain ⟨-, hattached⟩ := ihbase hbase
    obtain ⟨hbegins, hreads⟩ := hattached hw.based
    obtain ⟨hreadsIndex, -⟩ := ihindex (List.forall_mem_singleton.mp hindex)
    exact readsBack_of_attached (beginsPrimary_append hbegins _)
      (readsAttached_index hreads hopening hreadsIndex hclosing)
  | member _ hdot hname ihbase =>
    intro hw
    obtain ⟨-, hattached⟩ := ihbase (List.forall_mem_singleton.mp hw.parts)
    obtain ⟨hbegins, hreads⟩ := hattached hw.based
    exact readsBack_of_attached (beginsPrimary_append hbegins _)
      (readsAttached_member hreads hdot hname)
  | call _ hopening _ hclosing ihcallee ihargs =>
    intro hw
    obtain ⟨hcallee, hargs⟩ := List.forall_mem_cons.mp hw.parts
    obtain ⟨-, hattached⟩ := ihcallee hcallee
    obtain ⟨hbegins, hreads⟩ := hattached rfl
    exact readsBack_of_attached (beginsPrimary_append hbegins _)
      (readsAttached_call hreads hopening hclosing fun rest => ihargs hargs _ rest (.inl hclosing))
  | @list elems pos ts opening closing hopening _ hclosing ihelems =>
    intro hw
    refine readsBack_of_attached (beginsPrimary_cons hopening rfl _)
      (readsAttached_of_primary fun rest => ?_)
    obtain ⟨elems', helems', hread⟩ := ihelems hw.parts closing rest (.inr hclosing)
    rw [hclosing] at hread
    refine ⟨.list elems' opening.pos, by simp only [unplaced, helems'], ?_⟩
    rw [List.cons_append, List.append_assoc, List.singleton_append]
    exact .list hopening hread
  | @object entries pos ts opening closing hopening _ hclosing ihentries =>
    intro hw
    refine readsBack_of_attached (beginsPrimary_cons hopening rfl _)
      (readsAttached_of_primary fun rest => ?_)
    obtain ⟨entries', hentries', hread⟩ := ihentries hw.parts closing rest hclosing
    refine ⟨.object entries' opening.pos, by simp only [unplaced, hentries'], ?_⟩
    rw [List.cons_append, List.append_assoc, List.singleton_append]
    exact .object hopening hread
  | @group inner pos ts opening closing hopening _ hclosing ihinner =>
    intro hw
    refine readsBack_of_attached (beginsPrimary_cons hopening rfl _)
      (readsAttached_of_primary fun rest => ?_)
    obtain ⟨hreads, -⟩ := ihinner (List.forall_mem_singleton.mp hw.parts)
    obtain ⟨inner', hinner', hread⟩ := hreads.closed (by rw [hclosing]; rfl) rest
    refine ⟨.group inner' opening.pos, by simp only [unplaced, hinner'], ?_⟩
    rw [List.cons_append, List.append_assoc, List.singleton_append]
    exact .group hopening hread hclosing
  | unary ht _ ihoperand =>
    intro hw
    obtain ⟨hreads, -⟩ := ihoperand (List.forall_mem_singleton.mp hw.parts)
    exact ⟨readsOn_unary hw.fits ht hreads, nofun⟩
  | stepBefore ht _ ihtarget =>
    intro hw
    obtain ⟨-, hattached⟩ := ihtarget (writable_ref hw.based hw.parts)
    exact ⟨readsOn_stepBefore ht (hattached rfl).2, nofun⟩
  | stepAfter _ ht ihtarget =>
    intro hw
    obtain ⟨-, hattached⟩ := ihtarget (writable_ref hw.based hw.parts)
    obtain ⟨hbegins, hreads⟩ := hattached rfl
    exact ⟨readsOn_stepAfter hbegins hreads ht, nofun⟩
  | binary _ ht hright ihleft ihright =>
    intro hw
    obtain ⟨hleftWritable, hrest⟩ := List.forall_mem_cons.mp hw.parts
    obtain ⟨hreadsLeft, -⟩ := ihleft hleftWritable
    obtain ⟨hreadsRight, -⟩ := ihright (List.forall_mem_singleton.mp hrest)
    exact ⟨readsOn_binary hw.fits hreadsLeft ht hreadsRight (begins_of_spells hright _ rfl), nofun⟩
  | conditional _ hquestion _ hcolon _ ihtest ihtrue ihfalse =>
    intro hw
    obtain ⟨htest, hbranches⟩ := List.forall_mem_cons.mp hw.parts
    obtain ⟨htrue, hrest⟩ := List.forall_mem_cons.mp hbranches
    obtain ⟨hreadsTest, -⟩ := ihtest htest
    obtain ⟨hreadsTrue, -⟩ := ihtrue htrue
    obtain ⟨hreadsFalse, -⟩ := ihfalse (List.forall_mem_singleton.mp hrest)
    exact ⟨readsOn_conditional hw.fits hreadsTest hquestion hreadsTrue hcolon hreadsFalse, nofun⟩
  | assign _ ht _ ihtarget ihvalue =>
    intro hw
    obtain ⟨hvalue, htarget⟩ := List.forall_mem_cons.mp hw.parts
    obtain ⟨hreadsTarget, -⟩ := ihtarget (writable_ref hw.based htarget)
    obtain ⟨hreadsValue, -⟩ := ihvalue hvalue
    exact ⟨readsOn_assign hw.fits hreadsTarget ht hreadsValue, nofun⟩
  | noElements => exact fun _ closing rest _ => ⟨[], rfl, .noElements rfl⟩
  | @lastElement elem ts helem ihelem =>
    intro hw closing rest hclosing
    have hcloses : closing.kind.closes = true := by
      rcases hclosing with heq | heq <;> rw [heq] <;> rfl
    have hcomma : closing.kind ≠ .comma := by
      rcases hclosing with heq | heq <;> rw [heq] <;> nofun
    obtain ⟨hreads, -⟩ := ihelem (List.forall_mem_singleton.mp hw)
    obtain ⟨elem', helem', hread⟩ := hreads.closed hcloses rest
    obtain ⟨t, ts, rfl, ht⟩ := cons_of_begins (begins_of_spells helem _ rfl) hcloses
    exact ⟨[elem'], by simp only [unplacedAll, helem'], .lastElement ht hread hcomma rfl⟩
  | @element elem elems comma ts us helem hcomma _ _ ihelem ihelems =>
    intro hw closing rest hclosing
    have hcloses : closing.kind.closes = true := by
      rcases hclosing with heq | heq <;> rw [heq] <;> rfl
    obtain ⟨hwelem, hwelems⟩ := List.forall_mem_cons.mp hw
    obtain ⟨elems', helems', hreadElems⟩ := ihelems hwelems closing rest hclosing
    obtain ⟨hreads, -⟩ := ihelem hwelem
    obtain ⟨elem', helem', hread⟩ :=
      hreads.closed (by rw [hcomma]; rfl) (us ++ closing :: rest)
    obtain ⟨t, ts, rfl, ht⟩ := cons_of_begins (begins_of_spells helem _ rfl) hcloses
    refine ⟨elem' :: elems', by simp only [unplacedAll, helem', helems'], ?_⟩
    rw [List.append_assoc, List.cons_append]
    exact .element ht hread hcomma hreadElems
  | noEntries => exact fun _ closing rest hclosing => ⟨[], rfl, .noEntries hclosing⟩
  | @lastEntry key pos value t colon ts hkey hcolon _ ihvalue =>
    intro hw closing rest hclosing
    obtain ⟨hreads, -⟩ := ihvalue (List.forall_mem_singleton.mp hw)
    obtain ⟨value', hvalue', hread⟩ := hreads.closed (by rw [hclosing]; rfl) rest
    exact ⟨[.mk key t.pos value'], by simp only [unplacedEntries, Entry.unplaced, hvalue'],
      .lastEntry hkey hcolon hread hclosing⟩
  | @entry key pos value entries t colon comma ts us hkey hcolon _ hcomma _ _ ihvalue ihentries =>
    intro hw closing rest hclosing
    obtain ⟨hwvalue, hwentries⟩ := List.forall_mem_cons.mp hw
    obtain ⟨entries', hentries', hreadEntries⟩ := ihentries hwentries closing rest hclosing
    obtain ⟨hreads, -⟩ := ihvalue hwvalue
    obtain ⟨value', hvalue', hread⟩ :=
      hreads.closed (by rw [hcomma]; rfl) (us ++ closing :: rest)
    refine ⟨.mk key t.pos value' :: entries',
      by simp only [unplacedEntries, Entry.unplaced, hvalue', hentries'], ?_⟩
    rw [List.cons_append, List.cons_append, List.append_assoc, List.cons_append]
    exact .entry hkey hcolon hread hcomma hreadEntries

/-- A writable expression is read from the tokens that spell it. -/
theorem ofTokens_of_spells {e : Expr} (he : e.Writable) {ts : List Token}
    (hts : Spells (.expr e) ts) :
    ∃ e', ofTokens ts = .ok (some e') ∧ e'.unplaced = e.unplaced := by
  obtain ⟨hreads, -⟩ := readsBack_of_spells hts he
  have hends : e.EndsBefore [] := ⟨nofun, nofun⟩
  have hstops : Stops Level.lowest [] := nofun
  obtain ⟨e', he', hread⟩ := hreads.level (by decide) (.inr (Nat.zero_le _)) hends hstops
  rw [List.append_nil] at hread
  exact ⟨e', ofTokens_eq_some_iff.mpr hread, he'⟩

/-- An expression that can be written down has tokens that spell it, and is what all such tokens
    stand for. -/
theorem reads_back {e : Expr} (he : e.Writable) :
    (∃ ts, Spells (.expr e) ts) ∧
      ∀ ts, Spells (.expr e) ts →
        ∃ e', ofTokens ts = .ok (some e') ∧ e'.unplaced = e.unplaced :=
  ⟨exists_spells e, fun _ hts => ofTokens_of_spells he hts⟩

/-- The tree of `a.b = -2 ** f(1); [c++]`. -/
def assignedPower : Expr :=
  .binary .sequence
    (.assign .plain (.member (.ref (.name "a" .start)) "b" .start)
      (.unary .minus
        (.binary (.arith .pow) (.literal 0 .int "2" .start)
          (.call (.name "f" .start) [.literal 0 .int "1" .start] "f(1)" .start) .start)
        .start) .start)
    (.list [.stepAfter .increment (.name "c" .start) .start] .start) .start

theorem assignedPower_reads_back :
    assignedPower.Writable ∧ (∃ ts, Spells (.expr assignedPower) ts) ∧
      ∀ ts, Spells (.expr assignedPower) ts →
        ∃ e', ofTokens ts = .ok (some e') ∧ e'.unplaced = assignedPower.unplaced := by
  have literal (lexeme : String) : (Expr.literal 0 .int lexeme .start).Writable :=
    .of trivial trivial (List.forall_mem_nil _)
  have name (name : String) : (Expr.ref (.name name .start)).Writable :=
    .of trivial trivial (List.forall_mem_nil _)
  have call : (call (.name "f" .start) [.literal 0 .int "1" .start] "f(1)" .start).Writable :=
    .of trivial trivial (by simpa [Expr.parts] using ⟨name "f", literal "1"⟩)
  have power : (binary (.arith .pow) (.literal 0 .int "2" .start)
      (.call (.name "f" .start) [.literal 0 .int "1" .start] "f(1)" .start) .start).Writable :=
    .of ⟨by decide, .inr (by decide)⟩ trivial (by simpa [Expr.parts] using ⟨literal "2", call⟩)
  have count : (stepAfter .increment (.name "c" .start) .start).Writable :=
    .of trivial trivial (List.forall_mem_nil _)
  have hw : assignedPower.Writable := by
    refine .of ⟨by decide, by decide⟩ trivial (List.forall_mem_cons.mpr ⟨?_, ?_⟩)
    · refine .of (by decide : 20 ≤ 140) rfl (List.forall_mem_cons.mpr ⟨?_, ?_⟩)
      · exact .of (.inr (by decide)) trivial (List.forall_mem_singleton.mpr power)
      · exact List.forall_mem_singleton.mpr (name "a")
    · refine List.forall_mem_singleton.mpr (.of trivial trivial ?_)
      exact List.forall_mem_singleton.mpr count
  exact ⟨hw, reads_back hw⟩

end Expr

end ExprLang
