import ExprLang.Expr.Parser
import ExprLang.Proofs.Results

/-!
# The rules of reading

`Expr.Reads` says by rules what the readers of tokens do: each rule names the tokens it takes, what
has to be read in between, and what comes of it. The readers succeed exactly where the rules apply,
so that what holds of all expressions that are read is shown by induction on the rules, and an
expression is shown to be read by putting rules together.
-/

namespace ExprLang

/-- Whether the first of some tokens can begin an expression. -/
def Token.begins (ts : List Token) : Bool := ts.head?.any fun t => t.kind.startsExpression

/-- Whether a token of this kind attaches something to the expression before it. -/
def Token.Kind.isSuffix : Token.Kind → Bool
  | .leftParen | .leftBracket | .dot | .step _ => true
  | _ => false

namespace Expr

/-- What a reader is asked for. -/
inductive Task where
  | level (level : Nat)
  | operators (level : Nat) (left : Expr)
  | unary
  | suffixed
  | suffixes (origin : List Token) (base : Expr)
  | primary
  | elements (closer : Token.Kind)
  | entries

/-- What a reader has read. -/
inductive Phrase where
  | expr (e : Expr)
  | elements (es : List Expr)
  | entries (es : List Entry)

/-- The rules by which a task reads a phrase from the front of some tokens and leaves the rest. -/
inductive Reads : Task → List Token → Phrase → List Token → Prop
  | level {n : Nat} {ts mid rest : List Token} {first e : Expr}
    (hfirst : Reads .unary ts (.expr first) mid)
    (hwhole : Reads (.operators n first) mid (.expr e) rest) : Reads (.level n) ts (.expr e) rest
  -- operators after an operand
  | ended {n : Nat} {left : Expr} : Reads (.operators n left) [] (.expr left) []
  | stops {n : Nat} {left : Expr} {t : Token} {ts : List Token}
    (ht : ∀ found, t.kind.level? = some found → found < n) :
    Reads (.operators n left) (t :: ts) (.expr left) (t :: ts)
  | terminator {n : Nat} {left e : Expr} {t : Token} {ts rest : List Token}
    (ht : t.kind = .binary .sequence) (hn : n ≤ Level.sequence) (hts : Token.begins ts = false)
    (hwhole : Reads (.operators n left) ts (.expr e) rest) :
    Reads (.operators n left) (t :: ts) (.expr e) rest
  | binary {n : Nat} {op : BinaryOp} {left right e : Expr} {t : Token} {ts mid rest : List Token}
    (ht : t.kind = .binary op) (hn : n ≤ op.level) (hts : op = .sequence → Token.begins ts = true)
    (hright : Reads (.level op.rightLevel) ts (.expr right) mid)
    (hwhole : Reads (.operators n (.binary op left right t.pos)) mid (.expr e) rest) :
    Reads (.operators n left) (t :: ts) (.expr e) rest
  | assign {n : Nat} {op : AssignOp} {target : Target} {value e : Expr} {t : Token}
    {ts mid rest : List Token} (ht : t.kind = .assign op) (hn : n ≤ Level.assignment)
    (hvalue : Reads (.level Level.assignment) ts (.expr value) mid)
    (hwhole : Reads (.operators n (.assign op target value t.pos)) mid (.expr e) rest) :
    Reads (.operators n (.ref target)) (t :: ts) (.expr e) rest
  | conditional {n : Nat} {left ifTrue ifFalse e : Expr} {t colon : Token}
    {ts mid mid' rest : List Token} (ht : t.kind = .question) (hn : n ≤ Level.conditional)
    (htrue : Reads (.level Level.assignment) ts (.expr ifTrue) (colon :: mid))
    (hcolon : colon.kind = .colon)
    (hfalse : Reads (.level Level.conditional) mid (.expr ifFalse) mid')
    (hwhole : Reads (.operators n (.conditional left ifTrue ifFalse t.pos)) mid' (.expr e) rest) :
    Reads (.operators n left) (t :: ts) (.expr e) rest
  -- operators in front of an operand
  | unary {op : UnaryOp} {operand : Expr} {t : Token} {ts rest : List Token}
    (ht : unaryOp? t.kind = some op)
    (hoperand : Reads (.level Level.power) ts (.expr operand) rest) :
    Reads .unary (t :: ts) (.expr (.unary op operand t.pos)) rest
  | stepBefore {op : StepOp} {target : Target} {t : Token} {ts rest : List Token}
    (ht : t.kind = .step op) (htarget : Reads .suffixed ts (.expr (.ref target)) rest) :
    Reads .unary (t :: ts) (.expr (.stepBefore op target t.pos)) rest
  | operand {t : Token} {ts rest : List Token} {e : Expr} (ht : unaryOp? t.kind = none)
    (hstep : ∀ op, t.kind ≠ .step op) (he : Reads .suffixed (t :: ts) (.expr e) rest) :
    Reads .unary (t :: ts) (.expr e) rest
  -- what is attached to a primary expression
  | suffixed {ts mid rest : List Token} {base e : Expr}
    (hbase : Reads .primary ts (.expr base) mid)
    (hwhole : Reads (.suffixes ts base) mid (.expr e) rest) : Reads .suffixed ts (.expr e) rest
  | unattached {origin : List Token} {base : Expr} :
    Reads (.suffixes origin base) [] (.expr base) []
  | detached {origin : List Token} {base : Expr} {t : Token} {ts : List Token}
    (ht : t.kind.isSuffix = false) :
    Reads (.suffixes origin base) (t :: ts) (.expr base) (t :: ts)
  | call {origin : List Token} {callee : Target} {args : List Expr} {e : Expr} {t : Token}
    {ts mid rest : List Token} (ht : t.kind = .leftParen)
    (hargs : Reads (.elements .rightParen) ts (.elements args) mid)
    (hwhole : Reads (.suffixes origin (.call callee args
      (Token.joined (origin.take (origin.length - mid.length)))
      ((origin.head?.map Token.pos).getD t.pos))) mid (.expr e) rest) :
    Reads (.suffixes origin (.ref callee)) (t :: ts) (.expr e) rest
  | index {origin : List Token} {base index e : Expr} {t closing : Token} {ts mid rest : List Token}
    (ht : t.kind = .leftBracket)
    (hindex : Reads (.level Level.lowest) ts (.expr index) (closing :: mid))
    (hclosing : closing.kind = .rightBracket)
    (hwhole : Reads (.suffixes origin (.ref (.index base index t.pos))) mid (.expr e) rest) :
    Reads (.suffixes origin base) (t :: ts) (.expr e) rest
  | member {origin : List Token} {base e : Expr} {t name : Token} {ts rest : List Token}
    (ht : t.kind = .dot) (hname : name.kind = .identifier)
    (hwhole : Reads (.suffixes origin (.ref (.member base name.lexeme t.pos))) ts (.expr e) rest) :
    Reads (.suffixes origin base) (t :: name :: ts) (.expr e) rest
  | stepAfter {origin : List Token} {op : StepOp} {target : Target} {t : Token} {ts : List Token}
    (ht : t.kind = .step op) :
    Reads (.suffixes origin (.ref target)) (t :: ts) (.expr (.stepAfter op target t.pos)) ts
  -- primary expressions
  | literal {kind : LiteralKind} {t : Token} {ts : List Token} (ht : t.kind = .literal kind) :
    Reads .primary (t :: ts) (.expr (.literal 0 kind t.lexeme t.pos)) ts
  | name {t : Token} {ts : List Token} (ht : t.kind = .identifier) :
    Reads .primary (t :: ts) (.expr (.ref (.name t.lexeme t.pos))) ts
  | group {t closing : Token} {ts rest : List Token} {inner : Expr} (ht : t.kind = .leftParen)
    (hinner : Reads (.level Level.lowest) ts (.expr inner) (closing :: rest))
    (hclosing : closing.kind = .rightParen) :
    Reads .primary (t :: ts) (.expr (.group inner t.pos)) rest
  | list {t : Token} {ts rest : List Token} {elems : List Expr} (ht : t.kind = .leftBracket)
    (helems : Reads (.elements .rightBracket) ts (.elements elems) rest) :
    Reads .primary (t :: ts) (.expr (.list elems t.pos)) rest
  | object {t : Token} {ts rest : List Token} {entries : List Entry} (ht : t.kind = .leftBrace)
    (hentries : Reads .entries ts (.entries entries) rest) :
    Reads .primary (t :: ts) (.expr (.object entries t.pos)) rest
  -- what stands between brackets
  | noElements {closer : Token.Kind} {t : Token} {ts : List Token} (ht : t.kind = closer) :
    Reads (.elements closer) (t :: ts) (.elements []) ts
  | element {closer : Token.Kind} {t comma : Token} {ts mid rest : List Token} {elem : Expr}
    {elems : List Expr} (ht : t.kind ≠ closer)
    (helem : Reads (.level Level.lowest) (t :: ts) (.expr elem) (comma :: mid))
    (hcomma : comma.kind = .comma)
    (helems : Reads (.elements closer) mid (.elements elems) rest) :
    Reads (.elements closer) (t :: ts) (.elements (elem :: elems)) rest
  | lastElement {closer : Token.Kind} {t closing : Token} {ts rest : List Token} {elem : Expr}
    (ht : t.kind ≠ closer)
    (helem : Reads (.level Level.lowest) (t :: ts) (.expr elem) (closing :: rest))
    (hcomma : closing.kind ≠ .comma) (hclosing : closing.kind = closer) :
    Reads (.elements closer) (t :: ts) (.elements [elem]) rest
  | noEntries {t : Token} {ts : List Token} (ht : t.kind = .rightBrace) :
    Reads .entries (t :: ts) (.entries []) ts
  | entry {t colon comma : Token} {ts mid rest : List Token} {key : String} {value : Expr}
    {entries : List Entry} (hkey : key? t = .ok key) (hcolon : colon.kind = .colon)
    (hvalue : Reads (.level Level.lowest) ts (.expr value) (comma :: mid))
    (hcomma : comma.kind = .comma) (hentries : Reads .entries mid (.entries entries) rest) :
    Reads .entries (t :: colon :: ts) (.entries (.mk key t.pos value :: entries)) rest
  | lastEntry {t colon closing : Token} {ts rest : List Token} {key : String} {value : Expr}
    (hkey : key? t = .ok key) (hcolon : colon.kind = .colon)
    (hvalue : Reads (.level Level.lowest) ts (.expr value) (closing :: rest))
    (hclosing : closing.kind = .rightBrace) :
    Reads .entries (t :: colon :: ts) (.entries [.mk key t.pos value]) rest

theorem isSuffix_after {t : Token} {mid ts : List Token} (h : t :: mid <:+ ts) : mid <:+ ts :=
  (List.suffix_cons t mid).trans h

/-- What is left is the end of what there was. -/
theorem Reads.isSuffix {task : Task} {ts : List Token} {p : Phrase} {rest : List Token}
    (h : Reads task ts p rest) : rest <:+ ts := by
  induction h with
  | ended | stops | unattached | detached => exact List.suffix_refl _
  | level _ _ ih ih' | suffixed _ _ ih ih' => exact ih'.trans ih
  | terminator _ _ _ _ ih | unary _ _ ih | stepBefore _ _ ih | list _ _ ih | object _ _ ih =>
    exact ih.trans (List.suffix_cons _ _)
  | binary _ _ _ _ _ ih ih' | assign _ _ _ _ ih ih' | call _ _ _ ih ih' =>
    exact (ih'.trans ih).trans (List.suffix_cons _ _)
  | conditional _ _ _ _ _ _ ih ih' ih'' =>
    exact ((ih''.trans ih').trans (isSuffix_after ih)).trans (List.suffix_cons _ _)
  | operand _ _ _ ih => exact ih
  | index _ _ _ _ ih ih' => exact (ih'.trans (isSuffix_after ih)).trans (List.suffix_cons _ _)
  | member _ _ _ ih => exact (ih.trans (List.suffix_cons _ _)).trans (List.suffix_cons _ _)
  | stepAfter | literal | name | noElements | noEntries => exact List.suffix_cons _ _
  | group _ _ _ ih => exact (isSuffix_after ih).trans (List.suffix_cons _ _)
  | element _ _ _ _ ih ih' => exact ih'.trans (isSuffix_after ih)
  | lastElement _ _ _ _ ih => exact isSuffix_after ih
  | entry _ _ _ _ _ ih ih' =>
    exact ((ih'.trans (isSuffix_after ih)).trans (List.suffix_cons _ _)).trans
      (List.suffix_cons _ _)
  | lastEntry _ _ _ _ ih =>
    exact ((isSuffix_after ih).trans (List.suffix_cons _ _)).trans (List.suffix_cons _ _)

/-- Tokens that do not go on with an operator of a level or higher. -/
def Stops (n : Nat) (ts : List Token) : Prop :=
  ∀ t ∈ ts.head?, ∀ found, t.kind.level? = some found → found < n

/-- Where a task ends as far as operators are concerned. -/
def Task.Ends : Task → List Token → Prop
  | .level n, rest | .operators n _, rest => Stops n rest
  | _, _ => True

/-- Operators are read as long as there are any of the level asked for. -/
theorem Reads.ends {task : Task} {ts : List Token} {p : Phrase} {rest : List Token}
    (h : Reads task ts p rest) : task.Ends rest := by
  induction h with
  | level _ _ _ ih | terminator _ _ _ _ ih | binary _ _ _ _ _ _ ih | assign _ _ _ _ _ ih
  | conditional _ _ _ _ _ _ _ _ ih => exact ih
  | ended => exact nofun
  | stops ht =>
    rintro t ⟨rfl⟩
    exact ht
  | _ => trivial

/-! ## The readers follow the rules -/

/-- The reader that does a task, with the phrase and the rest as a pair. -/
def Task.run (ts : List Token) : Task → Except ParseError (Phrase × List Token)
  | .level n => (parseLevel n ts).map fun p => (.expr p.value, p.rest)
  | .operators n left => (parseOperators n left ts).map fun p => (.expr p.value, p.rest)
  | .unary => (parseUnary ts).map fun p => (.expr p.value, p.rest)
  | .suffixed => (parseSuffixed ts).map fun p => (.expr p.value, p.rest)
  | .suffixes origin base =>
    (parseSuffixes origin base ts).map fun p => (.expr p.value, p.rest)
  | .primary => (parsePrimary ts).map fun p => (.expr p.value, p.rest)
  | .elements closer => (parseElements closer ts).map fun p => (.elements p.value, p.rest)
  | .entries => (parseEntries ts).map fun p => (.entries p.value, p.rest)

/-- What the recursion of the readers goes down by. -/
def Task.weight (ts : List Token) : Task → Nat
  | .level _ => 8 * ts.length + 5
  | .operators _ _ => 8 * ts.length + 4
  | .unary => 8 * ts.length + 3
  | .suffixed => 8 * ts.length + 2
  | .suffixes _ _ | .primary => 8 * ts.length + 1
  | .elements _ | .entries => 8 * ts.length + 6

theorem eq_ref_of_target? {e : Expr} {target : Target} (h : e.target? = some target) :
    e = .ref target := by
  cases e with
  | ref target' => cases h; rfl
  | _ => cases h

/-- The readers follow the rules on tasks that weigh less than a bound. -/
def FollowsBelow (bound : Nat) : Prop :=
  ∀ task ts p rest, task.weight ts < bound → task.run ts = .ok (p, rest) → Reads task ts p rest

namespace FollowsBelow

variable {bound : Nat} (ih : FollowsBelow bound) {ts : List Token}
include ih

theorem level {n : Nat} {r : Parsed Expr ts} (h : parseLevel n ts = .ok r)
    (hw : 8 * ts.length + 5 < bound) : Reads (.level n) ts (.expr r.value) r.rest :=
  ih (.level n) ts _ _ hw (map_eq_ok.mpr ⟨r, h, rfl⟩)

theorem operators {n : Nat} {left : Expr} {r : Continued Expr ts}
    (h : parseOperators n left ts = .ok r) (hw : 8 * ts.length + 4 < bound) :
    Reads (.operators n left) ts (.expr r.value) r.rest :=
  ih (.operators n left) ts _ _ hw (map_eq_ok.mpr ⟨r, h, rfl⟩)

theorem suffixes {origin : List Token} {base : Expr} {r : Continued Expr ts}
    (h : parseSuffixes origin base ts = .ok r) (hw : 8 * ts.length + 1 < bound) :
    Reads (.suffixes origin base) ts (.expr r.value) r.rest :=
  ih (.suffixes origin base) ts _ _ hw (map_eq_ok.mpr ⟨r, h, rfl⟩)

theorem arguments {closer : Token.Kind} {r : Parsed (List Expr) ts}
    (h : parseArguments closer ts = .ok r) (hw : 8 * ts.length + 6 < bound) :
    Reads (.elements closer) ts (.elements r.value) r.rest := by
  cases ts with
  | nil => rw [parseArguments] at h; cases h
  | cons t ts =>
    rw [parseArguments] at h
    exact ih (.elements closer) _ _ _ hw (map_eq_ok.mpr ⟨r, h, rfl⟩)

end FollowsBelow

theorem reads_of_parseLevel {n : Nat} {ts : List Token} {r : Parsed Expr ts}
    (ih : FollowsBelow (8 * ts.length + 5)) (h : parseLevel n ts = .ok r) :
    Reads (.level n) ts (.expr r.value) r.rest := by
  rw [parseLevel] at h
  obtain ⟨first, hfirst, h⟩ := bind_eq_ok.mp h
  obtain ⟨whole, hwhole, h⟩ := bind_eq_ok.mp h
  cases h
  have hshorter := first.shorter
  have hread : Reads .unary ts (.expr first.value) first.rest :=
    ih .unary ts _ _ (by simp only [Task.weight]; omega) (map_eq_ok.mpr ⟨first, hfirst, rfl⟩)
  exact .level hread (ih.operators hwhole (by omega))

theorem reads_of_parseOperators {n : Nat} {left : Expr} {ts : List Token} {r : Continued Expr ts}
    (ih : FollowsBelow (8 * ts.length + 4)) (h : parseOperators n left ts = .ok r) :
    Reads (.operators n left) ts (.expr r.value) r.rest := by
  cases ts with
  | nil =>
    rw [parseOperators] at h
    cases h
    exact .ended
  | cons op ts =>
    rw [parseOperators] at h
    split at h
    · next hlevel =>
      cases h
      exact .stops fun found hfound => by rw [hlevel] at hfound; cases hfound
    · next found hlevel =>
      split at h
      · next hlt =>
        cases h
        refine .stops fun found' hfound => ?_
        rw [hlevel] at hfound
        cases hfound
        exact hlt
      · next hge =>
        have hle : n ≤ found := Nat.le_of_not_lt hge
        simp only [List.length_cons] at ih
        split at h
        · next hkind =>
          rw [hkind] at hlevel
          cases hlevel
          split at h
          · next hbegins =>
            obtain ⟨right, hright, h⟩ := bind_eq_ok.mp h
            obtain ⟨whole, hwhole, h⟩ := bind_eq_ok.mp h
            cases h
            have hshorter := right.shorter
            exact .binary hkind hle (fun _ => hbegins) (ih.level hright (by omega))
              (ih.operators hwhole (by omega))
          · next hbegins =>
            obtain ⟨whole, hwhole, h⟩ := bind_eq_ok.mp h
            cases h
            exact .terminator hkind hle (eq_false_of_ne_true hbegins)
              (ih.operators hwhole (by omega))
        · next operator hne hkind =>
          rw [hkind] at hlevel
          cases hlevel
          obtain ⟨right, hright, h⟩ := bind_eq_ok.mp h
          obtain ⟨whole, hwhole, h⟩ := bind_eq_ok.mp h
          cases h
          have hshorter := right.shorter
          exact .binary hkind hle (fun heq => absurd heq hne) (ih.level hright (by omega))
            (ih.operators hwhole (by omega))
        · next operator hkind =>
          rw [hkind] at hlevel
          cases hlevel
          split at h
          · cases h
          · next target htarget =>
            obtain ⟨value, hvalue, h⟩ := bind_eq_ok.mp h
            obtain ⟨whole, hwhole, h⟩ := bind_eq_ok.mp h
            cases h
            have hshorter := value.shorter
            rw [eq_ref_of_target? htarget]
            exact .assign hkind hle (ih.level hvalue (by omega)) (ih.operators hwhole (by omega))
        · next hkind =>
          rw [hkind] at hlevel
          cases hlevel
          obtain ⟨ifTrue, htrue, h⟩ := bind_eq_ok.mp h
          split at h
          · cases h
          · next colon afterColon hrest =>
            split at h
            · next hcolon =>
              obtain ⟨ifFalse, hfalse, h⟩ := bind_eq_ok.mp h
              obtain ⟨whole, hwhole, h⟩ := bind_eq_ok.mp h
              cases h
              have hshorter := ifTrue.shorter
              have hshorter' := ifFalse.shorter
              have htrue' := ih.level htrue (by omega)
              rw [hrest] at htrue' hshorter
              simp only [List.length_cons] at hshorter
              exact .conditional hkind hle htrue' hcolon (ih.level hfalse (by omega))
                (ih.operators hwhole (by omega))
            · cases h
        · cases h

theorem reads_of_parseUnary {ts : List Token} {r : Parsed Expr ts}
    (ih : FollowsBelow (8 * ts.length + 3)) (h : parseUnary ts = .ok r) :
    Reads .unary ts (.expr r.value) r.rest := by
  cases ts with
  | nil => rw [parseUnary] at h; cases h
  | cons t ts =>
    rw [parseUnary] at h
    simp only [List.length_cons] at ih
    split at h
    · next op hop =>
      obtain ⟨operand, hoperand, h⟩ := bind_eq_ok.mp h
      cases h
      exact .unary hop (ih.level hoperand (by omega))
    · next hnone =>
      have suffixed {ts' : List Token} {r' : Parsed Expr ts'} (h' : parseSuffixed ts' = .ok r')
          (hlen : ts'.length ≤ ts.length + 1) : Reads .suffixed ts' (.expr r'.value) r'.rest :=
        ih .suffixed ts' _ _ (by simp only [Task.weight]; omega) (map_eq_ok.mpr ⟨r', h', rfl⟩)
      split at h
      · next op hkind =>
        obtain ⟨operand, hoperand, h⟩ := bind_eq_ok.mp h
        split at h
        · cases h
        · next target htarget =>
          cases h
          have hread := suffixed hoperand (by omega)
          rw [eq_ref_of_target? htarget] at hread
          exact .stepBefore hkind hread
      · next hstep => exact .operand hnone hstep (suffixed h (Nat.le_refl _))

theorem reads_of_parseSuffixed {ts : List Token} {r : Parsed Expr ts}
    (ih : FollowsBelow (8 * ts.length + 2)) (h : parseSuffixed ts = .ok r) :
    Reads .suffixed ts (.expr r.value) r.rest := by
  rw [parseSuffixed] at h
  obtain ⟨first, hfirst, h⟩ := bind_eq_ok.mp h
  obtain ⟨whole, hwhole, h⟩ := bind_eq_ok.mp h
  cases h
  have hshorter := first.shorter
  have hread : Reads .primary ts (.expr first.value) first.rest :=
    ih .primary ts _ _ (by simp only [Task.weight]; omega) (map_eq_ok.mpr ⟨first, hfirst, rfl⟩)
  exact .suffixed hread (ih.suffixes hwhole (by omega))

theorem reads_of_parseSuffixes {origin : List Token} {base : Expr} {ts : List Token}
    {r : Continued Expr ts} (ih : FollowsBelow (8 * ts.length + 1))
    (h : parseSuffixes origin base ts = .ok r) :
    Reads (.suffixes origin base) ts (.expr r.value) r.rest := by
  cases ts with
  | nil =>
    rw [parseSuffixes] at h
    cases h
    exact .unattached
  | cons t ts =>
    unfold parseSuffixes at h
    simp only [List.length_cons] at ih
    split at h
    · next hkind =>
      split at h
      · cases h
      · next callee hcallee =>
        obtain ⟨args, hargs, h⟩ := bind_eq_ok.mp h
        obtain ⟨whole, hwhole, h⟩ := bind_eq_ok.mp h
        cases h
        have hshorter := args.shorter
        rw [eq_ref_of_target? hcallee]
        exact .call hkind (ih.arguments hargs (by omega)) (ih.suffixes hwhole (by omega))
    · next hkind =>
      obtain ⟨index, hindex, h⟩ := bind_eq_ok.mp h
      split at h
      · cases h
      · next closing afterIndex hrest =>
        split at h
        · next hclosing =>
          obtain ⟨whole, hwhole, h⟩ := bind_eq_ok.mp h
          cases h
          have hshorter := index.shorter
          have hindex' := ih.level hindex (by omega)
          rw [hrest] at hindex' hshorter
          simp only [List.length_cons] at hshorter
          exact .index hkind hindex' hclosing (ih.suffixes hwhole (by omega))
        · cases h
    · next hkind =>
      split at h
      · cases h
      · next name afterName =>
        simp only [List.length_cons] at ih
        split at h
        · next hname =>
          obtain ⟨whole, hwhole, h⟩ := bind_eq_ok.mp h
          cases h
          exact .member hkind hname (ih.suffixes hwhole (by omega))
        · cases h
    · next op hkind =>
      split at h
      · cases h
      · next target htarget =>
        cases h
        rw [eq_ref_of_target? htarget]
        exact .stepAfter hkind
    · next hparen hbracket hdot hstep =>
      cases h
      refine .detached ?_
      unfold Token.Kind.isSuffix
      split <;> simp_all

theorem reads_of_parsePrimary {ts : List Token} {r : Parsed Expr ts}
    (ih : FollowsBelow (8 * ts.length + 1)) (h : parsePrimary ts = .ok r) :
    Reads .primary ts (.expr r.value) r.rest := by
  cases ts with
  | nil => rw [parsePrimary] at h; cases h
  | cons t ts =>
    rw [parsePrimary] at h
    simp only [List.length_cons] at ih
    split at h
    · next kind hkind =>
      cases h
      exact .literal hkind
    · next hkind =>
      cases h
      exact .name hkind
    · next hkind =>
      obtain ⟨inner, hinner, h⟩ := bind_eq_ok.mp h
      split at h
      · cases h
      · next closing afterGroup hrest =>
        split at h
        · next hclosing =>
          cases h
          have hinner' := ih.level hinner (by omega)
          rw [hrest] at hinner'
          exact .group hkind hinner' hclosing
        · cases h
    · next hkind =>
      obtain ⟨elems, helems, h⟩ := bind_eq_ok.mp h
      cases h
      exact .list hkind (ih.arguments helems (by omega))
    · next hkind =>
      obtain ⟨entries, hentries, h⟩ := bind_eq_ok.mp h
      cases h
      exact .object hkind (ih .entries ts _ _ (by simp only [Task.weight]; omega)
        (map_eq_ok.mpr ⟨entries, hentries, rfl⟩))
    · cases h

theorem reads_of_parseElements {closer : Token.Kind} {ts : List Token}
    {r : Parsed (List Expr) ts} (ih : FollowsBelow (8 * ts.length + 6))
    (h : parseElements closer ts = .ok r) :
    Reads (.elements closer) ts (.elements r.value) r.rest := by
  cases ts with
  | nil => rw [parseElements] at h; cases h
  | cons t ts =>
    rw [parseElements] at h
    split at h
    · next hkind =>
      cases h
      exact .noElements hkind
    · next hkind =>
      obtain ⟨elem, helem, h⟩ := bind_eq_ok.mp h
      split at h
      · cases h
      · next after others hrest =>
        have helem' := ih.level helem (by omega)
        have hshorter := elem.shorter
        rw [hrest] at helem' hshorter
        simp only [List.length_cons] at hshorter ih
        split at h
        · next hcomma =>
          obtain ⟨elems, helems, h⟩ := bind_eq_ok.mp h
          cases h
          exact .element hkind helem' hcomma (ih (.elements closer) others _ _
            (by simp only [Task.weight]; omega) (map_eq_ok.mpr ⟨elems, helems, rfl⟩))
        · next hcomma =>
          split at h
          · next hclosing =>
            cases h
            exact .lastElement hkind helem' hcomma hclosing
          · cases h

theorem reads_of_parseEntries {ts : List Token} {r : Parsed (List Entry) ts}
    (ih : FollowsBelow (8 * ts.length + 6)) (h : parseEntries ts = .ok r) :
    Reads .entries ts (.entries r.value) r.rest := by
  cases ts with
  | nil => unfold parseEntries at h; cases h
  | cons t ts =>
    unfold parseEntries at h
    split at h
    · next hkind =>
      cases h
      exact .noEntries hkind
    · next hkind =>
      obtain ⟨key, hkey, h⟩ := bind_eq_ok.mp h
      split at h
      · cases h
      · next colon afterColon =>
        simp only [List.length_cons] at ih
        split at h
        · next hcolon =>
          obtain ⟨value, hvalue, h⟩ := bind_eq_ok.mp h
          split at h
          · cases h
          · next after others hrest =>
            have hvalue' := ih.level hvalue (by omega)
            have hshorter := value.shorter
            rw [hrest] at hvalue' hshorter
            simp only [List.length_cons] at hshorter
            split at h
            · next hcomma =>
              obtain ⟨entries, hentries, h⟩ := bind_eq_ok.mp h
              cases h
              exact .entry hkey hcolon hvalue' hcomma (ih .entries others _ _
                (by simp only [Task.weight]; omega) (map_eq_ok.mpr ⟨entries, hentries, rfl⟩))
            · split at h
              · next hclosing =>
                cases h
                exact .lastEntry hkey hcolon hvalue' hclosing
              · cases h
        · cases h

/-- Whatever a reader reads, it reads by the rules. -/
theorem reads_of_run {task : Task} {ts : List Token} {p : Phrase} {rest : List Token}
    (h : task.run ts = .ok (p, rest)) : Reads task ts p rest := by
  have hall : ∀ bound, FollowsBelow bound := by
    intro bound
    induction bound with
    | zero => exact fun _ _ _ _ hw => absurd hw (Nat.not_lt_zero _)
    | succ bound ih =>
      intro task ts p rest hw h
      have ih' : FollowsBelow (task.weight ts) := fun task' ts' p' rest' hw' =>
        ih task' ts' p' rest' (Nat.lt_of_lt_of_le hw' (Nat.le_of_lt_succ hw))
      cases task with
      | level n =>
        obtain ⟨r, hr, heq⟩ := map_eq_ok.mp h
        cases heq
        exact reads_of_parseLevel ih' hr
      | operators n left =>
        obtain ⟨r, hr, heq⟩ := map_eq_ok.mp h
        cases heq
        exact reads_of_parseOperators ih' hr
      | unary =>
        obtain ⟨r, hr, heq⟩ := map_eq_ok.mp h
        cases heq
        exact reads_of_parseUnary ih' hr
      | suffixed =>
        obtain ⟨r, hr, heq⟩ := map_eq_ok.mp h
        cases heq
        exact reads_of_parseSuffixed ih' hr
      | suffixes origin base =>
        obtain ⟨r, hr, heq⟩ := map_eq_ok.mp h
        cases heq
        exact reads_of_parseSuffixes ih' hr
      | primary =>
        obtain ⟨r, hr, heq⟩ := map_eq_ok.mp h
        cases heq
        exact reads_of_parsePrimary ih' hr
      | elements closer =>
        obtain ⟨r, hr, heq⟩ := map_eq_ok.mp h
        cases heq
        exact reads_of_parseElements ih' hr
      | entries =>
        obtain ⟨r, hr, heq⟩ := map_eq_ok.mp h
        cases heq
        exact reads_of_parseEntries ih' hr
  exact hall _ task ts p rest (Nat.lt_succ_self _) h

/-! ## The rules are followed -/

theorem parsed_of_run {α : Type} {ts : List Token} {f : α → Phrase}
    (hf : ∀ {a b}, f a = f b → a = b) {x : Except ParseError (Parsed α ts)} {a : α}
    {rest : List Token} (h : x.map (fun p => (f p.value, p.rest)) = .ok (f a, rest)) :
    ∃ hlt, x = .ok ⟨a, rest, hlt⟩ := by
  obtain ⟨⟨b, rest', hlt⟩, hx, heq⟩ := map_eq_ok.mp h
  obtain ⟨hfb, rfl⟩ := Prod.mk.inj heq
  cases hf hfb
  exact ⟨hlt, hx⟩

theorem continued_of_run {ts : List Token} {x : Except ParseError (Continued Expr ts)} {e : Expr}
    {rest : List Token}
    (h : x.map (fun p => (Phrase.expr p.value, p.rest)) = .ok (.expr e, rest)) :
    ∃ hle, x = .ok ⟨e, rest, hle⟩ := by
  obtain ⟨⟨b, rest', hle⟩, hx, heq⟩ := map_eq_ok.mp h
  cases heq
  exact ⟨hle, hx⟩

theorem parseLevel_of_run {n : Nat} {ts rest : List Token} {e : Expr}
    (h : (Task.level n).run ts = .ok (.expr e, rest)) :
    ∃ hlt, parseLevel n ts = .ok ⟨e, rest, hlt⟩ :=
  parsed_of_run Phrase.expr.inj h

theorem parseArguments_of_run {closer : Token.Kind} {ts rest : List Token} {es : List Expr}
    (h : (Task.elements closer).run ts = .ok (.elements es, rest)) :
    ∃ hlt, parseArguments closer ts = .ok ⟨es, rest, hlt⟩ := by
  obtain ⟨hlt, hread⟩ := parsed_of_run Phrase.elements.inj h
  cases ts with
  | nil => cases Nat.not_lt_zero _ hlt
  | cons t ts => exact ⟨hlt, by rw [parseArguments, hread]⟩

theorem ok_bind {ε α β : Type} (a : α) (f : α → Except ε β) : (Except.ok a >>= f) = f a := rfl

theorem pure_eq_ok {ε α : Type} (a : α) : (pure a : Except ε α) = .ok a := rfl

theorem map_ok {ε α β : Type} (a : α) (f : α → β) : (Except.ok a : Except ε α).map f = .ok (f a) :=
  rfl

/-- Where a rule applies, the reader does what the rule says. -/
theorem Reads.run_eq {task : Task} {ts : List Token} {p : Phrase} {rest : List Token}
    (h : Reads task ts p rest) : task.run ts = .ok (p, rest) := by
  induction h with
  | level hfirst hwhole ihfirst ihwhole =>
    obtain ⟨_, hfirst'⟩ := parsed_of_run Phrase.expr.inj ihfirst
    obtain ⟨_, hwhole'⟩ := continued_of_run ihwhole
    simp only [Task.run, parseLevel, hfirst', hwhole', ok_bind, pure_eq_ok, map_ok]
  | ended => simp only [Task.run, parseOperators, pure_eq_ok, map_ok]
  | @stops n left t ts ht =>
    rw [Task.run, parseOperators]
    cases hlevel : t.kind.level? with
    | none => rfl
    | some found => simp only [if_pos (ht found hlevel), pure_eq_ok, map_ok]
  | terminator ht hn hts hwhole ihwhole =>
    obtain ⟨_, hwhole'⟩ := continued_of_run ihwhole
    rw [Token.begins] at hts
    simp only [Task.run, parseOperators, ht, Token.Kind.level?, BinaryOp.level,
      if_neg (Nat.not_lt.mpr hn), hts, hwhole', ok_bind, pure_eq_ok, map_ok, Bool.false_eq_true,
      if_false]
  | @binary n op left right e t ts mid rest ht hn hts hright hwhole ihright ihwhole =>
    obtain ⟨_, hright'⟩ := parseLevel_of_run ihright
    obtain ⟨_, hwhole'⟩ := continued_of_run ihwhole
    have hge := Nat.not_lt.mpr hn
    by_cases hop : op = .sequence
    · subst hop
      have hbegins := hts rfl
      rw [Token.begins] at hbegins
      simp only [Task.run, parseOperators, ht, Token.Kind.level?, if_neg hge, hbegins, if_true,
        hright', hwhole', ok_bind, pure_eq_ok, map_ok]
    · simp only [Task.run, parseOperators, ht, Token.Kind.level?, if_neg hge, hright', hwhole',
        ok_bind, pure_eq_ok, map_ok]
  | assign ht hn hvalue hwhole ihvalue ihwhole =>
    obtain ⟨_, hvalue'⟩ := parseLevel_of_run ihvalue
    obtain ⟨_, hwhole'⟩ := continued_of_run ihwhole
    simp only [Task.run, parseOperators, ht, Token.Kind.level?, if_neg (Nat.not_lt.mpr hn), target?,
      hvalue', hwhole', ok_bind, pure_eq_ok, map_ok]
  | conditional ht hn htrue hcolon hfalse hwhole ihtrue ihfalse ihwhole =>
    obtain ⟨_, htrue'⟩ := parseLevel_of_run ihtrue
    obtain ⟨_, hfalse'⟩ := parseLevel_of_run ihfalse
    obtain ⟨_, hwhole'⟩ := continued_of_run ihwhole
    simp only [Task.run, parseOperators, ht, Token.Kind.level?, if_neg (Nat.not_lt.mpr hn), hcolon,
      if_true, htrue', hfalse', hwhole', ok_bind, pure_eq_ok, map_ok]
  | unary ht hoperand ihoperand =>
    obtain ⟨_, hoperand'⟩ := parseLevel_of_run ihoperand
    simp only [Task.run, parseUnary, ht, hoperand', ok_bind, pure_eq_ok, map_ok]
  | stepBefore ht htarget ihtarget =>
    obtain ⟨_, htarget'⟩ := parsed_of_run Phrase.expr.inj ihtarget
    simp only [Task.run, parseUnary, ht, unaryOp?, htarget', target?, ok_bind, pure_eq_ok, map_ok]
  | operand ht hstep he ihe =>
    obtain ⟨_, he'⟩ := parsed_of_run Phrase.expr.inj ihe
    simp only [Task.run, parseUnary, ht, he', map_ok]
  | suffixed hbase hwhole ihbase ihwhole =>
    obtain ⟨_, hbase'⟩ := parsed_of_run Phrase.expr.inj ihbase
    obtain ⟨_, hwhole'⟩ := continued_of_run ihwhole
    simp only [Task.run, parseSuffixed, hbase', hwhole', ok_bind, pure_eq_ok, map_ok]
  | unattached => simp only [Task.run, parseSuffixes, pure_eq_ok, map_ok]
  | @detached origin base t ts ht =>
    rw [Task.run]
    unfold parseSuffixes
    split
    · next hkind => rw [hkind] at ht; cases ht
    · next hkind => rw [hkind] at ht; cases ht
    · next hkind => rw [hkind] at ht; cases ht
    · next hkind => rw [hkind] at ht; cases ht
    · rfl
  | call ht hargs hwhole ihargs ihwhole =>
    obtain ⟨_, hargs'⟩ := parseArguments_of_run ihargs
    obtain ⟨_, hwhole'⟩ := continued_of_run ihwhole
    unfold Task.run parseSuffixes
    simp only [ht, target?, hargs', hwhole', ok_bind, pure_eq_ok, map_ok]
  | index ht hindex hclosing hwhole ihindex ihwhole =>
    obtain ⟨_, hindex'⟩ := parseLevel_of_run ihindex
    obtain ⟨_, hwhole'⟩ := continued_of_run ihwhole
    unfold Task.run parseSuffixes
    simp only [ht, hindex', hclosing, if_true, hwhole', ok_bind, pure_eq_ok, map_ok]
  | member ht hname hwhole ihwhole =>
    obtain ⟨_, hwhole'⟩ := continued_of_run ihwhole
    simp only [Task.run, parseSuffixes, ht, hname, if_true, hwhole', ok_bind, pure_eq_ok, map_ok]
  | stepAfter ht =>
    unfold Task.run parseSuffixes
    simp only [ht, target?, pure_eq_ok, map_ok]
  | literal ht => simp only [Task.run, parsePrimary, ht, pure_eq_ok, map_ok]
  | name ht => simp only [Task.run, parsePrimary, ht, pure_eq_ok, map_ok]
  | group ht hinner hclosing ihinner =>
    obtain ⟨_, hinner'⟩ := parseLevel_of_run ihinner
    simp only [Task.run, parsePrimary, ht, hinner', hclosing, if_true, ok_bind, pure_eq_ok, map_ok]
  | list ht helems ihelems =>
    obtain ⟨_, helems'⟩ := parseArguments_of_run ihelems
    simp only [Task.run, parsePrimary, ht, helems', ok_bind, pure_eq_ok, map_ok]
  | object ht hentries ihentries =>
    obtain ⟨_, hentries'⟩ := parsed_of_run Phrase.entries.inj ihentries
    simp only [Task.run, parsePrimary, ht, hentries', ok_bind, pure_eq_ok, map_ok]
  | noElements ht => simp only [Task.run, parseElements, ht, if_true, pure_eq_ok, map_ok]
  | element ht helem hcomma helems ihelem ihelems =>
    obtain ⟨_, helem'⟩ := parseLevel_of_run ihelem
    obtain ⟨_, helems'⟩ := parsed_of_run Phrase.elements.inj ihelems
    simp only [Task.run, parseElements, if_neg ht, helem', hcomma, if_true, helems', ok_bind,
      pure_eq_ok, map_ok]
  | lastElement ht helem hcomma hclosing ihelem =>
    obtain ⟨_, helem'⟩ := parseLevel_of_run ihelem
    simp only [Task.run, parseElements, if_neg ht, helem', if_neg hcomma, if_pos hclosing, ok_bind,
      pure_eq_ok, map_ok]
  | noEntries ht =>
    unfold Task.run parseEntries
    simp only [ht, if_true, pure_eq_ok, map_ok]
  | @entry t colon comma ts mid rest key value entries hkey hcolon hvalue hcomma hentries ihvalue
      ihentries =>
    obtain ⟨_, hvalue'⟩ := parseLevel_of_run ihvalue
    obtain ⟨_, hentries'⟩ := parsed_of_run Phrase.entries.inj ihentries
    have ht : t.kind ≠ .rightBrace := by
      intro heq
      rw [key?, heq] at hkey
      cases hkey
    simp only [Task.run, parseEntries, if_neg ht, hkey, hcolon, if_true, hvalue', hcomma, hentries',
      ok_bind, pure_eq_ok, map_ok]
  | @lastEntry t colon closing ts rest key value hkey hcolon hvalue hclosing ihvalue =>
    obtain ⟨_, hvalue'⟩ := parseLevel_of_run ihvalue
    have ht : t.kind ≠ .rightBrace := by
      intro heq
      rw [key?, heq] at hkey
      cases hkey
    have hcomma : closing.kind ≠ .comma := by
      rw [hclosing]
      decide
    simp only [Task.run, parseEntries, if_neg ht, hkey, hcolon, if_true, hvalue', if_neg hcomma,
      if_pos hclosing, ok_bind, pure_eq_ok, map_ok]

/-- The tokens that stand for an expression are those that it is read from at the lowest level. -/
theorem ofTokens_eq_some_iff {ts : List Token} {e : Expr} :
    ofTokens ts = .ok (some e) ↔ Reads (.level Level.lowest) ts (.expr e) [] := by
  cases ts with
  | nil =>
    constructor
    · intro h
      cases h
    · rintro (⟨hfirst, -⟩)
      cases hfirst
  | cons t ts =>
    rw [ofTokens]
    constructor
    · intro h
      obtain ⟨⟨e', rest, hlt⟩, hwhole, h⟩ := bind_eq_ok.mp h
      cases rest with
      | nil =>
        cases h
        exact reads_of_run (map_eq_ok.mpr ⟨_, hwhole, rfl⟩)
      | cons extra rest => cases h
    · intro h
      obtain ⟨hlt, hwhole⟩ := parseLevel_of_run h.run_eq
      rw [hwhole]
      rfl

end Expr

end ExprLang
