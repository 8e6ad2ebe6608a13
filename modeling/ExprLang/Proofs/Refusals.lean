import ExprLang.Proofs.Grammar

/-!
# How reading fails

A reader fails in one of two ways: it refuses the tokens itself, or a reader that it goes on with
fails. `Expr.Demands` says what a reader goes on with, and after which readings; `Expr.Refuses`
lists the refusals. By `Expr.fails_of_run` every failure is a chain of demands that ends in a
refusal, so that what holds of all failures is shown by one step along the chain.
-/

namespace ExprLang.Expr

/-- What the reader of a task goes on with: another task, and the tokens it is given. -/
inductive Demands : Task → List Token → Task → List Token → Prop
  | first {n : Nat} {ts : List Token} : Demands (.level n) ts .unary ts
  | operators {n : Nat} {ts mid : List Token} {first : Expr}
    (hfirst : Reads .unary ts (.expr first) mid) :
    Demands (.level n) ts (.operators n first) mid
  -- operators after an operand
  | afterTerminator {n : Nat} {left : Expr} {t : Token} {ts : List Token}
    (ht : t.kind = .binary .sequence) :
    Demands (.operators n left) (t :: ts) (.operators n left) ts
  | right {n : Nat} {op : BinaryOp} {left : Expr} {t : Token} {ts : List Token}
    (ht : t.kind = .binary op) : Demands (.operators n left) (t :: ts) (.level op.rightLevel) ts
  | afterRight {n : Nat} {op : BinaryOp} {left right : Expr} {t : Token} {ts mid : List Token}
    (ht : t.kind = .binary op) (hright : Reads (.level op.rightLevel) ts (.expr right) mid) :
    Demands (.operators n left) (t :: ts) (.operators n (.binary op left right t.pos)) mid
  | value {n : Nat} {op : AssignOp} {target : Target} {t : Token} {ts : List Token}
    (ht : t.kind = .assign op) :
    Demands (.operators n (.ref target)) (t :: ts) (.level Level.assignment) ts
  | afterValue {n : Nat} {op : AssignOp} {target : Target} {value : Expr} {t : Token}
    {ts mid : List Token} (ht : t.kind = .assign op)
    (hvalue : Reads (.level Level.assignment) ts (.expr value) mid) :
    Demands (.operators n (.ref target)) (t :: ts)
      (.operators n (.assign op target value t.pos)) mid
  | ifTrue {n : Nat} {left : Expr} {t : Token} {ts : List Token} (ht : t.kind = .question) :
    Demands (.operators n left) (t :: ts) (.level Level.assignment) ts
  | ifFalse {n : Nat} {left ifTrue : Expr} {t colon : Token} {ts mid : List Token}
    (ht : t.kind = .question)
    (htrue : Reads (.level Level.assignment) ts (.expr ifTrue) (colon :: mid))
    (hcolon : colon.kind = .colon) :
    Demands (.operators n left) (t :: ts) (.level Level.conditional) mid
  | afterConditional {n : Nat} {left ifTrue ifFalse : Expr} {t colon : Token}
    {ts mid mid' : List Token} (ht : t.kind = .question)
    (htrue : Reads (.level Level.assignment) ts (.expr ifTrue) (colon :: mid))
    (hfalse : Reads (.level Level.conditional) mid (.expr ifFalse) mid') :
    Demands (.operators n left) (t :: ts)
      (.operators n (.conditional left ifTrue ifFalse t.pos)) mid'
  -- operators in front of an operand
  | unaryOperand {op : UnaryOp} {t : Token} {ts : List Token} (ht : unaryOp? t.kind = some op) :
    Demands .unary (t :: ts) (.level Level.power) ts
  | stepOperand {op : StepOp} {t : Token} {ts : List Token} (ht : t.kind = .step op) :
    Demands .unary (t :: ts) .suffixed ts
  | operand {t : Token} {ts : List Token} : Demands .unary (t :: ts) .suffixed (t :: ts)
  -- what is attached to a primary expression
  | base {ts : List Token} : Demands .suffixed ts .primary ts
  | suffixes {ts mid : List Token} {base : Expr} (hbase : Reads .primary ts (.expr base) mid) :
    Demands .suffixed ts (.suffixes ts base) mid
  | arguments {origin : List Token} {callee : Target} {t next : Token} {ts : List Token}
    (ht : t.kind = .leftParen) :
    Demands (.suffixes origin (.ref callee)) (t :: next :: ts) (.elements .rightParen) (next :: ts)
  | afterCall {origin : List Token} {callee : Target} {args : List Expr} {t : Token}
    {ts mid : List Token} (ht : t.kind = .leftParen)
    (hargs : Reads (.elements .rightParen) ts (.elements args) mid) :
    Demands (.suffixes origin (.ref callee)) (t :: ts) (.suffixes origin (.call callee args
      (Token.joined (origin.take (origin.length - mid.length)))
      ((origin.head?.map Token.pos).getD t.pos))) mid
  | index {origin : List Token} {base : Expr} {t : Token} {ts : List Token}
    (ht : t.kind = .leftBracket) :
    Demands (.suffixes origin base) (t :: ts) (.level Level.lowest) ts
  | afterIndex {origin : List Token} {base index : Expr} {t closing : Token} {ts mid : List Token}
    (ht : t.kind = .leftBracket)
    (hindex : Reads (.level Level.lowest) ts (.expr index) (closing :: mid))
    (hclosing : closing.kind = .rightBracket) :
    Demands (.suffixes origin base) (t :: ts)
      (.suffixes origin (.ref (.index base index t.pos))) mid
  | afterMember {origin : List Token} {base : Expr} {t name : Token} {ts : List Token}
    (ht : t.kind = .dot) (hname : name.kind = .identifier) :
    Demands (.suffixes origin base) (t :: name :: ts)
      (.suffixes origin (.ref (.member base name.lexeme t.pos))) ts
  -- primary expressions
  | group {t : Token} {ts : List Token} (ht : t.kind = .leftParen) :
    Demands .primary (t :: ts) (.level Level.lowest) ts
  | list {t next : Token} {ts : List Token} (ht : t.kind = .leftBracket) :
    Demands .primary (t :: next :: ts) (.elements .rightBracket) (next :: ts)
  | object {t : Token} {ts : List Token} (ht : t.kind = .leftBrace) :
    Demands .primary (t :: ts) .entries ts
  -- what stands between brackets
  | element {closer : Token.Kind} {t : Token} {ts : List Token} :
    Demands (.elements closer) (t :: ts) (.level Level.lowest) (t :: ts)
  | moreElements {closer : Token.Kind} {comma : Token} {ts mid : List Token} {elem : Expr}
    (helem : Reads (.level Level.lowest) ts (.expr elem) (comma :: mid))
    (hcomma : comma.kind = .comma) : Demands (.elements closer) ts (.elements closer) mid
  | entryValue {t colon : Token} {ts : List Token} (hcolon : colon.kind = .colon) :
    Demands .entries (t :: colon :: ts) (.level Level.lowest) ts
  | moreEntries {t colon comma : Token} {ts mid : List Token} {value : Expr}
    (hvalue : Reads (.level Level.lowest) ts (.expr value) (comma :: mid))
    (hcomma : comma.kind = .comma) : Demands .entries (t :: colon :: ts) .entries mid

/-- Where the reader of a task needs a token to go on: the tokens that are left there. -/
inductive Awaits : Task → List Token → List Token → Prop
  | operand {ts : List Token} : Awaits .unary ts ts
  | primary {ts : List Token} : Awaits .primary ts ts
  | elements {closer : Token.Kind} {ts : List Token} : Awaits (.elements closer) ts ts
  | entries {ts : List Token} : Awaits .entries ts ts
  | colon {n : Nat} {left ifTrue : Expr} {t : Token} {ts mid : List Token}
    (ht : t.kind = .question) (htrue : Reads (.level Level.assignment) ts (.expr ifTrue) mid) :
    Awaits (.operators n left) (t :: ts) mid
  | indexEnd {origin : List Token} {base index : Expr} {t : Token} {ts mid : List Token}
    (ht : t.kind = .leftBracket) (hindex : Reads (.level Level.lowest) ts (.expr index) mid) :
    Awaits (.suffixes origin base) (t :: ts) mid
  | memberName {origin : List Token} {base : Expr} {t : Token} {ts : List Token}
    (ht : t.kind = .dot) : Awaits (.suffixes origin base) (t :: ts) ts
  | groupEnd {t : Token} {ts mid : List Token} {inner : Expr} (ht : t.kind = .leftParen)
    (hinner : Reads (.level Level.lowest) ts (.expr inner) mid) : Awaits .primary (t :: ts) mid
  | elementEnd {closer : Token.Kind} {ts mid : List Token} {elem : Expr}
    (helem : Reads (.level Level.lowest) ts (.expr elem) mid) : Awaits (.elements closer) ts mid
  | keyColon {t : Token} {ts : List Token} {key : String} (hkey : key? t = .ok key) :
    Awaits .entries (t :: ts) ts
  | entryEnd {t colon : Token} {ts mid : List Token} {value : Expr}
    (hvalue : Reads (.level Level.lowest) ts (.expr value) mid) :
    Awaits .entries (t :: colon :: ts) mid

/-- How the reader of a task refuses its tokens itself. -/
inductive Refuses : Task → List Token → ParseError → Prop
  | ended {task : Task} {ts : List Token} (h : Awaits task ts []) : Refuses task ts .ended
  | unexpected {task : Task} {ts rest : List Token} {t : Token} (h : Awaits task ts (t :: rest)) :
    Refuses task ts (.unexpected t)
  | key {t : Token} {ts : List Token} {e : ParseError} (h : key? t = .error e) :
    Refuses .entries (t :: ts) e
  | assignTarget {n : Nat} {op : AssignOp} {left : Expr} {t : Token} {ts : List Token}
    (ht : t.kind = .assign op) (hleft : left.target? = none) :
    Refuses (.operators n left) (t :: ts) (.invalidTarget t left)
  | stepTarget {op : StepOp} {operand : Expr} {t : Token} {ts : List Token}
    (ht : t.kind = .step op) (hoperand : operand.target? = none) :
    Refuses .unary (t :: ts) (.invalidTarget t operand)
  | stepAfterTarget {origin : List Token} {op : StepOp} {base : Expr} {t : Token} {ts : List Token}
    (ht : t.kind = .step op) (hbase : base.target? = none) :
    Refuses (.suffixes origin base) (t :: ts) (.invalidTarget t base)
  | callee {origin : List Token} {base : Expr} {t : Token} {ts : List Token}
    (ht : t.kind = .leftParen) (hbase : base.target? = none) :
    Refuses (.suffixes origin base) (t :: ts) (.invalidCallee t base)
  | argumentsOpen {origin : List Token} {callee : Target} {t : Token} (ht : t.kind = .leftParen) :
    Refuses (.suffixes origin (.ref callee)) [t] .endedAtOpening
  | listOpen {t : Token} (ht : t.kind = .leftBracket) : Refuses .primary [t] .endedAtOpening

/-- A task fails if it refuses its tokens, or if a task fails that it goes on with. -/
inductive Fails : Task → List Token → ParseError → Prop
  | refuses {task : Task} {ts : List Token} {e : ParseError} (h : Refuses task ts e) :
    Fails task ts e
  | demands {task task' : Task} {ts ts' : List Token} {e : ParseError}
    (hdemands : Demands task ts task' ts') (hfails : Fails task' ts' e) : Fails task ts e

/-- What a task goes on with is the end of its tokens. -/
theorem Demands.isSuffix {task task' : Task} {ts ts' : List Token} (h : Demands task ts task' ts') :
    ts' <:+ ts := by
  cases h with
  | first | operand | base | element => exact List.suffix_refl _
  | operators hread | suffixes hread => exact hread.isSuffix
  | afterTerminator | right | value | ifTrue | unaryOperand | stepOperand | arguments | index
  | group | list | object => exact List.suffix_cons _ _
  | afterRight _ hread | afterValue _ hread | afterCall _ hread =>
    exact hread.isSuffix.trans (List.suffix_cons _ _)
  | ifFalse _ hread | afterIndex _ hread =>
    exact (isSuffix_after hread.isSuffix).trans (List.suffix_cons _ _)
  | afterConditional _ htrue hfalse =>
    exact (hfalse.isSuffix.trans (isSuffix_after htrue.isSuffix)).trans (List.suffix_cons _ _)
  | afterMember | entryValue => exact (List.suffix_cons _ _).trans (List.suffix_cons _ _)
  | moreElements hread => exact isSuffix_after hread.isSuffix
  | moreEntries hread =>
    exact ((isSuffix_after hread.isSuffix).trans (List.suffix_cons _ _)).trans
      (List.suffix_cons _ _)

theorem Awaits.isSuffix {task : Task} {ts rest : List Token} (h : Awaits task ts rest) :
    rest <:+ ts := by
  cases h with
  | operand | primary | elements | entries => exact List.suffix_refl _
  | colon _ hread | indexEnd _ hread | groupEnd _ hread =>
    exact hread.isSuffix.trans (List.suffix_cons _ _)
  | memberName | keyColon => exact List.suffix_cons _ _
  | elementEnd hread => exact hread.isSuffix
  | entryEnd hread =>
    exact (hread.isSuffix.trans (List.suffix_cons _ _)).trans (List.suffix_cons _ _)

/-! ## The readers fail by the rules -/

theorem reads_level {n : Nat} {ts : List Token} {r : Parsed Expr ts} (h : parseLevel n ts = .ok r) :
    Reads (.level n) ts (.expr r.value) r.rest :=
  reads_of_run (map_eq_ok.mpr ⟨r, h, rfl⟩)

/-- The readers fail by the rules on tasks that weigh less than a bound. -/
def FailsBelow (bound : Nat) : Prop :=
  ∀ task ts e, task.weight ts < bound → task.run ts = .error e → Fails task ts e

namespace FailsBelow

variable {bound : Nat} (ih : FailsBelow bound) {ts : List Token} {e : ParseError}
include ih

theorem level {n : Nat} (h : parseLevel n ts = .error e) (hw : 8 * ts.length + 5 < bound) :
    Fails (.level n) ts e :=
  ih (.level n) ts e hw (map_eq_error.mpr h)

theorem operators {n : Nat} {left : Expr} (h : parseOperators n left ts = .error e)
    (hw : 8 * ts.length + 4 < bound) : Fails (.operators n left) ts e :=
  ih (.operators n left) ts e hw (map_eq_error.mpr h)

theorem suffixed (h : parseSuffixed ts = .error e) (hw : 8 * ts.length + 2 < bound) :
    Fails .suffixed ts e :=
  ih .suffixed ts e hw (map_eq_error.mpr h)

theorem suffixes {origin : List Token} {base : Expr} (h : parseSuffixes origin base ts = .error e)
    (hw : 8 * ts.length + 1 < bound) : Fails (.suffixes origin base) ts e :=
  ih (.suffixes origin base) ts e hw (map_eq_error.mpr h)

theorem elements {closer : Token.Kind} (h : parseElements closer ts = .error e)
    (hw : 8 * ts.length + 6 < bound) : Fails (.elements closer) ts e :=
  ih (.elements closer) ts e hw (map_eq_error.mpr h)

theorem entries (h : parseEntries ts = .error e) (hw : 8 * ts.length + 6 < bound) :
    Fails .entries ts e :=
  ih .entries ts e hw (map_eq_error.mpr h)

end FailsBelow

theorem fails_of_parseLevel {n : Nat} {ts : List Token} {e : ParseError}
    (ih : FailsBelow (8 * ts.length + 5)) (h : parseLevel n ts = .error e) :
    Fails (.level n) ts e := by
  rw [parseLevel] at h
  rcases bind_eq_error.mp h with h | ⟨first, hfirst, h⟩
  · exact .demands .first (ih .unary ts e (by simp only [Task.weight]; omega) (map_eq_error.mpr h))
  · have hread : Reads .unary ts (.expr first.value) first.rest :=
      reads_of_run (map_eq_ok.mpr ⟨first, hfirst, rfl⟩)
    have hshorter := first.shorter
    rcases bind_eq_error.mp h with h | ⟨whole, hwhole, h⟩
    · exact .demands (.operators hread) (ih.operators h (by omega))
    · cases h

theorem fails_of_parseOperators {n : Nat} {left : Expr} {ts : List Token} {e : ParseError}
    (ih : FailsBelow (8 * ts.length + 4)) (h : parseOperators n left ts = .error e) :
    Fails (.operators n left) ts e := by
  cases ts with
  | nil => rw [parseOperators] at h; cases h
  | cons t ts =>
    rw [parseOperators] at h
    simp only [List.length_cons] at ih
    split at h
    · cases h
    · next found hlevel =>
      split at h
      · cases h
      · split at h
        · next hkind =>
          split at h
          · rcases bind_eq_error.mp h with h | ⟨right, hright, h⟩
            · exact .demands (.right hkind) (ih.level h (by omega))
            · have hshorter := right.shorter
              rcases bind_eq_error.mp h with h | ⟨whole, hwhole, h⟩
              · exact .demands (.afterRight hkind (reads_level hright)) (ih.operators h (by omega))
              · cases h
          · rcases bind_eq_error.mp h with h | ⟨whole, hwhole, h⟩
            · exact .demands (.afterTerminator hkind) (ih.operators h (by omega))
            · cases h
        · next operator hne hkind =>
          rcases bind_eq_error.mp h with h | ⟨right, hright, h⟩
          · exact .demands (.right hkind) (ih.level h (by omega))
          · have hshorter := right.shorter
            rcases bind_eq_error.mp h with h | ⟨whole, hwhole, h⟩
            · exact .demands (.afterRight hkind (reads_level hright)) (ih.operators h (by omega))
            · cases h
        · next operator hkind =>
          split at h
          · next htarget =>
            cases h
            exact .refuses (.assignTarget hkind htarget)
          · next target htarget =>
            rw [eq_ref_of_target? htarget]
            rcases bind_eq_error.mp h with h | ⟨value, hvalue, h⟩
            · exact .demands (.value hkind) (ih.level h (by omega))
            · have hshorter := value.shorter
              rcases bind_eq_error.mp h with h | ⟨whole, hwhole, h⟩
              · exact .demands (.afterValue hkind (reads_level hvalue))
                  (ih.operators h (by omega))
              · cases h
        · next hkind =>
          rcases bind_eq_error.mp h with h | ⟨ifTrue, htrue, h⟩
          · exact .demands (.ifTrue hkind) (ih.level h (by omega))
          · have hread := reads_level htrue
            have hshorter := ifTrue.shorter
            split at h
            · next hrest =>
              cases h
              rw [hrest] at hread
              exact .refuses (.ended (.colon hkind hread))
            · next colon afterColon hrest =>
              rw [hrest] at hread hshorter
              simp only [List.length_cons] at hshorter
              split at h
              · next hcolon =>
                rcases bind_eq_error.mp h with h | ⟨ifFalse, hfalse, h⟩
                · exact .demands (.ifFalse hkind hread hcolon) (ih.level h (by omega))
                · have hshorter' := ifFalse.shorter
                  rcases bind_eq_error.mp h with h | ⟨whole, hwhole, h⟩
                  · exact .demands (.afterConditional hkind hread (reads_level hfalse))
                      (ih.operators h (by omega))
                  · cases h
              · cases h
                exact .refuses (.unexpected (.colon hkind hread))
        · next hsequence hbinary hassign hquestion =>
          -- only those kinds have a level
          unfold Token.Kind.level? at hlevel
          split at hlevel
          · next hkind => exact absurd hkind (hbinary _)
          · next hkind => exact absurd hkind (hassign _)
          · next hkind => exact absurd hkind hquestion
          · cases hlevel

theorem fails_of_parseUnary {ts : List Token} {e : ParseError}
    (ih : FailsBelow (8 * ts.length + 3)) (h : parseUnary ts = .error e) : Fails .unary ts e := by
  cases ts with
  | nil =>
    rw [parseUnary] at h
    cases h
    exact .refuses (.ended .operand)
  | cons t ts =>
    rw [parseUnary] at h
    simp only [List.length_cons] at ih
    split at h
    · next op hop =>
      rcases bind_eq_error.mp h with h | ⟨operand, hoperand, h⟩
      · exact .demands (.unaryOperand hop) (ih.level h (by omega))
      · cases h
    · split at h
      · next op hkind =>
        rcases bind_eq_error.mp h with h | ⟨operand, hoperand, h⟩
        · exact .demands (.stepOperand hkind) (ih.suffixed h (by omega))
        · split at h
          · next htarget =>
            cases h
            exact .refuses (.stepTarget hkind htarget)
          · cases h
      · exact .demands .operand (ih.suffixed h (by simp only [List.length_cons]; omega))

theorem fails_of_parseSuffixed {ts : List Token} {e : ParseError}
    (ih : FailsBelow (8 * ts.length + 2)) (h : parseSuffixed ts = .error e) :
    Fails .suffixed ts e := by
  rw [parseSuffixed] at h
  rcases bind_eq_error.mp h with h | ⟨first, hfirst, h⟩
  · exact .demands .base (ih .primary ts e (by simp only [Task.weight]; omega) (map_eq_error.mpr h))
  · have hread : Reads .primary ts (.expr first.value) first.rest :=
      reads_of_run (map_eq_ok.mpr ⟨first, hfirst, rfl⟩)
    have hshorter := first.shorter
    rcases bind_eq_error.mp h with h | ⟨whole, hwhole, h⟩
    · exact .demands (.suffixes hread) (ih.suffixes h (by omega))
    · cases h

theorem reads_arguments {closer : Token.Kind} {ts : List Token} {r : Parsed (List Expr) ts}
    (h : parseArguments closer ts = .ok r) :
    Reads (.elements closer) ts (.elements r.value) r.rest := by
  cases ts with
  | nil => rw [parseArguments] at h; cases h
  | cons t ts =>
    rw [parseArguments] at h
    exact reads_of_run (map_eq_ok.mpr ⟨r, h, rfl⟩)

theorem fails_of_parseSuffixes {origin : List Token} {base : Expr} {ts : List Token}
    {e : ParseError} (ih : FailsBelow (8 * ts.length + 1))
    (h : parseSuffixes origin base ts = .error e) : Fails (.suffixes origin base) ts e := by
  cases ts with
  | nil => rw [parseSuffixes] at h; cases h
  | cons t ts =>
    unfold parseSuffixes at h
    simp only [List.length_cons] at ih
    split at h
    · next hkind =>
      split at h
      · next hcallee =>
        cases h
        exact .refuses (.callee hkind hcallee)
      · next callee hcallee =>
        rw [eq_ref_of_target? hcallee]
        rcases bind_eq_error.mp h with h | ⟨args, hargs, h⟩
        · cases ts with
          | nil =>
            rw [parseArguments] at h
            cases h
            exact .refuses (.argumentsOpen hkind)
          | cons next ts =>
            rw [parseArguments] at h
            exact .demands (.arguments hkind) (ih.elements h (by omega))
        · have hshorter := args.shorter
          rcases bind_eq_error.mp h with h | ⟨whole, hwhole, h⟩
          · exact .demands (.afterCall hkind (reads_arguments hargs)) (ih.suffixes h (by omega))
          · cases h
    · next hkind =>
      rcases bind_eq_error.mp h with h | ⟨index, hindex, h⟩
      · exact .demands (.index hkind) (ih.level h (by omega))
      · have hread := reads_level hindex
        have hshorter := index.shorter
        split at h
        · next hrest =>
          cases h
          rw [hrest] at hread
          exact .refuses (.ended (.indexEnd hkind hread))
        · next closing afterIndex hrest =>
          rw [hrest] at hread hshorter
          simp only [List.length_cons] at hshorter
          split at h
          · next hclosing =>
            rcases bind_eq_error.mp h with h | ⟨whole, hwhole, h⟩
            · exact .demands (.afterIndex hkind hread hclosing) (ih.suffixes h (by omega))
            · cases h
          · cases h
            exact .refuses (.unexpected (.indexEnd hkind hread))
    · next hkind =>
      split at h
      · cases h
        exact .refuses (.ended (.memberName hkind))
      · next name afterName =>
        simp only [List.length_cons] at ih
        split at h
        · next hname =>
          rcases bind_eq_error.mp h with h | ⟨whole, hwhole, h⟩
          · exact .demands (.afterMember hkind hname) (ih.suffixes h (by omega))
          · cases h
        · cases h
          exact .refuses (.unexpected (.memberName hkind))
    · next op hkind =>
      split at h
      · next htarget =>
        cases h
        exact .refuses (.stepAfterTarget hkind htarget)
      · cases h
    · cases h

theorem fails_of_parsePrimary {ts : List Token} {e : ParseError}
    (ih : FailsBelow (8 * ts.length + 1)) (h : parsePrimary ts = .error e) :
    Fails .primary ts e := by
  cases ts with
  | nil =>
    rw [parsePrimary] at h
    cases h
    exact .refuses (.ended .primary)
  | cons t ts =>
    rw [parsePrimary] at h
    simp only [List.length_cons] at ih
    split at h
    · cases h
    · cases h
    · next hkind =>
      rcases bind_eq_error.mp h with h | ⟨inner, hinner, h⟩
      · exact .demands (.group hkind) (ih.level h (by omega))
      · have hread := reads_level hinner
        split at h
        · next hrest =>
          cases h
          rw [hrest] at hread
          exact .refuses (.ended (.groupEnd hkind hread))
        · next closing afterGroup hrest =>
          rw [hrest] at hread
          split at h
          · cases h
          · cases h
            exact .refuses (.unexpected (.groupEnd hkind hread))
    · next hkind =>
      rcases bind_eq_error.mp h with h | ⟨elems, helems, h⟩
      · cases ts with
        | nil =>
          rw [parseArguments] at h
          cases h
          exact .refuses (.listOpen hkind)
        | cons next ts =>
          rw [parseArguments] at h
          exact .demands (.list hkind) (ih.elements h (by omega))
      · cases h
    · next hkind =>
      rcases bind_eq_error.mp h with h | ⟨entries, hentries, h⟩
      · exact .demands (.object hkind) (ih.entries h (by omega))
      · cases h
    · cases h
      exact .refuses (.unexpected .primary)

theorem fails_of_parseElements {closer : Token.Kind} {ts : List Token} {e : ParseError}
    (ih : FailsBelow (8 * ts.length + 6)) (h : parseElements closer ts = .error e) :
    Fails (.elements closer) ts e := by
  cases ts with
  | nil =>
    rw [parseElements] at h
    cases h
    exact .refuses (.ended .elements)
  | cons t ts =>
    rw [parseElements] at h
    split at h
    · cases h
    · rcases bind_eq_error.mp h with h | ⟨elem, helem, h⟩
      · exact .demands .element (ih.level h (by omega))
      · have hread := reads_level helem
        have hshorter := elem.shorter
        split at h
        · next hrest =>
          cases h
          rw [hrest] at hread
          exact .refuses (.ended (.elementEnd hread))
        · next after others hrest =>
          rw [hrest] at hread hshorter
          simp only [List.length_cons] at hshorter ih
          split at h
          · next hcomma =>
            rcases bind_eq_error.mp h with h | ⟨elems, helems, h⟩
            · exact .demands (.moreElements hread hcomma) (ih.elements h (by omega))
            · cases h
          · split at h
            · cases h
            · cases h
              exact .refuses (.unexpected (.elementEnd hread))

theorem fails_of_parseEntries {ts : List Token} {e : ParseError}
    (ih : FailsBelow (8 * ts.length + 6)) (h : parseEntries ts = .error e) :
    Fails .entries ts e := by
  cases ts with
  | nil =>
    unfold parseEntries at h
    cases h
    exact .refuses (.ended .entries)
  | cons t ts =>
    unfold parseEntries at h
    split at h
    · cases h
    · rcases bind_eq_error.mp h with h | ⟨key, hkey, h⟩
      · exact .refuses (.key h)
      · split at h
        · cases h
          exact .refuses (.ended (.keyColon hkey))
        · next colon afterColon =>
          simp only [List.length_cons] at ih
          split at h
          · next hcolon =>
            rcases bind_eq_error.mp h with h | ⟨value, hvalue, h⟩
            · exact .demands (.entryValue hcolon) (ih.level h (by omega))
            · have hread := reads_level hvalue
              have hshorter := value.shorter
              split at h
              · next hrest =>
                cases h
                rw [hrest] at hread
                exact .refuses (.ended (.entryEnd hread))
              · next after others hrest =>
                rw [hrest] at hread hshorter
                simp only [List.length_cons] at hshorter
                split at h
                · next hcomma =>
                  rcases bind_eq_error.mp h with h | ⟨entries, hentries, h⟩
                  · exact .demands (.moreEntries hread hcomma) (ih.entries h (by omega))
                  · cases h
                · split at h
                  · cases h
                  · cases h
                    exact .refuses (.unexpected (.entryEnd hread))
          · cases h
            exact .refuses (.unexpected (.keyColon hkey))

/-- Wherever a reader fails, it fails by the rules. -/
theorem fails_of_run {task : Task} {ts : List Token} {e : ParseError}
    (h : task.run ts = .error e) : Fails task ts e := by
  have hall : ∀ bound, FailsBelow bound := by
    intro bound
    induction bound with
    | zero =>
      intro task ts e hw
      cases hw
    | succ bound ih =>
      intro task ts e hw h
      have ih' : FailsBelow (task.weight ts) := fun task' ts' e' hw' =>
        ih task' ts' e' (Nat.lt_of_lt_of_le hw' (Nat.le_of_lt_succ hw))
      cases task with
      | level n => exact fails_of_parseLevel ih' (map_eq_error.mp h)
      | operators n left => exact fails_of_parseOperators ih' (map_eq_error.mp h)
      | unary => exact fails_of_parseUnary ih' (map_eq_error.mp h)
      | suffixed => exact fails_of_parseSuffixed ih' (map_eq_error.mp h)
      | suffixes origin base => exact fails_of_parseSuffixes ih' (map_eq_error.mp h)
      | primary => exact fails_of_parsePrimary ih' (map_eq_error.mp h)
      | elements closer => exact fails_of_parseElements ih' (map_eq_error.mp h)
      | entries => exact fails_of_parseEntries ih' (map_eq_error.mp h)
  exact hall _ task ts e (Nat.lt_succ_self _) h

end ExprLang.Expr
