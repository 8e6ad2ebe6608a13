import ExprLang.Proofs.Grammar

/-!
# Terminators

A `;` after the last expression of a program ends it and adds nothing (`Expr.ofTokens_terminated`).
Every reader that is still at work where the tokens ended sees the first `;` as what comes next.
Those that read operators of the level of `;` pass over all of them, and the others leave all of
them to the readers around.
-/

namespace ExprLang

/-- Tokens that are all `;`. -/
def Token.AreTerminators (ts : List Token) : Prop := ∀ t ∈ ts, t.kind = .binary .sequence

namespace Expr

/-- What is left by a reader of operators of a level that left `rest`, if terminators `more` come
    after the tokens. -/
def leftOver (more : List Token) (n : Nat) : List Token → List Token
  | [] => if n ≤ Level.sequence then [] else more
  | t :: rest => t :: rest ++ more

/-- What a task leaves. Those that read no operators take nothing more. -/
def Task.leavesOf (more : List Token) : Task → List Token → List Token
  | .level n, rest | .operators n _, rest => leftOver more n rest
  | _, rest => rest ++ more

/-- The task when terminators come after the tokens it has to do with. -/
def Task.before (more : List Token) : Task → Task
  | .suffixes origin base => .suffixes (origin ++ more) base
  | task => task

/-- A task that goes on after a primary expression has the tokens of that expression. -/
def Task.Started : Task → Prop
  | .suffixes origin _ => origin ≠ []
  | _ => True

/-- Operands of operators are read above the level of `;`. -/
theorem leavesOf_level {n : Nat} (hn : Level.sequence < n) (more rest : List Token) :
    (Task.level n).leavesOf more rest = rest ++ more := by
  cases rest with
  | nil => exact if_neg (Nat.not_le.mpr hn)
  | cons t rest => rfl

theorem lt_rightLevel (op : BinaryOp) : Level.sequence < op.rightLevel := by
  cases op with
  | arith op => cases op <;> decide
  | order op => cases op <;> decide
  | equality op => cases op <;> decide
  | logic op => cases op <;> decide
  | sequence => decide

/-- Where there are tokens, there is an expression or a failure. -/
theorem ofTokens_ne_none {ts : List Token} (hne : ts ≠ []) : ofTokens ts ≠ .ok none := by
  obtain ⟨t, ts, rfl⟩ := List.exists_cons_of_ne_nil hne
  intro h
  rw [ofTokens] at h
  obtain ⟨⟨e, rest, hlt⟩, -, hend⟩ := bind_eq_ok.mp h
  cases rest with
  | nil => cases hend
  | cons extra rest => cases hend

section Terminated

variable {more : List Token} (hmore : Token.AreTerminators more)
include hmore

theorem begins_terminators : Token.begins more = false := by
  cases more with
  | nil => rfl
  | cons t more =>
    show t.kind.startsExpression = false
    rw [hmore t List.mem_cons_self]
    rfl

theorem begins_append_terminators (ts : List Token) :
    Token.begins (ts ++ more) = Token.begins ts := by
  cases ts with
  | nil => exact begins_terminators hmore
  | cons t ts => rfl

/-- After an operand, terminators are passed over one by one, or left where they are. -/
theorem reads_terminators (n : Nat) (left : Expr) :
    Reads (.operators n left) more (.expr left) (leftOver more n []) := by
  show Reads _ _ _ (if n ≤ Level.sequence then [] else more)
  split
  · next hn =>
    induction more with
    | nil => exact .ended
    | cons t more ih =>
      obtain ⟨ht, hrest⟩ := List.forall_mem_cons.mp hmore
      exact .terminator ht hn (begins_terminators hrest) (ih hrest)
  · next hn =>
    cases more with
    | nil => exact .ended
    | cons t more =>
      refine .stops fun found hfound => ?_
      rw [hmore t List.mem_cons_self] at hfound
      cases hfound
      exact Nat.not_le.mp hn

theorem reads_unattached (origin : List Token) (base : Expr) :
    Reads (.suffixes origin base) more (.expr base) more := by
  cases more with
  | nil => exact .unattached
  | cons t more =>
    apply Reads.detached
    rw [hmore t List.mem_cons_self]
    rfl

/-- What is read does not change when terminators come after the tokens. -/
theorem Reads.terminated {task : Task} {ts : List Token} {p : Phrase} {rest : List Token}
    (h : Reads task ts p rest) (hstarted : task.Started) :
    Reads (task.before more) (ts ++ more) p (task.leavesOf more rest) := by
  induction h with
  | level _ _ ih ih' => exact .level (ih trivial) (ih' trivial)
  | ended => exact reads_terminators hmore _ _
  | stops ht => exact .stops ht
  | terminator ht hn hts _ ih =>
    exact .terminator ht hn ((begins_append_terminators hmore _).trans hts) (ih trivial)
  | @binary n op _ _ _ _ _ _ _ ht hn hts _ _ ih ih' =>
    have hright := ih trivial
    rw [leavesOf_level (lt_rightLevel op)] at hright
    have hnext := begins_append_terminators hmore
    exact .binary ht hn (fun hop => (hnext _).trans (hts hop)) hright (ih' trivial)
  | assign ht hn _ _ ih ih' =>
    have hvalue := ih trivial
    rw [leavesOf_level (by decide)] at hvalue
    exact .assign ht hn hvalue (ih' trivial)
  | conditional ht hn _ hcolon _ _ ih ih' ih'' =>
    have hfalse := ih' trivial
    rw [leavesOf_level (by decide)] at hfalse
    exact .conditional ht hn (ih trivial) hcolon hfalse (ih'' trivial)
  | unary ht _ ih =>
    have hoperand := ih trivial
    rw [leavesOf_level (by decide)] at hoperand
    exact .unary ht hoperand
  | stepBefore ht _ ih => exact .stepBefore ht (ih trivial)
  | operand ht hstep _ ih => exact .operand ht hstep (ih trivial)
  | @suffixed ts _ _ _ _ hbase _ ih ih' =>
    have hne : ts ≠ [] := by
      rintro rfl
      cases hbase
    exact .suffixed (ih trivial) (ih' hne)
  | unattached => exact reads_unattached hmore _ _
  | detached ht => exact .detached ht
  | @call origin callee args _ t _ mid _ ht _ _ ih ih' =>
    -- the text and the place of a call come from the tokens before the terminators
    have htext : (origin ++ more).take ((origin ++ more).length - (mid ++ more).length) =
        origin.take (origin.length - mid.length) := by
      rw [List.length_append, List.length_append, Nat.add_sub_add_right,
        List.take_append_of_le_length (Nat.sub_le _ _)]
    have hhead : (origin ++ more).head? = origin.head? := by
      obtain ⟨first, origin, rfl⟩ := List.exists_cons_of_ne_nil hstarted
      rfl
    have hargs : Reads (.elements .rightParen) _ (.elements args) (mid ++ more) := ih trivial
    refine .call ht hargs ?_
    rw [htext, hhead]
    exact ih' hstarted
  | index ht _ hclosing _ ih ih' => exact .index ht (ih trivial) hclosing (ih' hstarted)
  | member ht hname _ ih => exact .member ht hname (ih hstarted)
  | stepAfter ht => exact .stepAfter ht
  | literal ht => exact .literal ht
  | name ht => exact .name ht
  | group ht _ hclosing ih => exact .group ht (ih trivial) hclosing
  | list ht _ ih => exact .list ht (ih trivial)
  | object ht _ ih => exact .object ht (ih trivial)
  | noElements ht => exact .noElements ht
  | element ht _ hcomma _ ih ih' => exact .element ht (ih trivial) hcomma (ih' trivial)
  | lastElement ht _ hcomma hclosing ih => exact .lastElement ht (ih trivial) hcomma hclosing
  | noEntries ht => exact .noEntries ht
  | entry hkey hcolon _ hcomma _ ih ih' =>
    exact .entry hkey hcolon (ih trivial) hcomma (ih' trivial)
  | lastEntry hkey hcolon _ hclosing ih => exact .lastEntry hkey hcolon (ih trivial) hclosing

end Terminated

/-- Tokens that are read as an expression are read as the same one if any number of `;` come after
    them. -/
theorem ofTokens_terminated {ts more : List Token} {tree : Option Expr} (hne : ts ≠ [])
    (h : ofTokens ts = .ok tree) (hmore : Token.AreTerminators more) :
    ofTokens (ts ++ more) = .ok tree := by
  cases tree with
  | none => exact absurd h (ofTokens_ne_none hne)
  | some e =>
    rw [ofTokens_eq_some_iff] at h ⊢
    exact h.terminated hmore trivial

/-- The tokens of `f(x; y;)[1]`. -/
def indexedCall : List Token :=
  [⟨.identifier, "f", ⟨1, 1⟩⟩, ⟨.leftParen, "(", ⟨1, 2⟩⟩, ⟨.identifier, "x", ⟨1, 3⟩⟩,
   ⟨.binary .sequence, ";", ⟨1, 4⟩⟩, ⟨.identifier, "y", ⟨1, 6⟩⟩, ⟨.binary .sequence, ";", ⟨1, 7⟩⟩,
   ⟨.rightParen, ")", ⟨1, 8⟩⟩, ⟨.leftBracket, "[", ⟨1, 9⟩⟩, ⟨.literal .int, "1", ⟨1, 10⟩⟩,
   ⟨.rightBracket, "]", ⟨1, 11⟩⟩]

/-- Two terminators on lines of their own. -/
def twoTerminators : List Token :=
  [⟨.binary .sequence, ";", ⟨2, 1⟩⟩, ⟨.binary .sequence, ";", ⟨3, 1⟩⟩]

theorem ofTokens_terminated_call :
    indexedCall ≠ [] ∧ Token.AreTerminators twoTerminators ∧
    ∃ tree, ofTokens indexedCall = .ok tree ∧
      ofTokens (indexedCall ++ twoTerminators) = .ok tree := by
  have hne : indexedCall ≠ [] := List.cons_ne_nil _ _
  have hmore : Token.AreTerminators twoTerminators :=
    List.forall_mem_cons.mpr ⟨rfl, List.forall_mem_singleton.mpr rfl⟩
  have hsome : (ofTokens indexedCall).toOption.isSome = true := by decide +kernel
  cases h : ofTokens indexedCall with
  | error e =>
    rw [h] at hsome
    cases hsome
  | ok tree => exact ⟨hne, hmore, tree, rfl, ofTokens_terminated hne h hmore⟩

end Expr

end ExprLang
