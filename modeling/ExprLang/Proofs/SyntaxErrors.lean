import ExprLang.Eval
import ExprLang.Proofs.Lossless
import ExprLang.Proofs.Nodes
import ExprLang.Proofs.Refusals

/-!
# The places of syntax errors

A text that cannot be compiled fails with a fault that stands at a character of the text, with one
exception: where a text ends right after the opening of a list or of arguments, the fault has no
place. `Engine.compile_failed` says both. Which tokens end in that way is decided by the kinds of
the last two of them (`Token.endsOpening`), since the readers know an operand from what is attached
to one by the token before it (`Expr.Task.Follows`).
-/

namespace ExprLang

/-! ## Openings -/

namespace Token

/-- Whether an operand is due after a token of this kind. -/
def Kind.precedesOperand : Kind → Bool
  | .binary _ | .assign _ | .question | .colon | .comma | .leftParen | .leftBracket
  | .not | .bitNot | .step _ => true
  | _ => false

/-- Whether a token of this kind can be the last one of what can be called. -/
def Kind.endsTarget : Kind → Bool
  | .identifier | .rightBracket => true
  | _ => false

/-- Whether a token of this kind can open a list or arguments. -/
def Kind.mayOpen : Kind → Bool
  | .leftParen | .leftBracket => true
  | _ => false

/-- Whether a token opens a list or arguments, by the token before it: a `[` does where an operand
    is due, and a `(` does behind what can be called. -/
def opens (before : Option Token) (t : Token) : Bool :=
  match t.kind with
  | .leftBracket => before.all fun b => b.kind.precedesOperand
  | .leftParen => before.any fun b => b.kind.endsTarget
  | _ => false

/-- Whether some tokens end right after the opening of a list or of arguments. -/
def endsOpening (ts : List Token) : Bool :=
  ts.getLast?.any (opens ts.dropLast.getLast?)

theorem endsOpening_concat (ts : List Token) (t : Token) :
    endsOpening (ts ++ [t]) = opens ts.getLast? t := by
  simp [endsOpening]

theorem opens_eq_false {before : Option Token} {t : Token} (h : t.kind.mayOpen = false) :
    opens before t = false := by
  unfold opens
  split
  · next hkind => simp [hkind, Kind.mayOpen] at h
  · next hkind => simp [hkind, Kind.mayOpen] at h
  · rfl

theorem opens_leftParen_eq_false {before : Option Token} {t : Token} (ht : t.kind = .leftParen)
    (h : ∀ b ∈ before, b.kind.precedesOperand = true) : opens before t = false := by
  simp only [opens, ht, Option.any_eq_false]
  intro b hb
  have hb' := h b hb
  cases hkind : b.kind <;> simp_all [Kind.precedesOperand, Kind.endsTarget]

theorem opens_leftBracket_eq_false {b t : Token} (ht : t.kind = .leftBracket)
    (hb : b.kind.precedesOperand = false) : opens (some b) t = false := by
  simp [opens, ht, hb]

/-- Tokens that end in one that opens nothing. -/
theorem endsOpening_eq_false {done ts : List Token} {t : Token} (h : [t] <:+ ts)
    (ht : t.kind.mayOpen = false) : endsOpening (done ++ ts) = false := by
  obtain ⟨before, rfl⟩ := h
  rw [← List.append_assoc, endsOpening_concat]
  exact opens_eq_false ht

end Token

open Token (endsOpening endsOpening_concat opens)

namespace Expr

/-! ## What is read ends in no opening -/

/-- Of some tokens the rest is left, and if any are taken, the last of them opens nothing. -/
def LeavesOff (ts rest : List Token) : Prop :=
  rest = ts ∨ ∃ t, t.kind.mayOpen = false ∧ t :: rest <:+ ts

namespace LeavesOff

variable {t : Token} {ts mid rest : List Token}

theorem head (ht : t.kind.mayOpen = false) : LeavesOff (t :: ts) ts :=
  .inr ⟨t, ht, List.suffix_refl _⟩

theorem isSuffix (h : LeavesOff ts rest) : rest <:+ ts := by
  rcases h with rfl | ⟨t, -, h⟩
  · exact List.suffix_refl _
  · exact isSuffix_after h

theorem trans (h : LeavesOff ts mid) (h' : LeavesOff mid rest) : LeavesOff ts rest := by
  rcases h' with rfl | ⟨t, ht, hrest⟩
  · exact h
  · exact .inr ⟨t, ht, hrest.trans h.isSuffix⟩

theorem after (h : t :: rest <:+ ts) (ht : t.kind.mayOpen = false) : LeavesOff ts rest :=
  .inr ⟨t, ht, h⟩

end LeavesOff

/-- How a task leaves off: after the closing token where there is one. -/
def Task.Leaves (ts rest : List Token) : Task → Prop
  | .elements closer => ∃ t, t.kind = closer ∧ t :: rest <:+ ts
  | .entries => ∃ t, t.kind = .rightBrace ∧ t :: rest <:+ ts
  | _ => LeavesOff ts rest

theorem mayOpen_of_unaryOp? {kind : Token.Kind} {op : UnaryOp} (h : unaryOp? kind = some op) :
    kind.precedesOperand = true ∧ kind.mayOpen = false := by
  unfold unaryOp? at h
  split at h
  · exact ⟨rfl, rfl⟩
  · exact ⟨rfl, rfl⟩
  · exact ⟨rfl, rfl⟩
  · exact ⟨rfl, rfl⟩
  · cases h

theorem Reads.leaves {task : Task} {ts : List Token} {p : Phrase} {rest : List Token}
    (h : Reads task ts p rest) : task.Leaves ts rest := by
  induction h with
  | ended | stops | unattached | detached => exact .inl rfl
  | level _ _ ih ih' | suffixed _ _ ih ih' => exact ih.trans ih'
  | terminator ht _ _ _ ih => exact (LeavesOff.head (by rw [ht]; rfl)).trans ih
  | binary ht _ _ _ _ ih ih' | assign ht _ _ _ ih ih' =>
    exact ((LeavesOff.head (by rw [ht]; rfl)).trans ih).trans ih'
  | conditional _ _ htrue hcolon _ _ _ ih ih' =>
    refine LeavesOff.trans (.after (htrue.isSuffix.trans (List.suffix_cons _ _)) ?_) (ih.trans ih')
    rw [hcolon]
    rfl
  | unary ht _ ih => exact (LeavesOff.head (mayOpen_of_unaryOp? ht).2).trans ih
  | stepBefore ht _ ih => exact (LeavesOff.head (by rw [ht]; rfl)).trans ih
  | operand _ _ _ ih => exact ih
  | call _ _ _ ih ih' =>
    obtain ⟨closing, hclosing, hsuffix⟩ := ih
    refine LeavesOff.trans (.after (hsuffix.trans (List.suffix_cons _ _)) ?_) ih'
    rw [hclosing]
    rfl
  | index _ hindex hclosing _ _ ih' =>
    refine LeavesOff.trans (.after (hindex.isSuffix.trans (List.suffix_cons _ _)) ?_) ih'
    rw [hclosing]
    rfl
  | member _ hname _ ih =>
    refine LeavesOff.trans (.after (List.suffix_cons _ _) ?_) ih
    rw [hname]
    rfl
  | stepAfter ht | literal ht | name ht => exact .head (by rw [ht]; rfl)
  | group _ hinner hclosing =>
    exact .after (hinner.isSuffix.trans (List.suffix_cons _ _)) (by rw [hclosing]; rfl)
  | list _ _ ih | object _ _ ih =>
    obtain ⟨closing, hclosing, hsuffix⟩ := ih
    exact .after (hsuffix.trans (List.suffix_cons _ _)) (by rw [hclosing]; rfl)
  | noElements ht | noEntries ht => exact ⟨_, ht, List.suffix_refl _⟩
  | element _ helem _ _ _ ih =>
    obtain ⟨closing, hclosing, hsuffix⟩ := ih
    exact ⟨closing, hclosing, hsuffix.trans (isSuffix_after helem.isSuffix)⟩
  | lastElement _ helem _ hclosing => exact ⟨_, hclosing, helem.isSuffix⟩
  | entry _ _ hvalue _ _ _ ih =>
    obtain ⟨closing, hclosing, hsuffix⟩ := ih
    exact ⟨closing, hclosing, ((hsuffix.trans (isSuffix_after hvalue.isSuffix)).trans
      (List.suffix_cons _ _)).trans (List.suffix_cons _ _)⟩
  | lastEntry _ _ hvalue hclosing =>
    exact ⟨_, hclosing, (hvalue.isSuffix.trans (List.suffix_cons _ _)).trans
      (List.suffix_cons _ _)⟩

/-- Where nothing is left of the tokens of an expression, they end in no opening. -/
theorem Reads.endsOpening_eq_false {n : Nat} {ts : List Token} {e : Expr}
    (h : Reads (.level n) ts (.expr e) []) (done : List Token) :
    endsOpening (done ++ ts) = false := by
  rcases h.leaves with hall | ⟨t, ht, hsuffix⟩
  · obtain ⟨hlt, -⟩ := parseLevel_of_run h.run_eq
    simp [← hall] at hlt
  · exact Token.endsOpening_eq_false hsuffix ht

/-- The last token of a primary expression: no operand is due after it. -/
theorem Reads.primary_leaves {ts mid : List Token} {base : Expr}
    (h : Reads .primary ts (.expr base) mid) :
    ∃ t, t :: mid <:+ ts ∧ t.kind.precedesOperand = false ∧
      (base.target?.isSome → t.kind.endsTarget = true) := by
  cases h with
  | literal ht => exact ⟨_, List.suffix_refl _, by rw [ht]; rfl, by simp [target?]⟩
  | name ht => exact ⟨_, List.suffix_refl _, by rw [ht]; rfl, fun _ => by rw [ht]; rfl⟩
  | group _ hinner hclosing =>
    exact ⟨_, hinner.isSuffix.trans (List.suffix_cons _ _), by rw [hclosing]; rfl,
      by simp [target?]⟩
  | list _ hparts | object _ hparts =>
    obtain ⟨closing, hclosing, hsuffix⟩ := hparts.leaves
    exact ⟨closing, hsuffix.trans (List.suffix_cons _ _), by rw [hclosing]; rfl, by simp [target?]⟩

/-! ## What stands before the tokens of a task -/

/-- After the tokens that are done an operand is due, and if there are no more tokens, they do not
    end in an opening. -/
def OperandDue (done ts : List Token) : Prop :=
  (∀ t ∈ done.getLast?, t.kind.precedesOperand = true) ∧ (ts = [] → endsOpening done = false)

/-- What holds of the tokens that are done where a task is taken up. -/
def Task.Follows (done ts : List Token) : Task → Prop
  | .level _ | .unary | .suffixed | .primary | .elements _ => OperandDue done ts
  | .entries => ts = [] → endsOpening done = false
  | .operators _ _ => True
  | .suffixes _ base =>
    ∃ t ∈ done.getLast?, t.kind.precedesOperand = false ∧
      (base.target?.isSome → t.kind.endsTarget = true)

theorem operandDue_concat {done ts : List Token} {t : Token} (ht : t.kind.precedesOperand = true)
    (hopen : ts = [] → opens done.getLast? t = false) : OperandDue (done ++ [t]) ts := by
  constructor
  · intro t' ht'
    rw [List.getLast?_concat] at ht'
    cases ht'
    exact ht
  · intro hts
    rw [endsOpening_concat]
    exact hopen hts

theorem operandDue_after {done ts : List Token} {t : Token} (ht : t.kind.precedesOperand = true)
    (hopen : t.kind.mayOpen = false) : OperandDue (done ++ [t]) ts :=
  operandDue_concat ht fun _ => Token.opens_eq_false hopen

theorem follows_suffixes {done ts origin : List Token} {base : Expr} {t : Token}
    (ht : t.kind.precedesOperand = false)
    (htarget : base.target?.isSome → t.kind.endsTarget = true) :
    (Task.suffixes origin base).Follows (done ++ [t]) ts :=
  ⟨t, List.getLast?_concat, ht, htarget⟩

/-- A task that is taken up right after a token, whatever stands before that. -/
theorem exists_follows {task : Task} {done ts ts' : List Token} {t : Token} (h : t :: ts' <:+ ts)
    (hfollows : ∀ done, task.Follows (done ++ [t]) ts') :
    ∃ taken, taken ++ ts' = ts ∧ task.Follows (done ++ taken) ts' := by
  obtain ⟨before, rfl⟩ := h
  refine ⟨before ++ [t], by simp, ?_⟩
  rw [← List.append_assoc]
  exact hfollows _

/-- What a task can rely on, the tasks that it goes on with can rely on. -/
theorem Demands.follows {task task' : Task} {done ts ts' : List Token}
    (h : Demands task ts task' ts') (hfollows : task.Follows done ts) :
    ∃ taken, taken ++ ts' = ts ∧ task'.Follows (done ++ taken) ts' := by
  obtain ⟨taken, htaken⟩ := h.isSuffix
  cases h with
  | first | operand | base | element =>
    refine ⟨[], rfl, ?_⟩
    rw [List.append_nil]
    exact hfollows
  | operators | afterTerminator | afterRight | afterValue | afterConditional =>
    -- operators are read after anything
    exact ⟨taken, htaken, trivial⟩
  | right ht | value ht | ifTrue ht | stepOperand ht =>
    apply exists_follows (List.suffix_refl _)
    intro done
    exact operandDue_after (by rw [ht]; rfl) (by rw [ht]; rfl)
  | unaryOperand ht =>
    apply exists_follows (List.suffix_refl _)
    intro done
    exact operandDue_after (mayOpen_of_unaryOp? ht).1 (mayOpen_of_unaryOp? ht).2
  | ifFalse _ hread ht =>
    apply exists_follows (hread.isSuffix.trans (List.suffix_cons _ _))
    intro done
    exact operandDue_after (by rw [ht]; rfl) (by rw [ht]; rfl)
  | suffixes hread =>
    obtain ⟨t, hsuffix, hoperand, htarget⟩ := hread.primary_leaves
    exact exists_follows hsuffix fun done => follows_suffixes hoperand htarget
  | arguments ht | list ht =>
    -- the opening is followed by some token
    apply exists_follows (List.suffix_refl _)
    intro done
    apply operandDue_concat (by rw [ht]; rfl)
    intro hnil
    cases hnil
  | afterCall _ hread =>
    obtain ⟨closing, hclosing, hsuffix⟩ := hread.leaves
    apply exists_follows (hsuffix.trans (List.suffix_cons _ _))
    intro done
    apply follows_suffixes
    · rw [hclosing]
      rfl
    · simp [target?]
  | @index origin base t ts ht =>
    -- behind an operand the bracket opens no list
    obtain ⟨before, hbefore, hoperand, -⟩ := hfollows
    refine ⟨[t], rfl, operandDue_concat (by rw [ht]; rfl) fun _ => ?_⟩
    rw [Option.mem_def.mp hbefore]
    exact Token.opens_leftBracket_eq_false ht hoperand
  | afterIndex _ hread hclosing =>
    apply exists_follows (hread.isSuffix.trans (List.suffix_cons _ _))
    intro done
    apply follows_suffixes
    · rw [hclosing]
      rfl
    · intro _
      rw [hclosing]
      rfl
  | afterMember _ hname =>
    apply exists_follows (List.suffix_cons _ _)
    intro done
    apply follows_suffixes
    · rw [hname]
      rfl
    · intro _
      rw [hname]
      rfl
  | @group t ts ht =>
    -- where an operand is due, nothing is called
    refine ⟨[t], rfl, operandDue_concat (by rw [ht]; rfl) fun _ => ?_⟩
    exact Token.opens_leftParen_eq_false ht hfollows.1
  | object ht =>
    apply exists_follows (List.suffix_refl _)
    intro done _
    rw [endsOpening_concat]
    exact Token.opens_eq_false (by rw [ht]; rfl)
  | moreElements hread hcomma =>
    apply exists_follows hread.isSuffix
    intro done
    exact operandDue_after (by rw [hcomma]; rfl) (by rw [hcomma]; rfl)
  | entryValue hcolon =>
    apply exists_follows (List.suffix_cons _ _)
    intro done
    exact operandDue_after (by rw [hcolon]; rfl) (by rw [hcolon]; rfl)
  | moreEntries hread hcomma =>
    apply exists_follows
      ((hread.isSuffix.trans (List.suffix_cons _ _)).trans (List.suffix_cons _ _))
    intro done _
    rw [endsOpening_concat]
    exact Token.opens_eq_false (by rw [hcomma]; rfl)

/-! ## What an error tells -/

namespace ParseError

/-- The token that an error names. -/
def token? : ParseError → Option Token
  | .ended | .endedAtOpening => none
  | .unexpected t | .invalidTarget t _ | .invalidCallee t _ | .invalidKey t _ => some t

/-- For an error at the end of the tokens: whether they end in an opening. -/
def atOpening? : ParseError → Option Bool
  | .ended => some false
  | .endedAtOpening => some true
  | _ => none

end ParseError

theorem token?_of_key? {t : Token} {e : ParseError} (h : key? t = .error e) :
    e.token? = some t := by
  unfold key? at h
  split at h
  · cases h
  · cases h
  · split at h
    · cases h
    · cases h
      rfl
  · cases h
    rfl

theorem mayOpen_of_key? {t : Token} {key : String} (h : key? t = .ok key) :
    t.kind.mayOpen = false := by
  unfold key? at h
  split at h
  · next hkind => rw [hkind]; rfl
  · next hkind => rw [hkind]; rfl
  · next hkind => rw [hkind]; rfl
  · cases h

theorem Refuses.token_mem {task : Task} {ts : List Token} {e : ParseError} {t : Token}
    (h : Refuses task ts e) (ht : e.token? = some t) : t ∈ ts := by
  cases h with
  | ended | argumentsOpen | listOpen => cases ht
  | unexpected hawaits =>
    cases ht
    exact hawaits.isSuffix.mem List.mem_cons_self
  | key hkey =>
    rw [token?_of_key? hkey] at ht
    cases ht
    exact List.mem_cons_self
  | assignTarget | stepTarget | stepAfterTarget | callee =>
    cases ht
    exact List.mem_cons_self

/-- The token that an error names is one of those that were to be read. -/
theorem Fails.token_mem {task : Task} {ts : List Token} {e : ParseError} {t : Token}
    (h : Fails task ts e) (ht : e.token? = some t) : t ∈ ts := by
  induction h with
  | refuses h => exact h.token_mem ht
  | demands hdemands _ ih => exact hdemands.isSuffix.mem (ih ht)

theorem Awaits.endsOpening_eq_false {task : Task} {done ts : List Token} (h : Awaits task ts [])
    (hfollows : task.Follows done ts) : endsOpening (done ++ ts) = false := by
  cases h with
  | operand | primary | elements =>
    rw [List.append_nil]
    exact hfollows.2 rfl
  | entries =>
    rw [List.append_nil]
    exact hfollows rfl
  | memberName ht =>
    rw [endsOpening_concat]
    exact Token.opens_eq_false (by rw [ht]; rfl)
  | keyColon hkey =>
    rw [endsOpening_concat]
    exact Token.opens_eq_false (mayOpen_of_key? hkey)
  | @colon _ _ _ t _ _ _ hread | @indexEnd _ _ _ t _ _ _ hread | @groupEnd t _ _ _ _ hread =>
    simpa using hread.endsOpening_eq_false (done ++ [t])
  | elementEnd hread => exact hread.endsOpening_eq_false done
  | @entryEnd t colon _ _ _ hread => simpa using hread.endsOpening_eq_false (done ++ [t, colon])

theorem Refuses.endsOpening_eq {task : Task} {done ts : List Token} {e : ParseError} {b : Bool}
    (h : Refuses task ts e) (hfollows : task.Follows done ts) (he : e.atOpening? = some b) :
    endsOpening (done ++ ts) = b := by
  cases h with
  | ended hawaits =>
    cases he
    exact hawaits.endsOpening_eq_false hfollows
  | key hkey =>
    have htoken := token?_of_key? hkey
    cases e <;> simp_all [ParseError.token?, ParseError.atOpening?]
  | argumentsOpen ht =>
    cases he
    obtain ⟨before, hbefore, -, htarget⟩ := hfollows
    rw [endsOpening_concat, Option.mem_def.mp hbefore]
    simp [opens, ht, htarget rfl]
  | listOpen ht =>
    cases he
    rw [endsOpening_concat]
    simp only [opens, ht]
    cases hbefore : done.getLast? with
    | none => rfl
    | some before => exact hfollows.1 before hbefore
  | unexpected | assignTarget | stepTarget | stepAfterTarget | callee => cases he

/-- An error at the end of the tokens tells whether they end in an opening. -/
theorem Fails.endsOpening_eq {task : Task} {done ts : List Token} {e : ParseError} {b : Bool}
    (h : Fails task ts e) (hfollows : task.Follows done ts) (he : e.atOpening? = some b) :
    endsOpening (done ++ ts) = b := by
  induction h generalizing done with
  | refuses h => exact h.endsOpening_eq hfollows he
  | demands hdemands _ ih =>
    obtain ⟨taken, rfl, hfollows'⟩ := hdemands.follows hfollows
    rw [← List.append_assoc]
    exact ih hfollows' he

/-- The error of tokens that are no expression names one of them, or it tells whether they end in an
    opening. -/
theorem error_of_ofTokens {ts : List Token} {e : ParseError} (h : ofTokens ts = .error e) :
    (∃ t ∈ ts, e.token? = some t) ∨ (ts ≠ [] ∧ e.atOpening? = some (endsOpening ts)) := by
  cases ts with
  | nil => cases h
  | cons t ts =>
    rw [ofTokens] at h
    rcases bind_eq_error.mp h with h | ⟨whole, hwhole, h⟩
    · have hfails : Fails (.level Level.lowest) (t :: ts) e := fails_of_run (map_eq_error.mpr h)
      have hfollows : (Task.level Level.lowest).Follows [] (t :: ts) := ⟨by simp, fun _ => rfl⟩
      have hend {b : Bool} (he : e.atOpening? = some b) : endsOpening (t :: ts) = b :=
        hfails.endsOpening_eq hfollows he
      cases htoken : e.token? with
      | some t' => exact .inl ⟨t', hfails.token_mem htoken, rfl⟩
      | none =>
        refine .inr ⟨List.cons_ne_nil _ _, ?_⟩
        cases e with
        | ended => rw [hend rfl]; rfl
        | endedAtOpening => rw [hend rfl]; rfl
        | _ => cases htoken
    · have hread := reads_level hwhole
      split at h
      · cases h
      · next extra others hrest =>
        cases h
        rw [hrest] at hread
        exact .inl ⟨extra, hread.isSuffix.mem List.mem_cons_self, rfl⟩

end Expr

/-! ## Places -/

/-- The place of a character of a text. -/
def Position.Marks (pos : Position) (text : List Char) : Prop :=
  ∃ before c after, text = before ++ c :: after ∧ pos = Position.behind before

theorem Position.Marks.one_le {pos : Position} {text : List Char} (h : pos.Marks text) :
    1 ≤ pos.line ∧ 1 ≤ pos.col := by
  obtain ⟨before, c, after, -, rfl⟩ := h
  simp [Position.behind]

namespace Token

theorem Laid.marks {before text : List Char} {ts : List Token} {t : Token}
    (h : Laid before ts text) (ht : t ∈ ts) : t.pos.Marks (before ++ text) := by
  induction h with
  | ends => cases ht
  | @token before gap rest t' ts hgap hlexeme hpos hrest ih =>
    rcases List.mem_cons.mp ht with rfl | ht
    · obtain ⟨c, lexeme, hc⟩ := List.exists_cons_of_ne_nil (mt String.toList_eq_nil_iff.mp hlexeme)
      exact ⟨before ++ gap, c, lexeme ++ rest, by simp [hc], hpos⟩
    · simpa using ih ht

/-- Every token stands at a character of the text. -/
theorem marks_of_tokenize {source : String} {ts : List Token} {t : Token}
    (h : tokenize source = .ok ts) (ht : t ∈ ts) : t.pos.Marks source.toList := by
  obtain ⟨pos, hcuts⟩ := scan_eq_ok_iff.mp h
  have hlaid : Laid [] ts source.toList := hcuts.laid rfl rfl
  simpa using hlaid.marks ht

/-- A text that cannot be cut into tokens is left off at one of its characters. -/
theorem marks_of_tokenize_error {source : String} {e : LexicalError} {pos : Position}
    (h : tokenize source = .error (e, pos)) : pos.Marks source.toList := by
  obtain ⟨ts, c, rest, hcuts, -⟩ := scan_eq_error_iff.mp h
  obtain ⟨taken, htaken, hpos⟩ := hcuts.after
  refine ⟨taken, c, rest, htaken, ?_⟩
  rw [hpos]
  exact Position.after_behind [] taken

theorem LexicalError.toFault_eq (e : LexicalError × Position) :
    (toFault e).reason = .malformed ∧ (toFault e).place = some e.2 ∧
      ∀ last, (toFault e).cause ≠ .endOfInput last := by
  obtain ⟨e, pos⟩ := e
  cases e <;> simp [toFault, Fault.reason, Fault.place, Fault.atPos, Cause.reason]

end Token

namespace Expr.ParseError

theorem reason_toFault (ts : List Token) (e : ParseError) : (e.toFault ts).reason = .malformed := by
  cases e with
  | ended =>
    simp only [toFault]
    split <;> rfl
  | _ => rfl

theorem toFault_of_token? (ts : List Token) {e : ParseError} {t : Token} (h : e.token? = some t) :
    (e.toFault ts).place = some t.pos ∧ ∀ last, (e.toFault ts).cause ≠ .endOfInput last := by
  cases e with
  | ended | endedAtOpening => cases h
  | _ => cases h; simp [toFault, Fault.place, Fault.atPos]

/-- At the end of the tokens the last one gives the place, unless it is an opening. -/
theorem toFault_of_atOpening? {ts : List Token} (hts : ts ≠ []) {e : ParseError} {b : Bool}
    (h : e.atOpening? = some b) :
    (∃ last, (e.toFault ts).cause = .endOfInput last) ∧
      (e.toFault ts).place = if b then none else ts.getLast?.map Token.pos := by
  have hlast : ts.getLast? = some (ts.getLast hts) := List.getLast?_eq_some_getLast hts
  cases e with
  | ended =>
    cases h
    simp [toFault, hlast, Fault.place, Fault.atPos]
  | endedAtOpening =>
    cases h
    simp [toFault, Fault.place, Fault.of]
  | _ => cases h

end Expr.ParseError

namespace Program

theorem place_of_ofTokens {ts : List Token} {f : Fault} (h : ofTokens ts = .error f) :
    f.reason = .malformed ∧
      (f.place = none ↔ (∃ last, f.cause = .endOfInput last) ∧ endsOpening ts = true) ∧
      ∀ pos, f.place = some pos → ∃ t ∈ ts, t.pos = pos := by
  unfold ofTokens at h
  split at h
  · cases h
  · next e he =>
    cases h
    refine ⟨e.reason_toFault ts, ?_⟩
    rcases Expr.error_of_ofTokens he with ⟨t, ht, htoken⟩ | ⟨hts, hend⟩
    · obtain ⟨hplace, hcause⟩ := Expr.ParseError.toFault_of_token? ts htoken
      rw [hplace]
      refine ⟨by simp [hcause], ?_⟩
      intro pos hpos
      cases hpos
      exact ⟨t, ht, rfl⟩
    · obtain ⟨hcause, hplace⟩ := Expr.ParseError.toFault_of_atOpening? hts hend
      rw [hplace]
      cases hopen : endsOpening ts with
      | true => simp [hcause]
      | false =>
        have hlast : ts.getLast? = some (ts.getLast hts) := List.getLast?_eq_some_getLast hts
        refine ⟨by simp [hlast], ?_⟩
        intro pos hpos
        simp only [hlast, Bool.false_eq_true, if_false, Option.map_some, Option.some.injEq] at hpos
        exact ⟨ts.getLast hts, List.getLast_mem hts, hpos⟩

theorem place_of_ofSource {source : String} {f : Fault} (h : ofSource source = .error f) :
    f.reason = .malformed ∧
      (f.place = none ↔ (∃ last, f.cause = .endOfInput last) ∧
        ∃ ts, tokens source = .ok ts ∧ endsOpening ts = true) ∧
      ∀ pos, f.place = some pos → pos.Marks source.toList := by
  unfold ofSource tokens at h
  cases htokens : Token.tokenize source with
  | error e =>
    simp only [htokens] at h
    cases h
    obtain ⟨hreason, hplace, hcause⟩ := Token.LexicalError.toFault_eq e
    refine ⟨hreason, ?_, ?_⟩
    · simp [hplace, hcause]
    · intro pos hpos
      rw [hplace] at hpos
      cases hpos
      exact Token.marks_of_tokenize_error htokens
  | ok ts =>
    simp only [htokens] at h
    obtain ⟨hreason, hnone, hsome⟩ := place_of_ofTokens h
    refine ⟨hreason, ?_, ?_⟩
    · simp [hnone, tokens, htokens]
    · intro pos hpos
      obtain ⟨t, ht, rfl⟩ := hsome pos hpos
      exact Token.marks_of_tokenize htokens ht

end Program

namespace Engine

theorem compile_eq_failed_iff {engine : Engine} {source : String} {m m' : Machine} {f : Fault} :
    engine.compile source m = .failed f m' ↔
      Program.ofSource source = .error f ∧
        m' = { m with log := m.log ++ (engine.compileLog source).toArray } := by
  cases hsource : Program.ofSource source with
  | ok program =>
    rw [compile_of_ok engine hsource]
    exact iff_of_false nofun nofun
  | error f' =>
    rw [compile_of_error engine hsource]
    simp only [Outcome.failed.injEq, Except.error.injEq, eq_comm]

/-- A text that is not compiled is malformed, and the fault stands at one of its characters, in
    lines and columns that are counted from one. Only where the text ends too early does it matter
    how: the fault has no place exactly if the last token opens a list or arguments. -/
theorem compile_failed {engine : Engine} {source : String} {m m' : Machine} {f : Fault}
    (h : engine.compile source m = .failed f m') :
    f.reason = .malformed ∧
      (f.place = none ↔ (∃ last, f.cause = .endOfInput last) ∧
        ∃ ts, Program.tokens source = .ok ts ∧ Token.endsOpening ts = true) ∧
      ∀ pos, f.place = some pos → 1 ≤ pos.line ∧ 1 ≤ pos.col ∧ pos.Marks source.toList := by
  obtain ⟨hreason, hnone, hsome⟩ := Program.place_of_ofSource (compile_eq_failed_iff.mp h).1
  refine ⟨hreason, hnone, ?_⟩
  intro pos hpos
  have hmarks := hsome pos hpos
  exact ⟨hmarks.one_le.1, hmarks.one_le.2, hmarks⟩

/-- A text that ends after a `[`, which is attached to a name and opens no list. -/
theorem compile_failed_atIndex :
    ∃ f, Engine.compile {} "f(a[" {} = .failed f {} ∧ f.reason = .malformed ∧
      f.place = some ⟨1, 4⟩ ∧ Position.Marks ⟨1, 4⟩ "f(a[".toList := by
  have htokens : Program.tokens "f(a[" = .ok [⟨.identifier, "f", ⟨1, 1⟩⟩, ⟨.leftParen, "(", ⟨1, 2⟩⟩,
      ⟨.identifier, "a", ⟨1, 3⟩⟩, ⟨.leftBracket, "[", ⟨1, 4⟩⟩] := by decide +kernel
  have hsource : Program.ofSource "f(a[" = .error (.atPos (.endOfInput (some "[")) ⟨1, 4⟩) := by
    simp [Program.ofSource, htokens, Program.ofTokens, Expr.ofTokens, Expr.parseLevel,
      Expr.parseUnary, Expr.unaryOp?, Expr.parseSuffixed, Expr.parsePrimary, Expr.parseSuffixes,
      Expr.target?, Expr.parseArguments, Expr.parseElements, Expr.pure_eq_ok, Expr.ok_bind]
    rfl
  have hfailed :
      Engine.compile {} "f(a[" {} = .failed (.atPos (.endOfInput (some "[")) ⟨1, 4⟩) {} :=
    compile_eq_failed_iff.mpr ⟨hsource, rfl⟩
  obtain ⟨hreason, -, hplace⟩ := compile_failed hfailed
  exact ⟨_, hfailed, hreason, rfl, (hplace _ rfl).2.2⟩

/-- A text that ends after the opening of arguments. -/
theorem place_openArguments :
    ∃ f, Engine.compile {} "f(" {} = .failed f {} ∧ f.place = none := by
  have htokens : Program.tokens "f(" =
      .ok [⟨.identifier, "f", ⟨1, 1⟩⟩, ⟨.leftParen, "(", ⟨1, 2⟩⟩] := by decide +kernel
  have hsource : Program.ofSource "f(" = .error (.of (.endOfInput none)) := by
    simp [Program.ofSource, htokens, Program.ofTokens, Expr.ofTokens, Expr.parseLevel,
      Expr.parseUnary, Expr.unaryOp?, Expr.parseSuffixed, Expr.parsePrimary, Expr.parseSuffixes,
      Expr.target?, Expr.parseArguments, Expr.pure_eq_ok, Expr.ok_bind]
    rfl
  exact ⟨_, compile_eq_failed_iff.mpr ⟨hsource, rfl⟩, rfl⟩

end Engine

end ExprLang
