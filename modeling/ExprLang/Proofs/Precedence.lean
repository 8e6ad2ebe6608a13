import ExprLang.Proofs.Grammar
import ExprLang.Proofs.Parts
import Mathlib.Data.List.Chain

/-!
# Precedence

Every expression that is read has operands that bind at least as tightly as its operator asks for
(`Expr.respects_of_ofTokens`), as long as no `;` stands directly before an operator that can only go
on with an expression. A `;` that no expression follows is passed over, and such an operator then
takes all that stands before the `;` as its left operand, however loosely it is held together.
-/

namespace ExprLang

/-- Whether a token of this kind goes on with an expression and cannot begin one. A `;` and the
    assignments do not count: they leave the expression before them as it is. -/
def Token.Kind.onlyJoins : Token.Kind → Bool
  | .binary .sequence => false
  | .binary op => !(Kind.binary op).startsExpression
  | .question => true
  | _ => false

namespace Expr

/-- How tightly an expression is held together: the level of its operator, and the highest one if it
    has none or counts in place. -/
def level : Expr → Nat
  | .binary .sequence _ _ _ => 10
  | .assign .. => 20
  | .conditional .. => 30
  | .binary (.logic .or) _ _ _ => 40
  | .binary (.logic .and) _ _ _ => 50
  | .binary (.arith .bitOr) _ _ _ => 60
  | .binary (.arith .bitXor) _ _ _ => 70
  | .binary (.arith .bitAnd) _ _ _ => 80
  | .binary (.equality _) _ _ _ => 90
  | .binary (.order _) _ _ _ => 100
  | .binary (.arith .shiftLeft) _ _ _ | .binary (.arith .shiftRight) _ _ _
  | .binary (.arith .shiftRightUnsigned) _ _ _ => 110
  | .binary (.arith .add) _ _ _ | .binary (.arith .sub) _ _ _ => 120
  | .binary (.arith .mul) _ _ _ | .binary (.arith .div) _ _ _ | .binary (.arith .mod) _ _ _ => 130
  | .unary .. => 140
  | .binary (.arith .pow) _ _ _ => 150
  | _ => 160

/-- Whether an expression has a unary operator in front. -/
def isUnary : Expr → Bool
  | .unary .. => true
  | _ => false

/-- The operands of an expression bind as tightly as its operator asks for: binary operators group
    to the left, except that `**` groups to the right, as do `? :` and assignments; a sign in front
    of a power applies to the power, and may stand in front of an exponent. -/
def Fits : Expr → Prop
  | .binary (.arith .pow) left right _ => 150 < left.level ∧ (right.isUnary ∨ 150 ≤ right.level)
  | .binary op left right pos =>
    (Expr.binary op left right pos).level ≤ left.level ∧
      (Expr.binary op left right pos).level < right.level
  | .conditional test ifTrue ifFalse _ =>
    30 < test.level ∧ 20 ≤ ifTrue.level ∧ 30 ≤ ifFalse.level
  | .assign _ _ value _ => 20 ≤ value.level
  | .unary _ operand _ => operand.isUnary ∨ 150 ≤ operand.level
  | _ => True

/-- An expression that fits, and so does every expression in it. -/
inductive Respects : Expr → Prop
  | of {e : Expr} (hfits : e.Fits) (hparts : ∀ part ∈ e.parts, part.Respects) : e.Respects

/-- No `;` stands directly before a token that can only go on with an expression. -/
def NothingJoined (ts : List Token) : Prop :=
  ts.IsChain fun t u => t.kind = .binary .sequence → u.kind.onlyJoins = false

theorem Respects.fits {e : Expr} (h : e.Respects) : e.Fits := by
  cases h with | of hfits _ => exact hfits

theorem Respects.parts {e : Expr} (h : e.Respects) : ∀ part ∈ e.parts, part.Respects := by
  cases h with | of _ hparts => exact hparts

/-! ## Levels of operators -/

theorem level_binary (op : BinaryOp) (left right : Expr) (pos : Position) :
    (binary op left right pos).level = op.level := by
  cases op with
  | arith op => cases op <;> rfl
  | logic op => cases op <;> rfl
  | _ => rfl

theorem level_of_isUnary {e : Expr} (h : e.isUnary = true) : e.level = 140 := by
  cases e with
  | unary op operand pos => rfl
  | _ => cases h

theorem sequence_le_level (e : Expr) : 10 ≤ e.level := by
  unfold level
  split <;> decide

/-- Operators other than `**` bind less tightly than a unary operator. -/
theorem level_le_of_ne_pow {op : BinaryOp} (h : op ≠ .arith .pow) : op.level ≤ 130 := by
  cases op with
  | arith op =>
    cases op with
    | pow => exact absurd rfl h
    | _ => decide
  | order op | equality op | logic op => cases op <;> decide
  | sequence => decide

theorem level_le_power (op : BinaryOp) : op.level ≤ 150 := by
  by_cases h : op = .arith .pow
  · rw [h]
    decide
  · exact (level_le_of_ne_pow h).trans (by decide)

theorem level_ne_conditional (op : BinaryOp) : op.level ≠ 30 := by
  cases op with
  | arith op | order op | equality op | logic op => cases op <;> decide
  | sequence => decide

theorem rightLevel_pow : BinaryOp.rightLevel (.arith .pow) = 150 := rfl

theorem rightLevel_of_ne_pow {op : BinaryOp} (h : op ≠ .arith .pow) :
    op.rightLevel = op.level + 1 := if_neg h

theorem rightLevel_le (op : BinaryOp) : op.rightLevel ≤ 150 := by
  by_cases h : op = .arith .pow
  · rw [h, rightLevel_pow]
  · have hle := level_le_of_ne_pow h
    rw [rightLevel_of_ne_pow h]
    omega

/-! ## Operands -/

/-- What is read at a level up to that of `**`. -/
def AtLevel (n : Nat) (e : Expr) : Prop := e.isUnary ∨ n ≤ e.level

theorem AtLevel.le {n : Nat} {e : Expr} (h : e.AtLevel n) (hn : n ≤ 140) : n ≤ e.level := by
  rcases h with hunary | hle
  · rw [level_of_isUnary hunary]
    exact hn
  · exact hle

theorem fits_binary {op : BinaryOp} {left right : Expr} (hleft : op.level ≤ left.level)
    (hpow : op = .arith .pow → 150 < left.level) (hright : right.AtLevel op.rightLevel)
    (pos : Position) : (binary op left right pos).Fits := by
  by_cases h : op = .arith .pow
  · subst h
    exact ⟨hpow rfl, hright⟩
  · have hle := level_le_of_ne_pow h
    rw [rightLevel_of_ne_pow h] at hright
    have hlt : op.level < right.level := hright.le (by omega)
    unfold Fits
    split
    · next heq => cases heq; exact absurd rfl h
    · next heq =>
      cases heq
      rw [level_binary]
      exact ⟨hleft, hlt⟩
    · next heq => cases heq
    · next heq => cases heq
    · next heq => cases heq
    · trivial

/-- An expression that can be the left operand of the operator that some tokens go on with. -/
def Admits (left : Expr) (ts : List Token) : Prop :=
  ∀ t ∈ ts.head?,
    (∀ op, t.kind = .binary op → op.level ≤ left.level ∧ (op = .arith .pow → 150 < left.level)) ∧
      (t.kind = .question → 30 < left.level)

theorem admits_of_level {e : Expr} (h : e.level = 160) (ts : List Token) : e.Admits ts := by
  intro t _
  rw [h]
  refine ⟨fun op _ => ⟨(level_le_power op).trans (by decide), ?_⟩, ?_⟩
  · exact fun _ => by decide
  · exact fun _ => by decide

/-- Tokens that stop below a level are admitted by what holds together at least so tightly. -/
theorem admits_of_stops {n : Nat} {e : Expr} {ts : List Token} (hstops : Stops n ts) (hn : n ≤ 150)
    (hbinary : ∀ op : BinaryOp, op.level < n → op.level ≤ e.level)
    (hquestion : 30 < n → 30 < e.level) : e.Admits ts := by
  intro t ht
  constructor
  · intro op hop
    have hlt : op.level < n := hstops t ht _ (by rw [hop]; rfl)
    refine ⟨hbinary op hlt, ?_⟩
    rintro rfl
    exact absurd hlt (Nat.not_lt.mpr hn)
  · intro hkind
    exact hquestion (hstops t ht _ (by rw [hkind]; rfl))

theorem admits_binary {op : BinaryOp} {ts : List Token} (hstops : Stops op.rightLevel ts)
    (left right : Expr) (pos : Position) : (binary op left right pos).Admits ts := by
  have hne := level_ne_conditional op
  by_cases h : op = .arith .pow
  · subst h
    refine admits_of_stops hstops (rightLevel_le _) ?_ ?_
    · intro op' hlt
      exact Nat.le_of_lt hlt
    · exact fun _ => show 30 < 150 by decide
  · rw [rightLevel_of_ne_pow h] at hstops
    refine admits_of_stops hstops ?_ ?_ ?_
    · exact (rightLevel_of_ne_pow h).symm.trans_le (rightLevel_le op)
    · intro op' hlt
      rw [level_binary]
      omega
    · intro hlt
      rw [level_binary]
      omega

/-- The tokens after a `;` that is passed over. -/
theorem admits_of_nothingJoined {e : Expr} {t : Token} {ts : List Token}
    (ht : t.kind = .binary .sequence) (hts : Token.begins ts = false)
    (h : NothingJoined (t :: ts)) : e.Admits ts := by
  cases ts with
  | nil => exact nofun
  | cons u ts =>
    have hjoins : u.kind.onlyJoins = false := (List.isChain_cons_cons.mp h).1 ht
    have hbegins : u.kind.startsExpression = false := hts
    rintro _ ⟨rfl⟩
    constructor
    · intro op hop
      rw [hop] at hjoins hbegins
      cases op with
      | sequence => exact ⟨sequence_le_level e, nofun⟩
      | _ =>
        rw [Token.Kind.onlyJoins, hbegins] at hjoins
        · cases hjoins
        · exact nofun
    · intro hkind
      rw [hkind] at hjoins
      cases hjoins

/-! ## What is read -/

/-- What the levels of a phrase are, by the task that reads it. -/
def Leveled (ts rest : List Token) : Task → Phrase → Prop
  | .level n, .expr e => n ≤ 150 → e.Respects ∧ e.AtLevel n
  | .operators n left, .expr e =>
    n ≤ 150 → left.Respects → left.AtLevel n → left.Admits ts → e.Respects ∧ e.AtLevel n
  | .unary, .expr e => e.Respects ∧ (e.isUnary ∧ Stops 150 rest ∨ e.level = 160)
  | .suffixed, .expr e | .primary, .expr e => e.Respects ∧ e.level = 160
  | .suffixes _ base, .expr e =>
    base.Respects → base.level = 160 → e.Respects ∧ e.level = 160
  | .elements _, .elements es => ∀ e ∈ es, e.Respects
  | .entries, .entries es => ∀ e ∈ es.map Entry.value, e.Respects
  | _, _ => True

theorem NothingJoined.suffix {ts rest : List Token} (h : NothingJoined ts) (hrest : rest <:+ ts) :
    NothingJoined rest :=
  List.IsChain.suffix h hrest

theorem NothingJoined.after {t : Token} {ts mid : List Token} (h : NothingJoined ts)
    (hmid : t :: mid <:+ ts) : NothingJoined mid :=
  h.suffix (isSuffix_after hmid)

theorem NothingJoined.tail {t : Token} {ts : List Token} (h : NothingJoined (t :: ts)) :
    NothingJoined ts :=
  h.suffix (List.suffix_cons t ts)

/-- An operand before its operators. -/
theorem admits_of_operand {e : Expr} {rest : List Token}
    (h : e.isUnary ∧ Stops 150 rest ∨ e.level = 160) : e.Admits rest := by
  rcases h with ⟨hunary, hstops⟩ | hlevel
  · have hlevel := level_of_isUnary hunary
    refine admits_of_stops hstops le_rfl ?_ ?_
    · intro op hlt
      have hne : op ≠ .arith .pow := by
        rintro rfl
        exact absurd hlt (by decide)
      have hle := level_le_of_ne_pow hne
      omega
    · intro _
      omega
  · exact admits_of_level hlevel rest

theorem leveled_of_reads {task : Task} {ts : List Token} {p : Phrase} {rest : List Token}
    (h : Reads task ts p rest) (hts : NothingJoined ts) : Leveled ts rest task p := by
  induction h with
  | @level n ts mid rest first e hfirst hwhole ihfirst ihwhole =>
    intro hn
    obtain ⟨hrespects, hoperand⟩ := ihfirst hts
    have hat : first.AtLevel n := by
      rcases hoperand with ⟨hunary, -⟩ | hlevel
      · exact .inl hunary
      · exact .inr (by omega)
    exact ihwhole (hts.suffix hfirst.isSuffix) hn hrespects hat (admits_of_operand hoperand)
  | ended => exact fun _ hleft hat _ => ⟨hleft, hat⟩
  | stops ht => exact fun _ hleft hat _ => ⟨hleft, hat⟩
  | terminator ht hn hbegins hwhole ihwhole =>
    intro hle hleft hat _
    exact ihwhole hts.tail hle hleft hat (admits_of_nothingJoined ht hbegins hts)
  | @binary n op left right e t ts mid rest ht hn _ hright hwhole ihright ihwhole =>
    intro hle hleft _ hadmits
    obtain ⟨hbinary, -⟩ := hadmits t rfl
    obtain ⟨hlevel, hpow⟩ := hbinary op ht
    obtain ⟨hrespects, hat⟩ := ihright hts.tail (rightLevel_le op)
    have hnode : (binary op left right t.pos).Respects := by
      refine .of (fits_binary hlevel hpow hat t.pos) ?_
      simpa [Expr.parts] using ⟨hleft, hrespects⟩
    have hnodeAt : (binary op left right t.pos).AtLevel n := .inr (by rwa [level_binary])
    exact ihwhole (hts.tail.suffix hright.isSuffix) hle hnode hnodeAt
      (admits_binary hright.ends left right t.pos)
  | @assign n op target value e t ts mid rest ht hn hvalue hwhole ihvalue ihwhole =>
    intro hle hleft _ _
    obtain ⟨hrespects, hat⟩ := ihvalue hts.tail (by decide)
    have hnode : (assign op target value t.pos).Respects :=
      .of (hat.le (by decide)) (List.forall_mem_cons.mpr ⟨hrespects, hleft.parts⟩)
    refine ihwhole (hts.tail.suffix hvalue.isSuffix) hle hnode (.inr hn) ?_
    exact admits_of_stops hvalue.ends (by decide) (fun _ => Nat.le_of_lt)
      (fun h => absurd h (by decide))
  | @conditional n left ifTrue ifFalse e t colon ts mid mid' rest ht hn htrue hcolon hfalse hwhole
      ihtrue ihfalse ihwhole =>
    intro hle hleft _ hadmits
    obtain ⟨-, hquestion⟩ := hadmits t rfl
    have hmid : NothingJoined mid := hts.tail.after htrue.isSuffix
    obtain ⟨htrueRespects, htrueAt⟩ := ihtrue hts.tail (by decide)
    obtain ⟨hfalseRespects, hfalseAt⟩ := ihfalse hmid (by decide)
    have hnode : (conditional left ifTrue ifFalse t.pos).Respects := by
      refine .of ⟨hquestion ht, htrueAt.le (by decide), hfalseAt.le (by decide)⟩ ?_
      simpa [Expr.parts] using ⟨hleft, htrueRespects, hfalseRespects⟩
    refine ihwhole (hmid.suffix hfalse.isSuffix) hle hnode (.inr hn) ?_
    exact admits_of_stops hfalse.ends (by decide) (fun _ => Nat.le_of_lt)
      (fun h => absurd h (by decide))
  | @unary op operand t ts rest ht hoperand ihoperand =>
    obtain ⟨hrespects, hat⟩ := ihoperand hts.tail (by decide)
    refine ⟨.of hat ?_, .inl ⟨rfl, hoperand.ends⟩⟩
    simpa [Expr.parts] using hrespects
  | @stepBefore op target t ts rest ht htarget ihtarget =>
    obtain ⟨hrespects, -⟩ := ihtarget hts.tail
    exact ⟨.of trivial hrespects.parts, .inr rfl⟩
  | operand ht hstep he ihe =>
    obtain ⟨hrespects, hlevel⟩ := ihe hts
    exact ⟨hrespects, .inr hlevel⟩
  | suffixed hbase hwhole ihbase ihwhole =>
    obtain ⟨hrespects, hlevel⟩ := ihbase hts
    exact ihwhole (hts.suffix hbase.isSuffix) hrespects hlevel
  | unattached => exact fun hbase hlevel => ⟨hbase, hlevel⟩
  | detached ht => exact fun hbase hlevel => ⟨hbase, hlevel⟩
  | call ht hargs hwhole ihargs ihwhole =>
    intro hbase _
    have hnode := List.forall_mem_cons.mpr ⟨hbase, ihargs hts.tail⟩
    exact ihwhole (hts.tail.suffix hargs.isSuffix) (.of trivial hnode) rfl
  | index ht hindex hclosing hwhole ihindex ihwhole =>
    intro hbase _
    obtain ⟨hrespects, -⟩ := ihindex hts.tail (by decide)
    refine ihwhole (hts.tail.after hindex.isSuffix) (.of trivial ?_) rfl
    simpa [Expr.parts, Target.parts] using ⟨hbase, hrespects⟩
  | member ht hname hwhole ihwhole =>
    intro hbase _
    refine ihwhole hts.tail.tail (.of trivial ?_) rfl
    simpa [Expr.parts, Target.parts] using hbase
  | stepAfter ht => exact fun hbase _ => ⟨.of trivial hbase.parts, rfl⟩
  | literal ht => exact ⟨.of trivial (List.forall_mem_nil _), rfl⟩
  | name ht => exact ⟨.of trivial (List.forall_mem_nil _), rfl⟩
  | group ht hinner hclosing ihinner =>
    obtain ⟨hrespects, -⟩ := ihinner hts.tail (by decide)
    refine ⟨.of trivial ?_, rfl⟩
    simpa [Expr.parts] using hrespects
  | list ht helems ihelems => exact ⟨.of trivial (ihelems hts.tail), rfl⟩
  | object ht hentries ihentries => exact ⟨.of trivial (ihentries hts.tail), rfl⟩
  | noElements ht => exact List.forall_mem_nil _
  | element ht helem hcomma helems ihelem ihelems =>
    obtain ⟨hrespects, -⟩ := ihelem hts (by decide)
    exact List.forall_mem_cons.mpr ⟨hrespects, ihelems (hts.after helem.isSuffix)⟩
  | lastElement ht helem hcomma hclosing ihelem =>
    obtain ⟨hrespects, -⟩ := ihelem hts (by decide)
    exact List.forall_mem_singleton.mpr hrespects
  | noEntries ht => exact List.forall_mem_nil _
  | entry hkey hcolon hvalue hcomma hentries ihvalue ihentries =>
    obtain ⟨hrespects, -⟩ := ihvalue hts.tail.tail (by decide)
    exact List.forall_mem_cons.mpr ⟨hrespects, ihentries (hts.tail.tail.after hvalue.isSuffix)⟩
  | lastEntry hkey hcolon hvalue hclosing ihvalue =>
    obtain ⟨hrespects, -⟩ := ihvalue hts.tail.tail (by decide)
    exact List.forall_mem_singleton.mpr hrespects

/-- The tree that tokens stand for respects the levels of all operators, if no `;` stands directly
    before an operator that can only go on with an expression. -/
theorem respects_of_ofTokens {ts : List Token} {e : Expr} (h : ofTokens ts = .ok (some e))
    (hts : NothingJoined ts) : e.Respects := by
  have hread := ofTokens_eq_some_iff.mp h
  exact (leveled_of_reads hread hts (by decide)).1

/-- The tokens of `-2 ** 3; x = 1`. -/
def signedPower : List Token :=
  [⟨.binary (.arith .sub), "-", ⟨1, 1⟩⟩, ⟨.literal .int, "2", ⟨1, 2⟩⟩,
   ⟨.binary (.arith .pow), "**", ⟨1, 4⟩⟩, ⟨.literal .int, "3", ⟨1, 7⟩⟩,
   ⟨.binary .sequence, ";", ⟨1, 8⟩⟩, ⟨.identifier, "x", ⟨1, 10⟩⟩, ⟨.assign .plain, "=", ⟨1, 12⟩⟩,
   ⟨.literal .int, "1", ⟨1, 14⟩⟩]

/-- The sign applies to the power, and both statements are operands of the `;`. -/
def signedPowerTree : Expr :=
  .binary .sequence
    (.unary .minus
      (.binary (.arith .pow) (.literal 0 .int "2" ⟨1, 2⟩) (.literal 0 .int "3" ⟨1, 7⟩) ⟨1, 4⟩)
      ⟨1, 1⟩)
    (.assign .plain (.name "x" ⟨1, 10⟩) (.literal 0 .int "1" ⟨1, 14⟩) ⟨1, 12⟩) ⟨1, 8⟩

theorem respects_signedPowerTree :
    ofTokens signedPower = .ok (some signedPowerTree) ∧ NothingJoined signedPower ∧
      signedPowerTree.Respects := by
  have hread : ofTokens signedPower = .ok (some signedPowerTree) := by
    rw [ofTokens_eq_some_iff]
    have hpower : Reads (.level Level.power) (signedPower.drop 1)
        (.expr (.binary (.arith .pow) (.literal 0 .int "2" ⟨1, 2⟩) (.literal 0 .int "3" ⟨1, 7⟩)
          ⟨1, 4⟩))
        (signedPower.drop 4) := by
      refine .level (.operand rfl nofun (.suffixed (.literal rfl) (.detached rfl))) ?_
      refine .binary rfl (by decide) nofun ?_ (.stops (by decide))
      exact .level (.operand rfl nofun (.suffixed (.literal rfl) (.detached rfl)))
        (.stops (by decide))
    have hassign : Reads (.level (BinaryOp.rightLevel .sequence)) (signedPower.drop 5)
        (.expr (.assign .plain (.name "x" ⟨1, 10⟩) (.literal 0 .int "1" ⟨1, 14⟩) ⟨1, 12⟩)) [] := by
      refine .level (.operand rfl nofun (.suffixed (.name rfl) (.detached rfl))) ?_
      refine .assign rfl (by decide) ?_ .ended
      exact .level (.operand rfl nofun (.suffixed (.literal rfl) .unattached)) .ended
    exact .level (.unary rfl hpower) (.binary rfl (by decide) (fun _ => rfl) hassign .ended)
  have hjoined : NothingJoined signedPower := by
    unfold NothingJoined
    decide
  exact ⟨hread, hjoined, respects_of_ofTokens hread hjoined⟩

/-- The tokens of `1 + 2 ; * 3`. -/
def joinedAcross : List Token :=
  [⟨.literal .int, "1", ⟨1, 1⟩⟩, ⟨.binary (.arith .add), "+", ⟨1, 3⟩⟩,
   ⟨.literal .int, "2", ⟨1, 5⟩⟩, ⟨.binary .sequence, ";", ⟨1, 7⟩⟩,
   ⟨.binary (.arith .mul), "*", ⟨1, 9⟩⟩, ⟨.literal .int, "3", ⟨1, 11⟩⟩]

/-- The `;` is passed over, and the sum before it becomes a factor. -/
theorem not_respects_joinedAcross :
    ∃ e, ofTokens joinedAcross = .ok (some e) ∧ ¬ e.Respects := by
  refine ⟨.binary (.arith .mul)
    (.binary (.arith .add) (.literal 0 .int "1" ⟨1, 1⟩) (.literal 0 .int "2" ⟨1, 5⟩) ⟨1, 3⟩)
    (.literal 0 .int "3" ⟨1, 11⟩) ⟨1, 9⟩, ?_, ?_⟩
  · rw [ofTokens_eq_some_iff]
    refine .level (.operand rfl nofun (.suffixed (.literal rfl) (.detached rfl))) ?_
    have hsummand : Reads (.level (BinaryOp.rightLevel (.arith .add))) (joinedAcross.drop 2)
        (.expr (.literal 0 .int "2" ⟨1, 5⟩)) (joinedAcross.drop 3) :=
      .level (.operand rfl nofun (.suffixed (.literal rfl) (.detached rfl))) (.stops (by decide))
    refine .binary rfl (by decide) nofun hsummand (.terminator rfl (by decide) rfl ?_)
    have hfactor : Reads (.level (BinaryOp.rightLevel (.arith .mul))) (joinedAcross.drop 5)
        (.expr (.literal 0 .int "3" ⟨1, 11⟩)) [] :=
      .level (.operand rfl nofun (.suffixed (.literal rfl) .unattached)) .ended
    exact .binary rfl (by decide) nofun hfactor .ended
  · intro h
    obtain ⟨hle, -⟩ := h.fits
    exact absurd hle (by decide)

end Expr

end ExprLang
