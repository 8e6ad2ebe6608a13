import ExprLang.Engine
import ExprLang.Proofs.Grammar

/-!
# Reading by positions

Readers can also work on positions: they look at single tokens of the list they are given, hand
parts of it to one another, and say how many tokens they have used. Every such access can miss the
list, and loops over positions need not end. Here the readers are written that way, with everything
that can go wrong spelled out. They agree with the readers that take tokens from the front
(`Expr.indexed_readings`): no access misses the list, all loops end, and between one token and all
of them are used.
-/

namespace ExprLang.Expr

/-! ## Access to tokens -/

/-- What comes of reading by positions. -/
inductive Access (α : Type) where
  | ok (a : α)
  /-- The tokens are no expression. -/
  | refused (fault : Fault)
  /-- A token or a part is asked for that the list does not have. -/
  | outside
  /-- Reading has not come to an end. -/
  | unfinished

namespace Access

/-- Goes on with what has been read. -/
def andThen {α β : Type} (x : Access α) (f : α → Access β) : Access β :=
  match x with
  | .ok a => f a
  | .refused fault => .refused fault
  | .outside => .outside
  | .unfinished => .unfinished

instance : Monad Access where
  pure := ok
  bind := andThen

variable {α : Type}

/-- The token at a position. -/
def tokenAt (ts : List Token) (i : Nat) : Access Token :=
  match ts[i]? with
  | some t => .ok t
  | none => .outside

/-- The tokens from a position on. -/
def slice (ts : List Token) (i : Nat) : Access (List Token) :=
  if i ≤ ts.length then .ok (ts.drop i) else .outside

/-- The tokens before a position. -/
def front (ts : List Token) (i : Nat) : Access (List Token) :=
  if i ≤ ts.length then .ok (ts.take i) else .outside

/-- Refuses tokens that end before a position. If there are any, the last of them gives the
    place. -/
def guardEnd (ts : List Token) (i : Nat) : Access Unit :=
  if i < ts.length then .ok ()
  else if 0 < ts.length then do
    let last ← tokenAt ts (ts.length - 1)
    .refused (.atPos (.endOfInput (some last.lexeme)) last.pos)
  else .refused (.of (.endOfInput none))

/-- The token at a position, which has to be there. -/
def awaited (ts : List Token) (i : Nat) : Access Token := do
  guardEnd ts i
  tokenAt ts i

/-- Whether a token that can begin an expression stands at a position. -/
def beginsAt (ts : List Token) (i : Nat) : Access Bool :=
  if i < ts.length then do
    let t ← tokenAt ts i
    return t.kind.startsExpression
  else return false

/-- Hands the tokens from a position on to a reader. The answer is the position after those that the
    reader has used. -/
def readFrom (ts : List Token) (i : Nat) (reader : List Token → Access (α × Nat)) :
    Access (α × Nat) := do
  let part ← slice ts i
  let (a, used) ← reader part
  return (a, i + used)

/-- Hands the tokens from a position on to a reader, and there have to be some. -/
def awaitFrom (ts : List Token) (i : Nat) (reader : List Token → Access (α × Nat)) :
    Access (α × Nat) := do
  guardEnd ts i
  readFrom ts i reader

/-- Refuses the tokens. -/
def refuse (ts : List Token) (e : ParseError) : Access α := .refused (e.toFault ts)

end Access

/-! ## The readers -/

namespace Indexed

open Access

mutual

/-- Reads an expression whose operators all have at least the given level. -/
def level (fuel n : Nat) (ts : List Token) : Access (Expr × Nat) :=
  match fuel with
  | 0 => .unfinished
  | fuel + 1 => do
    let (first, i) ← unary fuel ts
    operators fuel n ts first i
termination_by structural fuel

/-- Goes on after `left` at a position. -/
def operators (fuel n : Nat) (ts : List Token) (left : Expr) (i : Nat) : Access (Expr × Nat) :=
  match fuel with
  | 0 => .unfinished
  | fuel + 1 =>
    if i < ts.length then do
      let op ← tokenAt ts i
      match op.kind.level? with
      | none => return (left, i)
      | some found =>
        if found < n then return (left, i)
        else
          match op.kind with
          | .binary .sequence => do
            if ← beginsAt ts (i + 1) then
              let (right, i) ← readFrom ts (i + 1) (level fuel (BinaryOp.rightLevel .sequence))
              operators fuel n ts (.binary .sequence left right op.pos) i
            else operators fuel n ts left (i + 1)
          | .binary operator => do
            let (right, i) ← awaitFrom ts (i + 1) (level fuel operator.rightLevel)
            operators fuel n ts (.binary operator left right op.pos) i
          | .assign operator =>
            match left.target? with
            | none => refuse ts (.invalidTarget op left)
            | some target => do
              let (value, i) ← awaitFrom ts (i + 1) (level fuel Level.assignment)
              operators fuel n ts (.assign operator target value op.pos) i
          | .question => do
            let (ifTrue, i) ← awaitFrom ts (i + 1) (level fuel Level.assignment)
            let colon ← awaited ts i
            if colon.kind = .colon then do
              let (ifFalse, i) ← awaitFrom ts (i + 1) (level fuel Level.conditional)
              operators fuel n ts (.conditional left ifTrue ifFalse op.pos) i
            else refuse ts (.unexpected colon)
          | _ => refuse ts (.unexpected op)
    else return (left, i)
termination_by structural fuel

/-- Reads an operand with the operators in front of it. -/
def unary (fuel : Nat) (ts : List Token) : Access (Expr × Nat) :=
  match fuel with
  | 0 => .unfinished
  | fuel + 1 => do
    let t ← awaited ts 0
    match unaryOp? t.kind with
    | some op => do
      let (operand, i) ← awaitFrom ts 1 (level fuel Level.power)
      return (.unary op operand t.pos, i)
    | none =>
      match t.kind with
      | .step op => do
        let (operand, i) ← awaitFrom ts 1 (suffixed fuel)
        match operand.target? with
        | none => refuse ts (.invalidTarget t operand)
        | some target => return (.stepBefore op target t.pos, i)
      | _ => suffixed fuel ts
termination_by structural fuel

/-- Reads a primary expression and all that is attached to it. -/
def suffixed (fuel : Nat) (ts : List Token) : Access (Expr × Nat) :=
  match fuel with
  | 0 => .unfinished
  | fuel + 1 => do
    let (base, i) ← primary fuel ts
    suffixes fuel ts base i
termination_by structural fuel

/-- Goes on after `base` at a position. -/
def suffixes (fuel : Nat) (ts : List Token) (base : Expr) (i : Nat) : Access (Expr × Nat) :=
  match fuel with
  | 0 => .unfinished
  | fuel + 1 =>
    if i < ts.length then do
      let t ← tokenAt ts i
      match t.kind with
      | .leftParen =>
        match base.target? with
        | none => refuse ts (.invalidCallee t base)
        | some callee => do
          let (args, i) ← readFrom ts (i + 1) fun part => elements fuel .rightParen part 0
          let used ← front ts i
          let first ← tokenAt ts 0
          suffixes fuel ts (.call callee args (Token.joined used) first.pos) i
      | .leftBracket => do
        let (index, i) ← awaitFrom ts (i + 1) (level fuel Level.lowest)
        let closing ← awaited ts i
        if closing.kind = .rightBracket then
          suffixes fuel ts (.ref (.index base index t.pos)) (i + 1)
        else refuse ts (.unexpected closing)
      | .dot => do
        let name ← awaited ts (i + 1)
        if name.kind = .identifier then
          suffixes fuel ts (.ref (.member base name.lexeme t.pos)) (i + 2)
        else refuse ts (.unexpected name)
      | .step op =>
        match base.target? with
        | none => refuse ts (.invalidTarget t base)
        | some target => return (.stepAfter op target t.pos, i + 1)
      | _ => return (base, i)
    else return (base, i)
termination_by structural fuel

/-- Reads a literal, a name, a group, a list or an object. -/
def primary (fuel : Nat) (ts : List Token) : Access (Expr × Nat) :=
  match fuel with
  | 0 => .unfinished
  | fuel + 1 => do
    let t ← awaited ts 0
    match t.kind with
    | .literal kind => return (.literal 0 kind t.lexeme t.pos, 1)
    | .identifier => return (.ref (.name t.lexeme t.pos), 1)
    | .leftParen => do
      let (inner, i) ← awaitFrom ts 1 (level fuel Level.lowest)
      let closing ← awaited ts i
      if closing.kind = .rightParen then return (.group inner t.pos, i + 1)
      else refuse ts (.unexpected closing)
    | .leftBracket => do
      let (elems, i) ← readFrom ts 1 fun part => elements fuel .rightBracket part 0
      return (.list elems t.pos, i)
    | .leftBrace => object fuel ts
    | _ => refuse ts (.unexpected t)
termination_by structural fuel

/-- Reads expressions with commas between them from a position on, up to and with the closing
    token. -/
def elements (fuel : Nat) (closer : Token.Kind) (ts : List Token) (i : Nat) :
    Access (List Expr × Nat) :=
  match fuel with
  | 0 => .unfinished
  | fuel + 1 => do
    let t ← awaited ts i
    if t.kind = closer then return ([], i + 1)
    else do
      let (elem, i) ← readFrom ts i (level fuel Level.lowest)
      let after ← awaited ts i
      if after.kind = .comma then do
        let (elems, i) ← elements fuel closer ts (i + 1)
        return (elem :: elems, i)
      else if after.kind = closer then return ([elem], i + 1)
      else refuse ts (.unexpected after)
termination_by structural fuel

/-- Reads an object, whose opening brace is the first token. -/
def object (fuel : Nat) (ts : List Token) : Access (Expr × Nat) :=
  match fuel with
  | 0 => .unfinished
  | fuel + 1 => do
    let opening ← tokenAt ts 0
    let (entries, i) ← entries fuel ts 1
    return (.object entries opening.pos, i)
termination_by structural fuel

/-- Reads the members of an object from a position on, up to and with the closing brace. -/
def entries (fuel : Nat) (ts : List Token) (i : Nat) : Access (List Entry × Nat) :=
  match fuel with
  | 0 => .unfinished
  | fuel + 1 => do
    let t ← awaited ts i
    if t.kind = .rightBrace then return ([], i + 1)
    else
      match key? t with
      | .error e => refuse ts e
      | .ok key => do
        let colon ← awaited ts (i + 1)
        if colon.kind = .colon then do
          let (value, i) ← awaitFrom ts (i + 2) (level fuel Level.lowest)
          let after ← awaited ts i
          if after.kind = .comma then do
            let (entries, i) ← entries fuel ts (i + 1)
            return (.mk key t.pos value :: entries, i)
          else if after.kind = .rightBrace then return ([.mk key t.pos value], i + 1)
          else refuse ts (.unexpected after)
        else refuse ts (.unexpected colon)
termination_by structural fuel

end

end Indexed

/-! ## Agreement -/

/-- What a reader has read, with what it leaves. -/
def parsedPair {α : Type} {ts : List Token} (p : Parsed α ts) : α × List Token := (p.value, p.rest)

/-- What a reader has gone on to, with what it leaves. -/
def continuedPair {α : Type} {ts : List Token} (p : Continued α ts) : α × List Token :=
  (p.value, p.rest)

/-- Reading by positions agrees with reading from the front. Where the one leaves some of the
    tokens, the other stops at the position at which they begin, and that is no less than the given
    one and inside of the list. Where the one fails, the other refuses the tokens with the same
    fault. -/
inductive Agrees {α ρ : Type} (ts : List Token) (least : Nat) (view : ρ → α × List Token) :
    Except ParseError ρ → Access (α × Nat) → Prop
  | read {r : ρ} {n : Nat} (hleast : least ≤ n) (hn : n ≤ ts.length)
    (hrest : (view r).2 = ts.drop n) : Agrees ts least view (.ok r) (.ok ((view r).1, n))
  | refused (e : ParseError) : Agrees ts least view (.error e) (.refused (e.toFault ts))

theorem eq_drop_succ {ts rest : List Token} {t : Token} {i : Nat} (h : t :: rest = ts.drop i) :
    rest = ts.drop (i + 1) := by
  rw [← List.drop_drop, ← h]
  rfl

theorem getElem?_of_drop {ts rest : List Token} {t : Token} {i : Nat} (h : t :: rest = ts.drop i) :
    ts[i]? = some t := by
  rw [← List.head?_drop, ← h]
  rfl

theorem lt_length_of_drop {ts rest : List Token} {t : Token} {i : Nat} (h : t :: rest = ts.drop i) :
    i < ts.length :=
  (List.getElem?_eq_some_iff.mp (getElem?_of_drop h)).1

theorem not_lt_length_of_drop {ts : List Token} {i : Nat} (h : [] = ts.drop i) : ¬ i < ts.length :=
  Nat.not_lt.mpr (List.drop_eq_nil_iff.mp h.symm)

/-- The fault at the end of some tokens is the same for all of their parts that are not empty. -/
theorem toFault_drop {ts rest : List Token} {t : Token} {i : Nat} (h : t :: rest = ts.drop i)
    (e : ParseError) : e.toFault (t :: rest) = e.toFault ts := by
  cases e with
  | ended =>
    have hlast : (t :: rest).getLast? = ts.getLast? := by
      rw [h, List.getLast?_drop, if_neg (Nat.not_le.mpr (lt_length_of_drop h))]
    simp only [ParseError.toFault, hlast]
  | _ => rfl

namespace Access

variable {α β : Type} {ts rest : List Token} {t : Token} {i : Nat}

theorem tokenAt_bind (h : t :: rest = ts.drop i) (f : Token → Access α) :
    tokenAt ts i >>= f = f t := by
  rw [tokenAt, getElem?_of_drop h]
  rfl

theorem guardEnd_bind (h : i < ts.length) (f : Unit → Access α) : guardEnd ts i >>= f = f () := by
  rw [guardEnd, if_pos h]
  rfl

theorem guardEnd_of_nil (h : [] = ts.drop i) :
    guardEnd ts i = .refused (ParseError.ended.toFault ts) := by
  rw [guardEnd, if_neg (not_lt_length_of_drop h), ParseError.toFault, List.getLast?_eq_getElem?]
  cases ts with
  | nil => rfl
  | cons first others =>
    have hpos : 0 < (first :: others).length := Nat.succ_pos _
    rw [if_pos hpos, tokenAt, List.getElem?_eq_getElem (Nat.sub_one_lt_of_lt hpos)]
    rfl

theorem awaited_bind (h : t :: rest = ts.drop i) (f : Token → Access α) :
    awaited ts i >>= f = f t := by
  rw [awaited, guardEnd_bind (lt_length_of_drop h), tokenAt_bind h]

theorem front_bind (hi : i ≤ ts.length) (f : List Token → Access α) :
    front ts i >>= f = f (ts.take i) := by
  rw [front, if_pos hi]
  rfl

theorem beginsAt_bind (h : rest = ts.drop i) (f : Bool → Access α) :
    beginsAt ts i >>= f = f (rest.head?.any fun t => t.kind.startsExpression) := by
  cases rest with
  | nil =>
    rw [beginsAt, if_neg (not_lt_length_of_drop h)]
    rfl
  | cons t rest =>
    rw [beginsAt, if_pos (lt_length_of_drop h), tokenAt_bind h]
    rfl

end Access

theorem parseLevel_nil (n : Nat) : parseLevel n [] = .error .ended := by
  rw [parseLevel, parseUnary]
  rfl

theorem parseSuffixed_nil : parseSuffixed [] = .error .ended := by
  rw [parseSuffixed, parsePrimary]
  rfl

namespace Agrees

variable {α β ρ σ : Type} {ts : List Token} {least least' : Nat} {view : ρ → α × List Token}
  {view' : σ → β × List Token} {x : Except ParseError ρ} {y : Access (α × Nat)}

theorem bind (h : Agrees ts least view x y) {f : ρ → Except ParseError σ}
    {g : α × Nat → Access (β × Nat)}
    (hstep : ∀ r n, least ≤ n → n ≤ ts.length → (view r).2 = ts.drop n →
      Agrees ts least' view' (f r) (g ((view r).1, n))) :
    Agrees ts least' view' (x >>= f) (y >>= g) := by
  cases h with
  | read hleast hn hrest => exact hstep _ _ hleast hn hrest
  | refused e => exact .refused e

/-- What has been read is put into something else. -/
theorem map (h : Agrees ts least view x y) {f : ρ → σ} (g : α → β)
    (hf : ∀ r, view' (f r) = (g (view r).1, (view r).2)) (hle : least' ≤ least) :
    Agrees ts least' view' (x >>= fun r => pure (f r)) (y >>= fun p => pure (g p.1, p.2)) := by
  refine h.bind ?_
  intro r n hleast hn hrest
  have hread : Agrees ts least' view' (.ok (f r)) (.ok ((view' (f r)).1, n)) :=
    .read (Nat.le_trans hle hleast) hn (by rw [hf r, hrest])
  rwa [hf r] at hread

/-- What has been read may be packed anew. -/
theorem repack (h : Agrees ts least view x y) {view' : σ → α × List Token} {f : ρ → σ}
    (hf : ∀ r, view' (f r) = view r) (hle : least' ≤ least) :
    Agrees ts least' view' (x >>= fun r => pure (f r)) y := by
  cases h with
  | @read r n hleast hn hrest =>
    rw [← hf r]
    exact .read (Nat.le_trans hle hleast) hn (by rw [hf r, hrest])
  | refused e => exact .refused e

theorem eq_refused {e : ParseError} (h : Agrees ts least view (.error e) y) :
    y = .refused (e.toFault ts) := by
  cases h
  rfl

theorem map_view_eq {a : α} {n : Nat} (h : Agrees ts least view x (.ok (a, n))) :
    x.map view = .ok (a, ts.drop n) := by
  generalize hy : Access.ok (a, n) = y at h
  cases h with
  | @read r n' hleast hn hrest =>
    cases hy
    rw [← hrest]
    rfl
  | refused e => cases hy

variable {rest : List Token} {i : Nat} {reader : List Token → Access (α × Nat)}

theorem readFrom {t : Token} (hrest : t :: rest = ts.drop i)
    (h : Agrees (t :: rest) 1 view x (reader (t :: rest))) :
    Agrees ts (i + 1) view x (Access.readFrom ts i reader) := by
  have hi := lt_length_of_drop hrest
  rw [Access.readFrom, Access.slice, if_pos (Nat.le_of_lt hi), ← hrest]
  change Agrees ts (i + 1) view x (reader (t :: rest) >>= fun p => .ok (p.1, i + p.2))
  generalize reader (t :: rest) = y at h ⊢
  cases h with
  | @read r n hleast hn hr =>
    have hlength : (t :: rest).length = ts.length - i := by rw [hrest, List.length_drop]
    refine .read (Nat.add_le_add_left hleast i) (by omega) ?_
    rw [hr, hrest, List.drop_drop]
  | refused e =>
    rw [toFault_drop hrest]
    exact .refused e

theorem awaitFrom (hrest : rest = ts.drop i) (hnil : rest = [] → x = .error .ended)
    (h : Agrees rest 1 view x (reader rest)) :
    Agrees ts (i + 1) view x (Access.awaitFrom ts i reader) := by
  cases rest with
  | nil =>
    rw [hnil rfl, Access.awaitFrom, Access.guardEnd_of_nil hrest]
    exact .refused .ended
  | cons t rest =>
    rw [Access.awaitFrom, Access.guardEnd_bind (lt_length_of_drop hrest)]
    exact readFrom hrest h

/-- Where a token is due and the tokens have come to an end. -/
theorem awaited_of_nil (h : [] = ts.drop i) (g : Token → Access (α × Nat)) :
    Agrees ts least view (.error .ended) (Access.awaited ts i >>= g) := by
  rw [Access.awaited, Access.guardEnd_of_nil h]
  exact .refused .ended

end Agrees

/-- Reading by positions agrees with reading from the front if it is given this much time. The time
    that is needed goes down by what is left of the tokens. -/
structure AgreesWithin (fuel : Nat) : Prop where
  level (n : Nat) (ts : List Token) : 8 * ts.length + 5 < fuel →
    Agrees ts 1 parsedPair (parseLevel n ts) (Indexed.level fuel n ts)
  operators (n : Nat) (left : Expr) (ts rest : List Token) (i : Nat) : rest = ts.drop i →
    i ≤ ts.length → 8 * rest.length + 4 < fuel →
    Agrees ts i continuedPair (parseOperators n left rest) (Indexed.operators fuel n ts left i)
  unary (ts : List Token) : 8 * ts.length + 3 < fuel →
    Agrees ts 1 parsedPair (parseUnary ts) (Indexed.unary fuel ts)
  suffixed (ts : List Token) : 8 * ts.length + 2 < fuel →
    Agrees ts 1 parsedPair (parseSuffixed ts) (Indexed.suffixed fuel ts)
  suffixes (base : Expr) (ts rest : List Token) (i : Nat) : rest = ts.drop i → i ≤ ts.length →
    8 * rest.length + 1 < fuel →
    Agrees ts i continuedPair (parseSuffixes ts base rest) (Indexed.suffixes fuel ts base i)
  primary (ts : List Token) : 8 * ts.length + 1 < fuel →
    Agrees ts 1 parsedPair (parsePrimary ts) (Indexed.primary fuel ts)
  elements (closer : Token.Kind) (ts rest : List Token) (i : Nat) : rest = ts.drop i →
    8 * rest.length + 6 < fuel →
    Agrees ts (i + 1) parsedPair (parseElements closer rest) (Indexed.elements fuel closer ts i)
  object (t : Token) (ts : List Token) : t.kind = .leftBrace → 8 * ts.length + 7 < fuel →
    Agrees (t :: ts) 1 parsedPair (parsePrimary (t :: ts)) (Indexed.object fuel (t :: ts))
  entries (ts rest : List Token) (i : Nat) : rest = ts.drop i → 8 * rest.length + 6 < fuel →
    Agrees ts (i + 1) parsedPair (parseEntries rest) (Indexed.entries fuel ts i)

namespace AgreesWithin

variable {fuel : Nat} (ih : AgreesWithin fuel)
include ih

theorem level_succ (n : Nat) (ts : List Token) (hfuel : 8 * ts.length + 5 < fuel + 1) :
    Agrees ts 1 parsedPair (parseLevel n ts) (Indexed.level (fuel + 1) n ts) := by
  rw [parseLevel, Indexed.level]
  refine (ih.unary ts (by omega)).bind ?_
  intro first i hone hi hrest
  have hshorter := first.shorter
  exact (ih.operators n first.value ts first.rest i hrest hi (by omega)).repack
    (fun _ => rfl) hone

/-- More operators after an operand, which is put into a whole with what stands before it. -/
theorem operators_after {ts mid rest : List Token} {x : Except ParseError (Parsed Expr mid)}
    {y : Access (Expr × Nat)} {i j : Nat} (h : Agrees ts j parsedPair x y) (hij : i ≤ j)
    (hmid : 8 * mid.length ≤ fuel + 3) (n : Nat) (whole : Expr → Expr)
    (hlength : ∀ (right : Parsed Expr mid) (w : Continued Expr right.rest),
      w.rest.length ≤ rest.length) :
    Agrees ts i continuedPair
      (x >>= fun right => parseOperators n (whole right.value) right.rest >>= fun w =>
        pure (⟨w.value, w.rest, hlength right w⟩ : Continued Expr rest))
      (y >>= fun p => Indexed.operators fuel n ts (whole p.1) p.2) := by
  refine h.bind ?_
  intro right k hjk hk hrest
  have hshorter := right.shorter
  exact (ih.operators n (whole right.value) ts right.rest k hrest hk (by omega)).repack
    (fun _ => rfl) (Nat.le_trans hij hjk)

theorem awaitLevel {ts rest : List Token} {i : Nat} (hrest : rest = ts.drop i) (n : Nat)
    (hfuel : 8 * rest.length + 5 < fuel) :
    Agrees ts (i + 1) parsedPair (parseLevel n rest)
      (Access.awaitFrom ts i (Indexed.level fuel n)) := by
  refine .awaitFrom hrest ?_ (ih.level n rest hfuel)
  rintro rfl
  exact parseLevel_nil n

theorem operators_succ (n : Nat) (left : Expr) (ts rest : List Token) (i : Nat)
    (hrest : rest = ts.drop i) (hi : i ≤ ts.length) (hfuel : 8 * rest.length + 4 < fuel + 1) :
    Agrees ts i continuedPair (parseOperators n left rest)
      (Indexed.operators (fuel + 1) n ts left i) := by
  rw [Indexed.operators]
  cases rest with
  | nil =>
    rw [parseOperators, if_neg (not_lt_length_of_drop hrest)]
    exact .read (Nat.le_refl i) hi hrest
  | cons op rest =>
    have hstop : Agrees ts i continuedPair (.ok ⟨left, op :: rest, Nat.le_refl _⟩)
        (.ok (left, i)) :=
      .read (Nat.le_refl i) hi hrest
    have hafter := eq_drop_succ hrest
    rw [List.length_cons] at hfuel
    rw [parseOperators, if_pos (lt_length_of_drop hrest), Access.tokenAt_bind hrest]
    cases hlevel : op.kind.level? with
    | none => exact hstop
    | some found =>
      by_cases hn : found < n
      · simp only [if_pos hn]
        exact hstop
      · simp only [if_neg hn]
        have hright (n' : Nat) := ih.awaitLevel hafter n' (by omega)
        have hmid : 8 * rest.length ≤ fuel + 3 := by omega
        have hi' : i ≤ i + 2 := by omega
        cases hkind : op.kind with
        | binary operator =>
          cases operator with
          | sequence =>
            simp only [Access.beginsAt_bind hafter]
            split
            · next hbegins =>
              obtain ⟨t, rest, rfl⟩ : ∃ t others, rest = t :: others := by
                cases rest with
                | nil => cases hbegins
                | cons t others => exact ⟨t, others, rfl⟩
              exact ih.operators_after (.readFrom hafter (ih.level _ _ (by omega))) hi' hmid n
                (binary .sequence left · op.pos) _
            · refine (ih.operators n left ts rest (i + 1) hafter ?_ (by omega)).repack
                (fun _ => rfl) (Nat.le_succ i)
              exact lt_length_of_drop hrest
          | arith | order | equality | logic =>
            exact ih.operators_after (hright _) hi' hmid n (binary _ left · op.pos) _
        | assign operator =>
          cases left.target? with
          | none => exact .refused _
          | some target =>
            exact ih.operators_after (hright _) hi' hmid n (assign operator target · op.pos) _
        | question =>
          refine (hright _).bind ?_
          rintro ⟨ifTrue, mid, hshorter⟩ j hij hj hmid
          cases mid with
          | nil => exact .awaited_of_nil hmid _
          | cons colon mid =>
            rw [List.length_cons] at hshorter
            simp only [Access.awaited_bind hmid]
            by_cases hcolon : colon.kind = .colon
            · simp only [if_pos hcolon]
              exact ih.operators_after (ih.awaitLevel (eq_drop_succ hmid) _ (by omega)) (by omega)
                (by omega) n (conditional left ifTrue · op.pos) _
            · simp only [if_neg hcolon]
              exact .refused _
        | _ => exact .refused _

theorem unary_succ (ts : List Token) (hfuel : 8 * ts.length + 3 < fuel + 1) :
    Agrees ts 1 parsedPair (parseUnary ts) (Indexed.unary (fuel + 1) ts) := by
  rw [Indexed.unary]
  cases ts with
  | nil =>
    rw [parseUnary]
    exact .awaited_of_nil rfl _
  | cons t rest =>
    have hfirst : t :: rest = (t :: rest).drop 0 := rfl
    have hrest : rest = (t :: rest).drop 1 := rfl
    have hwhole := ih.suffixed (t :: rest) (by omega)
    rw [List.length_cons] at hfuel
    rw [parseUnary, Access.awaited_bind hfirst]
    cases hop : unaryOp? t.kind with
    | some op =>
      exact (ih.awaitLevel hrest _ (by omega)).map (Expr.unary op · t.pos) (fun _ => rfl) (by omega)
    | none =>
      cases hkind : t.kind with
      | step op =>
        have hoperand := Agrees.awaitFrom hrest (x := parseSuffixed rest)
          (fun hnil => by subst hnil; exact parseSuffixed_nil) (ih.suffixed rest (by omega))
        refine hoperand.bind ?_
        rintro ⟨operand, mid, hshorter⟩ j hij hj hmid
        dsimp only [parsedPair] at hmid ⊢
        cases operand.target? with
        | none => exact .refused _
        | some target => exact .read (by omega) hj hmid
      | _ => exact hwhole

theorem suffixed_succ (ts : List Token) (hfuel : 8 * ts.length + 2 < fuel + 1) :
    Agrees ts 1 parsedPair (parseSuffixed ts) (Indexed.suffixed (fuel + 1) ts) := by
  rw [parseSuffixed, Indexed.suffixed]
  refine (ih.primary ts (by omega)).bind ?_
  intro base i hone hi hrest
  have hshorter := base.shorter
  exact (ih.suffixes base.value ts base.rest i hrest hi (by omega)).repack (fun _ => rfl) hone

theorem elements_succ (closer : Token.Kind) (ts rest : List Token) (i : Nat)
    (hrest : rest = ts.drop i) (hfuel : 8 * rest.length + 6 < fuel + 1) :
    Agrees ts (i + 1) parsedPair (parseElements closer rest)
      (Indexed.elements (fuel + 1) closer ts i) := by
  rw [Indexed.elements]
  cases rest with
  | nil =>
    rw [parseElements]
    exact .awaited_of_nil hrest _
  | cons t rest =>
    have helem := Agrees.readFrom hrest (ih.level Level.lowest _ (by omega))
    rw [List.length_cons] at hfuel
    rw [parseElements, Access.awaited_bind hrest]
    by_cases hcloser : t.kind = closer
    · simp only [if_pos hcloser]
      exact .read (Nat.le_refl _) (lt_length_of_drop hrest) (eq_drop_succ hrest)
    · simp only [if_neg hcloser]
      refine helem.bind ?_
      rintro ⟨elem, mid, hshorter⟩ j hij hj hmid
      cases mid with
      | nil => exact .awaited_of_nil hmid _
      | cons after others =>
        rw [List.length_cons, List.length_cons] at hshorter
        have hothers := eq_drop_succ hmid
        have hj' := lt_length_of_drop hmid
        simp only [Access.awaited_bind hmid]
        by_cases hcomma : after.kind = .comma
        · simp only [if_pos hcomma]
          exact (ih.elements closer ts others (j + 1) hothers (by omega)).map (elem :: ·)
            (fun _ => rfl) (by omega)
        · simp only [if_neg hcomma]
          by_cases hclosing : after.kind = closer
          · simp only [if_pos hclosing]
            exact .read (by omega) hj' hothers
          · simp only [if_neg hclosing]
            exact .refused _

theorem entries_succ (ts rest : List Token) (i : Nat) (hrest : rest = ts.drop i)
    (hfuel : 8 * rest.length + 6 < fuel + 1) :
    Agrees ts (i + 1) parsedPair (parseEntries rest) (Indexed.entries (fuel + 1) ts i) := by
  rw [Indexed.entries]
  cases rest with
  | nil =>
    rw [parseEntries]
    exact .awaited_of_nil hrest _
  | cons t rest =>
    rw [List.length_cons] at hfuel
    have hafter := eq_drop_succ hrest
    rw [parseEntries, Access.awaited_bind hrest]
    by_cases hbrace : t.kind = .rightBrace
    · simp only [if_pos hbrace]
      exact .read (Nat.le_refl _) (lt_length_of_drop hrest) (eq_drop_succ hrest)
    · simp only [if_neg hbrace]
      cases hkey : key? t with
      | error e => exact .refused e
      | ok key =>
        cases rest with
        | nil => exact .awaited_of_nil hafter _
        | cons colon rest =>
          simp only [List.length_cons] at hfuel
          have hvalue := ih.awaitLevel (eq_drop_succ hafter) Level.lowest (by omega)
          simp only [ok_bind, Access.awaited_bind hafter]
          by_cases hcolon : colon.kind = .colon
          · simp only [if_pos hcolon]
            refine hvalue.bind ?_
            rintro ⟨value, mid, hshorter⟩ j hij hj hmid
            cases mid with
            | nil => exact .awaited_of_nil hmid _
            | cons after others =>
              rw [List.length_cons] at hshorter
              have hothers := eq_drop_succ hmid
              have hj' := lt_length_of_drop hmid
              simp only [Access.awaited_bind hmid]
              by_cases hcomma : after.kind = .comma
              · simp only [if_pos hcomma]
                exact (ih.entries ts others (j + 1) hothers (by omega)).map
                  (Entry.mk key t.pos value :: ·) (fun _ => rfl) (by omega)
              · simp only [if_neg hcomma]
                by_cases hclosing : after.kind = .rightBrace
                · simp only [if_pos hclosing]
                  exact .read (by omega) hj' hothers
                · simp only [if_neg hclosing]
                  exact .refused _
          · simp only [if_neg hcolon]
            exact .refused _

theorem object_succ (t : Token) (ts : List Token) (ht : t.kind = .leftBrace)
    (hfuel : 8 * ts.length + 7 < fuel + 1) :
    Agrees (t :: ts) 1 parsedPair (parsePrimary (t :: ts))
      (Indexed.object (fuel + 1) (t :: ts)) := by
  have hfirst : t :: ts = (t :: ts).drop 0 := rfl
  rw [parsePrimary, Indexed.object, Access.tokenAt_bind hfirst]
  simp only [ht]
  exact (ih.entries (t :: ts) ts 1 rfl (by omega)).map (Expr.object · t.pos) (fun _ => rfl)
    (by omega)

/-- The elements of a list or of arguments from the first token on. If there is none, there is none
    to take a place from either. -/
theorem arguments (closer : Token.Kind) (ts : List Token) (hfuel : 8 * ts.length + 6 < fuel) :
    Agrees ts 1 parsedPair (parseArguments closer ts) (Indexed.elements fuel closer ts 0) := by
  have helements := ih.elements closer ts ts 0 rfl hfuel
  cases ts with
  | nil =>
    rw [parseElements] at helements
    rw [parseArguments, helements.eq_refused]
    exact .refused .endedAtOpening
  | cons t ts =>
    rw [parseArguments]
    exact helements

theorem readArguments {ts rest : List Token} {i : Nat} (hrest : rest = ts.drop i)
    (hi : i ≤ ts.length) (closer : Token.Kind) (hfuel : 8 * rest.length + 6 < fuel) :
    Agrees ts (i + 1) parsedPair (parseArguments closer rest)
      (Access.readFrom ts i fun part => Indexed.elements fuel closer part 0) := by
  have hargs := ih.arguments closer rest hfuel
  cases rest with
  | nil =>
    rw [parseArguments] at hargs ⊢
    rw [Access.readFrom, Access.slice, if_pos hi, ← hrest]
    change Agrees ts (i + 1) parsedPair _ (Indexed.elements fuel closer [] 0 >>= _)
    rw [hargs.eq_refused]
    exact .refused .endedAtOpening
  | cons t rest => exact .readFrom hrest hargs

theorem primary_succ (ts : List Token) (hfuel : 8 * ts.length + 1 < fuel + 1) :
    Agrees ts 1 parsedPair (parsePrimary ts) (Indexed.primary (fuel + 1) ts) := by
  rw [Indexed.primary]
  cases ts with
  | nil =>
    rw [parsePrimary]
    exact .awaited_of_nil rfl _
  | cons t rest =>
    have hfirst : t :: rest = (t :: rest).drop 0 := rfl
    have hrest : rest = (t :: rest).drop 1 := rfl
    have hone : 1 ≤ (t :: rest).length := Nat.succ_le_succ (Nat.zero_le _)
    rw [List.length_cons] at hfuel
    rw [Access.awaited_bind hfirst]
    unfold parsePrimary
    cases hkind : t.kind with
    | leftBrace =>
      simpa only [parsePrimary, hkind] using ih.object t rest hkind (by omega)
    | leftParen =>
      refine (ih.awaitLevel hrest _ (by omega)).bind ?_
      rintro ⟨inner, mid, hshorter⟩ j hij hj hmid
      cases mid with
      | nil => exact .awaited_of_nil hmid _
      | cons closing mid =>
        simp only [Access.awaited_bind hmid]
        by_cases hclosing : closing.kind = .rightParen
        · simp only [if_pos hclosing]
          exact .read (by omega) (lt_length_of_drop hmid) (eq_drop_succ hmid)
        · simp only [if_neg hclosing]
          exact .refused _
    | leftBracket =>
      exact (ih.readArguments hrest hone _ (by omega)).map (Expr.list · t.pos) (fun _ => rfl)
        (by omega)
    | literal kind =>
      exact .read (Nat.le_refl 1) hone hrest
    | identifier =>
      exact .read (Nat.le_refl 1) hone hrest
    | _ => exact .refused _

theorem suffixes_succ (base : Expr) (ts rest : List Token) (i : Nat) (hrest : rest = ts.drop i)
    (hi : i ≤ ts.length) (hfuel : 8 * rest.length + 1 < fuel + 1) :
    Agrees ts i continuedPair (parseSuffixes ts base rest)
      (Indexed.suffixes (fuel + 1) ts base i) := by
  rw [Indexed.suffixes]
  cases rest with
  | nil =>
    rw [parseSuffixes, if_neg (not_lt_length_of_drop hrest)]
    exact .read (Nat.le_refl i) hi hrest
  | cons t rest =>
    have hafter := eq_drop_succ hrest
    have hi' := lt_length_of_drop hrest
    rw [List.length_cons] at hfuel
    rw [if_pos hi', Access.tokenAt_bind hrest]
    unfold parseSuffixes
    cases hkind : t.kind with
    | leftParen =>
      cases base.target? with
      | none => exact .refused _
      | some callee =>
        refine (ih.readArguments hafter hi' _ (by omega)).bind ?_
        rintro ⟨args, mid, hshorter⟩ j hij hj hmid
        obtain ⟨first, others, hts⟩ :=
          List.exists_cons_of_length_pos (Nat.lt_of_le_of_lt (Nat.zero_le i) hi')
        have hmid' : mid = ts.drop j := hmid
        have hlength : ts.length - mid.length = j := by
          rw [hmid', List.length_drop]
          omega
        have hpos : (ts.head?.map Token.pos).getD t.pos = first.pos := by
          rw [hts]
          rfl
        simp only [Access.front_bind hj, Access.tokenAt_bind (i := 0) hts.symm, hlength, hpos]
        exact (ih.suffixes _ ts mid j hmid hj (by omega)).repack (fun _ => rfl) (by omega)
    | leftBracket =>
      refine (ih.awaitLevel hafter _ (by omega)).bind ?_
      rintro ⟨index, mid, hshorter⟩ j hij hj hmid
      cases mid with
      | nil => exact .awaited_of_nil hmid _
      | cons closing mid =>
        rw [List.length_cons] at hshorter
        simp only [Access.awaited_bind hmid]
        by_cases hclosing : closing.kind = .rightBracket
        · simp only [if_pos hclosing]
          exact (ih.suffixes _ ts mid (j + 1) (eq_drop_succ hmid) (lt_length_of_drop hmid)
            (by omega)).repack (fun _ => rfl) (by omega)
        · simp only [if_neg hclosing]
          exact .refused _
    | dot =>
      cases rest with
      | nil =>
        exact .awaited_of_nil hafter _
      | cons name rest =>
        rw [List.length_cons] at hfuel
        simp only [Access.awaited_bind hafter]
        by_cases hname : name.kind = .identifier
        · simp only [if_pos hname]
          exact (ih.suffixes _ ts rest (i + 2) (eq_drop_succ hafter) (lt_length_of_drop hafter)
            (by omega)).repack (fun _ => rfl) (by omega)
        · simp only [if_neg hname]
          exact .refused _
    | step op =>
      cases base.target? with
      | none => exact .refused _
      | some target => exact .read (Nat.le_succ i) hi' hafter
    | _ => exact .read (Nat.le_refl i) hi hrest

end AgreesWithin

theorem agreesWithin (fuel : Nat) : AgreesWithin fuel := by
  induction fuel with
  | zero => constructor <;> intros <;> omega
  | succ fuel ih =>
    exact
      { level := ih.level_succ
        operators := ih.operators_succ
        unary := ih.unary_succ
        suffixed := ih.suffixed_succ
        suffixes := ih.suffixes_succ
        primary := ih.primary_succ
        elements := ih.elements_succ
        object := ih.object_succ
        entries := ih.entries_succ }

/-- On every list of tokens, and in a time that grows with its length, the readers by positions come
    to an end without ever leaving the list. Each of them does what the reader from the front does:
    it stops after at least one token and at most all of them, where the other leaves what follows,
    or it refuses the tokens with the same fault. The reader of objects is only asked where a brace
    opens one. -/
theorem indexed_readings {fuel : Nat} (ts : List Token) (hfuel : 8 * ts.length + 6 < fuel) :
    (∀ n, Agrees ts 1 parsedPair (parseLevel n ts) (Indexed.level fuel n ts)) ∧
      Agrees ts 1 parsedPair (parseUnary ts) (Indexed.unary fuel ts) ∧
      Agrees ts 1 parsedPair (parseSuffixed ts) (Indexed.suffixed fuel ts) ∧
      Agrees ts 1 parsedPair (parsePrimary ts) (Indexed.primary fuel ts) ∧
      (∀ closer, Agrees ts 1 parsedPair (parseArguments closer ts)
        (Indexed.elements fuel closer ts 0)) ∧
      (ts.head?.map Token.kind = some .leftBrace →
        Agrees ts 1 parsedPair (parsePrimary ts) (Indexed.object fuel ts)) := by
  have hwithin := agreesWithin fuel
  refine ⟨?_, hwithin.unary ts (by omega), hwithin.suffixed ts (by omega),
    hwithin.primary ts (by omega), ?_, ?_⟩
  · intro n
    exact hwithin.level n ts (by omega)
  · intro closer
    exact hwithin.arguments closer ts hfuel
  · intro hbrace
    cases ts with
    | nil => cases hbrace
    | cons t ts =>
      rw [List.length_cons] at hfuel
      exact hwithin.object t ts (Option.some.inj hbrace) (by omega)

/-- The tokens of an object with a list in it, and a terminator. -/
def listObject : List Token :=
  [⟨.leftBrace, "\x7b", ⟨1, 1⟩⟩, ⟨.identifier, "a", ⟨1, 2⟩⟩, ⟨.colon, ":", ⟨1, 3⟩⟩,
    ⟨.leftBracket, "[", ⟨1, 5⟩⟩, ⟨.identifier, "b", ⟨1, 6⟩⟩, ⟨.dot, ".", ⟨1, 7⟩⟩,
    ⟨.identifier, "c", ⟨1, 8⟩⟩, ⟨.comma, ",", ⟨1, 9⟩⟩, ⟨.rightBracket, "]", ⟨1, 10⟩⟩,
    ⟨.rightBrace, "\x7d", ⟨1, 11⟩⟩, ⟨.binary .sequence, ";", ⟨1, 12⟩⟩]

/-- The object that these tokens begin with. -/
def listObjectTree : Expr :=
  .object [.mk "a" ⟨1, 2⟩ (.list [.ref (.member (.ref (.name "b" ⟨1, 6⟩)) "c" ⟨1, 7⟩)] ⟨1, 5⟩)]
    ⟨1, 1⟩

/-- All tokens but the terminator are used. -/
theorem indexed_readings_listObject :
    8 * listObject.length + 6 < 95 ∧
      listObject.head?.map Token.kind = some .leftBrace ∧
      Indexed.object 95 listObject = .ok (listObjectTree, 10) ∧
      (parsePrimary listObject).map parsedPair = .ok (listObjectTree, listObject.drop 10) := by
  have hfuel : 8 * listObject.length + 6 < 95 := by decide
  have hbrace : listObject.head?.map Token.kind = some .leftBrace := rfl
  have hobject : Indexed.object 95 listObject = .ok (listObjectTree, 10) := rfl
  obtain ⟨-, -, -, -, -, hagrees⟩ := indexed_readings listObject hfuel
  have hread := hagrees hbrace
  rw [hobject] at hread
  exact ⟨hfuel, hbrace, hobject, hread.map_view_eq⟩

end ExprLang.Expr
