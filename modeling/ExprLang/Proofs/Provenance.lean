import ExprLang.Engine
import ExprLang.Proofs.FaultPlaces
import ExprLang.Proofs.Spelling

/-!
# Where the parts of a tree come from

The tokens of a tree can be read back from it in order (`Expr.leaves`). What the readers were given
is these tokens and nothing else, but for commas that end a list or an object and for each `;` that
no expression follows (`Covers`). Every node of the tree has a stretch of the tokens to itself,
which its place is taken from and, if it is a call, its text. `Program.leaves_of_ofTokens` says all
this of every list of tokens that is accepted.
-/

namespace ExprLang

/-- What a token is to the tree that it is read into. -/
inductive Leaf where
  /-- A token of a fixed spelling. -/
  | fixed (kind : Token.Kind)
  /-- The token that closes a list, arguments or an object. -/
  | closing (kind : Token.Kind)
  | name (lexeme : String)
  | literal (kind : LiteralKind) (lexeme : String)
  /-- The key of a member: what it stands for, and the place of the member. -/
  | key (text : String) (pos : Position)
  deriving DecidableEq, Repr

/-- A token is what a leaf says. Keys are compared by the text that they stand for. -/
def Leaf.Matches (t : Token) : Leaf → Prop
  | .fixed kind | .closing kind => t.kind = kind
  | .name lexeme => t.kind = .identifier ∧ t.lexeme = lexeme
  | .literal kind lexeme => t.kind = .literal kind ∧ t.lexeme = lexeme
  | .key text pos =>
    t.pos = pos ∧
      ((t.kind = .identifier ∨ t.kind = .literal .int) ∧ t.lexeme = text ∨
        t.kind = .literal .text ∧ Text.decode t.lexeme = .ok text)

/-- Leaves with commas between those of each part and the next. -/
def Leaf.listed (parts : List (List Leaf)) : List Leaf := [Leaf.fixed .comma].intercalate parts

mutual

/-- The leaves of a target, from left to right. -/
@[simp]
def Target.leaves : Target → List Leaf
  | .name name _ => [.name name]
  | .index base index _ =>
    base.leaves ++ .fixed .leftBracket :: (index.leaves ++ [.fixed .rightBracket])
  | .member base name _ => base.leaves ++ [.fixed .dot, .name name]

/-- The leaves of an expression, from left to right. -/
@[simp]
def Expr.leaves : Expr → List Leaf
  | .literal _ kind lexeme _ => [.literal kind lexeme]
  | .ref target => target.leaves
  | .call callee args _ _ =>
    callee.leaves ++ .fixed .leftParen :: (Leaf.listed (Expr.leavesOfAll args)
      ++ [.closing .rightParen])
  | .list elems _ =>
    .fixed .leftBracket :: (Leaf.listed (Expr.leavesOfAll elems) ++ [.closing .rightBracket])
  | .object entries _ =>
    .fixed .leftBrace :: (Leaf.listed (Expr.leavesOfEntries entries) ++ [.closing .rightBrace])
  | .group inner _ => .fixed .leftParen :: (inner.leaves ++ [.fixed .rightParen])
  | .unary op operand _ => .fixed op.kind :: operand.leaves
  | .stepBefore op target _ => .fixed (.step op) :: target.leaves
  | .stepAfter op target _ => target.leaves ++ [.fixed (.step op)]
  | .binary op left right _ => left.leaves ++ .fixed (.binary op) :: right.leaves
  | .conditional test ifTrue ifFalse _ =>
    test.leaves ++ .fixed .question :: (ifTrue.leaves ++ .fixed .colon :: ifFalse.leaves)
  | .assign op target value _ => target.leaves ++ .fixed (.assign op) :: value.leaves

/-- The leaves of a member: its key, a colon and its value. -/
@[simp]
def Entry.leaves : Entry → List Leaf
  | .mk key pos value => .key key pos :: .fixed .colon :: value.leaves

/-- The leaves of each of some expressions. -/
@[simp]
def Expr.leavesOfAll : List Expr → List (List Leaf)
  | [] => []
  | e :: es => e.leaves :: Expr.leavesOfAll es

/-- The leaves of each of some members. -/
@[simp]
def Expr.leavesOfEntries : List Entry → List (List Leaf)
  | [] => []
  | e :: es => e.leaves :: Expr.leavesOfEntries es

end

/-- The leaves of a program; an empty one has none. -/
def Program.leaves (p : Program) : List Leaf :=
  match p.root with
  | none => []
  | some e => e.leaves

/-- The nodes of a program. -/
def Program.Contains (p : Program) (node : Expr) : Prop := ∃ root ∈ p.root, root.Contains node

/-- Tokens are accounted for, up to a rest, by leaves that they match one after the other. Beside
    those there may be a comma right before the token that closes its list or object, and a `;` that
    is followed by no token or by one that cannot begin an expression. -/
inductive Covers : List Leaf → List Token → List Token → Prop
  | done {ts : List Token} : Covers [] ts ts
  | token {leaf : Leaf} {leaves : List Leaf} {t : Token} {ts rest : List Token}
    (ht : leaf.Matches t) (h : Covers leaves ts rest) : Covers (leaf :: leaves) (t :: ts) rest
  | comma {kind : Token.Kind} {leaves : List Leaf} {t closing : Token} {ts rest : List Token}
    (ht : t.kind = .comma) (hclosing : closing.kind = kind) (h : Covers leaves ts rest) :
    Covers (.closing kind :: leaves) (t :: closing :: ts) rest
  | terminator {leaves : List Leaf} {t : Token} {ts rest : List Token}
    (ht : t.kind = .binary .sequence) (hts : Token.begins ts = false)
    (h : Covers leaves ts rest) : Covers leaves (t :: ts) rest

theorem Covers.append {leaves leaves' : List Leaf} {ts mid rest : List Token}
    (h : Covers leaves ts mid) (h' : Covers leaves' mid rest) :
    Covers (leaves ++ leaves') ts rest := by
  induction h with
  | done => exact h'
  | token ht _ ih => exact .token ht (ih h')
  | comma ht hclosing _ ih => exact .comma ht hclosing (ih h')
  | terminator ht hts _ ih => exact .terminator ht hts (ih h')

namespace Expr

/-- What a call says of the tokens that are its own: they begin with those of the callee, end with
    its closing parenthesis, and their lexemes put together are its text. -/
def Worded (own after : List Token) : Expr → Prop
  | .call callee _ text _ =>
    text = Token.joined own ∧ ∃ start opening inner closing,
      own = start ++ opening :: (inner ++ [closing]) ∧
        Covers callee.leaves (own ++ after) (opening :: (inner ++ closing :: after)) ∧
        opening.kind = .leftParen ∧ closing.kind = .rightParen
  | _ => True

/-- Some tokens, told with those after them, are a node's own: its leaves account for them, one of
    them gives the node its place, and the text of a call is theirs. -/
structure Spans (e : Expr) (own after : List Token) : Prop where
  covers : Covers e.leaves (own ++ after) after
  place : ∃ t ∈ own, t.pos = e.pos
  worded : e.Worded own after

/-- A stretch of some tokens is a node's own, and so are stretches of it for all nodes below. -/
structure Placed (e : Expr) (own after : List Token) : Prop where
  spans : e.Spans own after
  inside : ∀ node, e.Contains node → ∃ before inner between,
    own = before ++ inner ++ between ∧ node.Spans inner (between ++ after)

/-- A node has its place somewhere in some tokens. -/
def Within (own after : List Token) (e : Expr) : Prop :=
  ∃ before inner between, own = before ++ inner ++ between ∧ e.Placed inner (between ++ after)

theorem Contains.eq_or_child {root node : Expr} (h : root.Contains node) :
    node = root ∨ ∃ child ∈ root.children, child.Contains node := by
  induction h with
  | root => exact .inl rfl
  | child _ he ih =>
    right
    rcases ih with rfl | ⟨child, hchild, hnode⟩
    · exact ⟨_, he, .root⟩
    · exact ⟨child, hchild, .child hnode he⟩

theorem Within.mono {e : Expr} {own after : List Token} (before between : List Token)
    (h : e.Within own (between ++ after)) : e.Within (before ++ own ++ between) after := by
  obtain ⟨before', inner, between', rfl, hplaced⟩ := h
  exact ⟨before ++ before', inner, between' ++ between, by simp, by simpa using hplaced⟩

/-- Some tokens, told with those after them, are accounted for by leaves, and have the places of
    some nodes in them. -/
structure Holding (leaves : List Leaf) (nodes : List Expr) (own after : List Token) : Prop where
  covers : Covers leaves (own ++ after) after
  within : ∀ node ∈ nodes, node.Within own after

namespace Holding

variable {leaves leaves' : List Leaf} {nodes nodes' : List Expr} {own own' after : List Token}

theorem append (h : Holding leaves nodes own (own' ++ after))
    (h' : Holding leaves' nodes' own' after) :
    Holding (leaves ++ leaves') (nodes ++ nodes') (own ++ own') after where
  covers := by
    rw [List.append_assoc]
    exact h.covers.append h'.covers
  within := by
    intro node hnode
    rcases List.mem_append.mp hnode with hmem | hmem
    · simpa using (h.within node hmem).mono [] own'
    · simpa using Within.mono own [] (by simpa using h'.within node hmem)

theorem token {leaf : Leaf} {t : Token} (ht : leaf.Matches t) : Holding [leaf] [] [t] after :=
  ⟨.token ht .done, List.forall_mem_nil _⟩

/-- Each `;` that is passed over holds nothing. -/
theorem passed (h : Covers [] (own ++ after) after) : Holding [] [] own after :=
  ⟨h, List.forall_mem_nil _⟩

theorem node {e : Expr} (h : e.Placed own after) : Holding e.leaves [e] own after where
  covers := h.spans.covers
  within := List.forall_mem_singleton.mpr ⟨[], own, [], by simp, by simpa using h⟩

end Holding

/-- A node has its place in tokens that hold its leaves and the nodes right below it. -/
theorem Holding.placed {e : Expr} {own after : List Token}
    (h : Holding e.leaves e.children own after) (hplace : ∃ t ∈ own, t.pos = e.pos)
    (hworded : e.Worded own after) : e.Placed own after where
  spans := ⟨h.covers, hplace, hworded⟩
  inside := by
    intro node hnode
    rcases hnode.eq_or_child with rfl | ⟨child, hchild, hnode⟩
    · exact ⟨[], own, [], by simp, by simpa using ⟨h.covers, hplace, hworded⟩⟩
    · obtain ⟨before, inner, between, rfl, hplaced⟩ := h.within child hchild
      obtain ⟨before', inner', between', rfl, hspans⟩ := hplaced.inside node hnode
      exact ⟨before ++ before', inner', between' ++ between, by simp, by simpa using hspans⟩

/-! ## What is read -/

/-- An expression is read from the front of some tokens, up to a rest, and each `;` that was passed
    over at its end is not its own. -/
def Sits (e : Expr) (ts rest : List Token) : Prop :=
  ∃ own passed, ts = own ++ (passed ++ rest) ∧ e.Placed own (passed ++ rest) ∧
    Covers [] (passed ++ rest) rest

/-- An expression is read from the front of some tokens, up to a rest, with nothing passed over at
    its end. -/
def SitsTight (e : Expr) (ts rest : List Token) : Prop :=
  ∃ own, ts = own ++ rest ∧ e.Placed own rest

/-- Parts with commas between them are read from the front of some tokens, with the token that
    closes them. -/
def Enclosed (leaves : List (List Leaf)) (nodes : List Expr) (closer : Token.Kind)
    (ts rest : List Token) : Prop :=
  ∃ inner closing, ts = inner ++ closing :: rest ∧ closing.kind = closer ∧
    (leaves = [] → inner = []) ∧
    Holding (Leaf.listed leaves ++ [.closing closer]) nodes (inner ++ [closing]) rest

/-- Where a phrase is read from, by the task that reads it. -/
def Sourced (ts rest : List Token) : Task → Phrase → Prop
  | .level _, .expr e | .unary, .expr e => e.Sits ts rest
  | .operators _ left, .expr e => ∀ whole, left.Sits whole ts → e.Sits whole rest
  | .suffixed, .expr e | .primary, .expr e => e.SitsTight ts rest
  | .suffixes origin base, .expr e => base.SitsTight origin ts → e.SitsTight origin rest
  | .elements closer, .elements es => Enclosed (leavesOfAll es) es closer ts rest
  | .entries, .entries es =>
    Enclosed (leavesOfEntries es) (es.map Entry.value) .rightBrace ts rest
  | _, _ => True

theorem SitsTight.sits {e : Expr} {ts rest : List Token} (h : e.SitsTight ts rest) :
    e.Sits ts rest := by
  obtain ⟨own, hts, hplaced⟩ := h
  exact ⟨own, [], hts, hplaced, .done⟩

section Operators

variable {t : Token} {whole ts mid : List Token}

theorem Sits.pass {left : Expr} (h : left.Sits whole (t :: ts)) (ht : t.kind = .binary .sequence)
    (hts : Token.begins ts = false) : left.Sits whole ts := by
  obtain ⟨own, passed, rfl, hplaced, hpassed⟩ := h
  have hpassed' := hpassed.append (.terminator ht hts .done)
  exact ⟨own, passed ++ [t], by simp, by simpa using hplaced, by simpa using hpassed'⟩

/-- An expression, with what is passed over after it. -/
theorem Sits.holding {e : Expr} (h : e.Sits whole ts) :
    ∃ own, whole = own ++ ts ∧ Holding e.leaves [e] own ts := by
  obtain ⟨own, passed, rfl, hplaced, hpassed⟩ := h
  exact ⟨own ++ passed, by simp, by simpa using (Holding.node hplaced).append (.passed hpassed)⟩

/-- An expression and the operator after it. -/
theorem Sits.operator {left : Expr} {kind : Token.Kind} (h : left.Sits whole (t :: ts))
    (ht : t.kind = kind) :
    ∃ own, whole = own ++ ts ∧ t ∈ own ∧ Holding (left.leaves ++ [.fixed kind]) [left] own ts := by
  obtain ⟨own, rfl, hown⟩ := h.holding
  have htoken : Holding [.fixed kind] [] [t] ts := .token ht
  exact ⟨own ++ [t], by simp, by simp, by simpa using hown.append htoken⟩

/-- An expression that ends in another one, after tokens that are its own. -/
theorem sits_of_last {e last : Expr} {leaves : List Leaf} {nodes : List Expr} {own : List Token}
    (hown : Holding leaves nodes own ts) (hlast : last.Sits ts mid)
    (hleaves : e.leaves = leaves ++ last.leaves) (hchildren : e.children = nodes ++ [last])
    (hplace : ∃ t ∈ own, t.pos = e.pos) (hworded : ∀ own after, e.Worded own after) :
    e.Sits (own ++ ts) mid := by
  obtain ⟨own', passed, rfl, hplaced, hpassed⟩ := hlast
  refine ⟨own ++ own', passed, by simp, ?_, hpassed⟩
  apply Holding.placed
  · rw [hleaves, hchildren]
    exact hown.append (.node hplaced)
  · obtain ⟨t, ht, hpos⟩ := hplace
    exact ⟨t, List.mem_append_left _ ht, hpos⟩
  · exact hworded _ _

theorem sits_binary {op : BinaryOp} {left right : Expr} (ht : t.kind = .binary op)
    (hleft : left.Sits whole (t :: ts)) (hright : right.Sits ts mid) :
    (binary op left right t.pos).Sits whole mid := by
  obtain ⟨own, rfl, hmem, hown⟩ := hleft.operator ht
  apply sits_of_last hown hright
  · simp
  · simp [children, parts]
  · exact ⟨t, hmem, rfl⟩
  · exact fun _ _ => trivial

theorem sits_assign {op : AssignOp} {target : Target} {value : Expr} (ht : t.kind = .assign op)
    (htarget : (ref target).Sits whole (t :: ts)) (hvalue : value.Sits ts mid) :
    (assign op target value t.pos).Sits whole mid := by
  obtain ⟨own, rfl, hmem, hown⟩ := htarget.operator ht
  apply sits_of_last hown hvalue
  · simp
  · simp [children]
  · exact ⟨t, hmem, rfl⟩
  · exact fun _ _ => trivial

theorem sits_conditional {test ifTrue ifFalse : Expr} {colon : Token} {rest : List Token}
    (ht : t.kind = .question) (htest : test.Sits whole (t :: ts))
    (htrue : ifTrue.Sits ts (colon :: mid)) (hcolon : colon.kind = .colon)
    (hfalse : ifFalse.Sits mid rest) :
    (conditional test ifTrue ifFalse t.pos).Sits whole rest := by
  obtain ⟨own, rfl, hmem, hown⟩ := htest.operator ht
  obtain ⟨own', rfl, -, hown'⟩ := htrue.operator hcolon
  have hboth := hown.append hown'
  rw [← List.append_assoc]
  apply sits_of_last hboth hfalse
  · simp
  · simp [children, parts]
  · exact ⟨t, List.mem_append_left _ hmem, rfl⟩
  · exact fun _ _ => trivial

theorem sits_unary {op : UnaryOp} {operand : Expr} (ht : t.kind = op.kind)
    (hoperand : operand.Sits ts mid) : (unary op operand t.pos).Sits (t :: ts) mid := by
  have hown : Holding [.fixed op.kind] [] [t] ts := .token ht
  apply sits_of_last hown hoperand
  · simp
  · simp [children, parts]
  · exact ⟨t, List.mem_singleton_self t, rfl⟩
  · exact fun _ _ => trivial

theorem sits_stepBefore {op : StepOp} {target : Target} (ht : t.kind = .step op)
    (htarget : (ref target).Sits ts mid) : (stepBefore op target t.pos).Sits (t :: ts) mid := by
  have hown : Holding [.fixed (.step op)] [] [t] ts := .token ht
  apply sits_of_last hown htarget
  · simp
  · simp [children]
  · exact ⟨t, List.mem_singleton_self t, rfl⟩
  · exact fun _ _ => trivial

end Operators

section Suffixes

variable {t : Token} {origin ts rest : List Token}

/-- An expression that other tokens are attached to. -/
theorem SitsTight.attach {base e : Expr} {leaves : List Leaf} {nodes : List Expr}
    {own : List Token} (hbase : base.SitsTight origin (t :: (own ++ rest)))
    (hown : Holding leaves nodes (t :: own) rest)
    (hleaves : e.leaves = base.leaves ++ leaves) (hchildren : e.children = base :: nodes)
    (hpos : e.pos = t.pos) (hworded : ∀ own after, e.Worded own after) :
    e.SitsTight origin rest := by
  obtain ⟨before, rfl, hplaced⟩ := hbase
  refine ⟨before ++ t :: own, by simp, ?_⟩
  apply Holding.placed
  · rw [hleaves, hchildren]
    exact (Holding.node hplaced).append hown
  · exact ⟨t, by simp, hpos.symm⟩
  · exact hworded _ _

theorem sitsTight_index {base index : Expr} {closing : Token} (ht : t.kind = .leftBracket)
    (hbase : base.SitsTight origin (t :: ts)) (hindex : index.Sits ts (closing :: rest))
    (hclosing : closing.kind = .rightBracket) :
    (ref (.index base index t.pos)).SitsTight origin rest := by
  obtain ⟨own, rfl, -, hown⟩ := hindex.operator hclosing
  have hopening : Holding [.fixed .leftBracket] [] [t] (own ++ rest) := .token ht
  apply hbase.attach (hopening.append hown)
  · simp
  · simp [children, parts, Target.parts]
  · rfl
  · exact fun _ _ => trivial

theorem sitsTight_member {base : Expr} {name : Token} (ht : t.kind = .dot)
    (hbase : base.SitsTight origin (t :: name :: rest)) (hname : name.kind = .identifier) :
    (ref (.member base name.lexeme t.pos)).SitsTight origin rest := by
  have hdot : Holding [.fixed .dot] [] [t] ([name] ++ rest) := .token ht
  have hown : Holding [.name name.lexeme] [] [name] rest := .token ⟨hname, rfl⟩
  apply hbase.attach (hdot.append hown)
  · simp
  · simp [children, parts, Target.parts]
  · rfl
  · exact fun _ _ => trivial

theorem sitsTight_stepAfter {op : StepOp} {target : Target} (ht : t.kind = .step op)
    (htarget : (ref target).SitsTight origin (t :: rest)) :
    (stepAfter op target t.pos).SitsTight origin rest := by
  have hown : Holding [.fixed (.step op)] [] [t] rest := .token ht
  apply htarget.attach hown
  · simp
  · simp [children]
  · rfl
  · exact fun _ _ => trivial

theorem take_length_sub (own rest : List Token) :
    (own ++ rest).take ((own ++ rest).length - rest.length) = own := by
  simp

theorem sitsTight_call {callee : Target} {args : List Expr} (ht : t.kind = .leftParen)
    (hcallee : (ref callee).SitsTight origin (t :: ts))
    (hargs : Enclosed (leavesOfAll args) args .rightParen ts rest) :
    (call callee args (Token.joined (origin.take (origin.length - rest.length)))
      ((origin.head?.map Token.pos).getD t.pos)).SitsTight origin rest := by
  obtain ⟨own, rfl, hplaced⟩ := hcallee
  obtain ⟨inner, closing, rfl, hclosing, -, hinner⟩ := hargs
  have hopening : Holding [.fixed .leftParen] [] [t] ((inner ++ [closing]) ++ rest) := .token ht
  have hwhole := (Holding.node (by simpa using hplaced)).append (hopening.append hinner)
  refine ⟨own ++ t :: (inner ++ [closing]), by simp, ?_⟩
  apply Holding.placed
  · simpa [children, parts] using hwhole
  · -- the callee has a token, and the first one gives the place
    obtain ⟨u, hu, -⟩ := hplaced.spans.place
    cases own with
    | nil => cases hu
    | cons v own => exact ⟨v, by simp, rfl⟩
  · constructor
    · rw [← take_length_sub (own ++ t :: (inner ++ [closing])) rest]
      simp
    · refine ⟨own, t, inner, closing, rfl, ?_, ht, hclosing⟩
      simpa using hplaced.spans.covers

end Suffixes

section Primary

variable {t : Token} {ts rest : List Token}

/-- A primary expression, whose first token gives its place. -/
theorem sitsTight_of_first {e : Expr} {own : List Token} (hts : ts = own ++ rest)
    (hown : Holding e.leaves e.children (t :: own) rest) (hpos : e.pos = t.pos)
    (hworded : ∀ own after, e.Worded own after) : e.SitsTight (t :: ts) rest := by
  rw [hts]
  exact ⟨t :: own, rfl, hown.placed ⟨t, List.mem_cons_self, hpos.symm⟩ (hworded _ _)⟩

theorem sitsTight_literal {kind : LiteralKind} (ht : t.kind = .literal kind) :
    (literal 0 kind t.lexeme t.pos).SitsTight (t :: ts) ts := by
  have hown : Holding [.literal kind t.lexeme] [] [t] ts := .token ⟨ht, rfl⟩
  apply sitsTight_of_first (List.nil_append ts).symm
  · simpa [children, parts] using hown
  · rfl
  · exact fun _ _ => trivial

theorem sitsTight_name (ht : t.kind = .identifier) :
    (ref (.name t.lexeme t.pos)).SitsTight (t :: ts) ts := by
  have hown : Holding [.name t.lexeme] [] [t] ts := .token ⟨ht, rfl⟩
  apply sitsTight_of_first (List.nil_append ts).symm
  · simpa [children, parts, Target.parts] using hown
  · rfl
  · exact fun _ _ => trivial

theorem sitsTight_group {inner : Expr} {closing : Token} (ht : t.kind = .leftParen)
    (hinner : inner.Sits ts (closing :: rest)) (hclosing : closing.kind = .rightParen) :
    (group inner t.pos).SitsTight (t :: ts) rest := by
  obtain ⟨own, hts, -, hown⟩ := hinner.operator hclosing
  have hopening : Holding [.fixed .leftParen] [] [t] (own ++ rest) := .token ht
  apply sitsTight_of_first hts
  · simpa [children, parts] using hopening.append hown
  · rfl
  · exact fun _ _ => trivial

/-- Parts in brackets, whose opening one gives the place. -/
theorem Enclosed.sitsTight {e : Expr} {leaves : List (List Leaf)} {opener closer : Token.Kind}
    (h : Enclosed leaves e.children closer ts rest) (ht : t.kind = opener)
    (hleaves : e.leaves = .fixed opener :: (Leaf.listed leaves ++ [.closing closer]))
    (hpos : e.pos = t.pos) (hworded : ∀ own after, e.Worded own after) :
    e.SitsTight (t :: ts) rest := by
  obtain ⟨inner, closing, rfl, -, -, hinner⟩ := h
  have hopening : Holding [.fixed opener] [] [t] ((inner ++ [closing]) ++ rest) := .token ht
  have hts : inner ++ closing :: rest = (inner ++ [closing]) ++ rest := by simp
  apply sitsTight_of_first hts
  · rw [hleaves]
    exact hopening.append hinner
  · exact hpos
  · exact hworded

end Primary

section Enclosed

variable {closer : Token.Kind} {closing comma : Token} {leaves : List Leaf}
  {more : List (List Leaf)} {nodes nodes' : List Expr} {own mid rest : List Token}

theorem Enclosed.nil (h : closing.kind = closer) : Enclosed [] [] closer (closing :: rest) rest :=
  ⟨[], closing, rfl, h, fun _ => rfl, .token h⟩

theorem Enclosed.last (hown : Holding leaves nodes own (closing :: rest))
    (h : closing.kind = closer) : Enclosed [leaves] nodes closer (own ++ closing :: rest) rest := by
  have htoken : Holding [.closing closer] [] [closing] rest := .token h
  refine ⟨own, closing, rfl, h, by simp, ?_⟩
  simpa [Leaf.listed] using hown.append htoken

/-- A part before others; the comma after it is lost if there are none. -/
theorem Enclosed.cons (hown : Holding leaves nodes own (comma :: mid))
    (hcomma : comma.kind = .comma) (h : Enclosed more nodes' closer mid rest) :
    Enclosed (leaves :: more) (nodes ++ nodes') closer (own ++ comma :: mid) rest := by
  obtain ⟨inner, closing, rfl, hclosing, hinner, hholding⟩ := h
  refine ⟨own ++ comma :: inner, closing, by simp, hclosing, by simp, ?_⟩
  cases more with
  | nil =>
    obtain rfl := hinner rfl
    have hlost : Holding [.closing closer] nodes' [comma, closing] rest :=
      ⟨.comma hcomma hclosing .done, fun node hnode => by
        simpa using (hholding.within node hnode).mono [comma] []⟩
    simpa [Leaf.listed] using hown.append hlost
  | cons next more =>
    have htoken : Holding [.fixed .comma] [] [comma] ((inner ++ [closing]) ++ rest) := .token hcomma
    have hafter := htoken.append hholding
    simpa [Leaf.listed] using Holding.append (by simpa using hown) hafter

end Enclosed

theorem matches_of_key? {t : Token} {key : String} (h : key? t = .ok key) :
    (Leaf.key key t.pos).Matches t := by
  refine ⟨rfl, ?_⟩
  unfold key? at h
  split at h
  · next hkind =>
    cases h
    exact .inl ⟨.inl hkind, rfl⟩
  · next hkind =>
    cases h
    exact .inl ⟨.inr hkind, rfl⟩
  · next hkind =>
    split at h
    · next text hdecode =>
      cases h
      exact .inr ⟨hkind, hdecode⟩
    · cases h
  · cases h

theorem eq_kind_of_unaryOp? {kind : Token.Kind} {op : UnaryOp} (h : unaryOp? kind = some op) :
    kind = op.kind := by
  unfold unaryOp? at h
  split at h <;> cases h <;> rfl

/-- The key of a member, its colon and its value. -/
theorem holding_entry {key : String} {value : Expr} {t colon : Token} {ts rest : List Token}
    (hkey : key? t = .ok key) (hcolon : colon.kind = .colon) (hvalue : value.Sits ts rest) :
    ∃ own, t :: colon :: ts = own ++ rest ∧
      Holding (Entry.mk key t.pos value).leaves [value] own rest := by
  obtain ⟨own, rfl, hown⟩ := hvalue.holding
  have hfirst : Holding [.key key t.pos] [] [t] ([colon] ++ (own ++ rest)) :=
    .token (matches_of_key? hkey)
  have hsecond : Holding [.fixed .colon] [] [colon] (own ++ rest) := .token hcolon
  exact ⟨t :: colon :: own, rfl, by simpa using (hfirst.append hsecond).append hown⟩

/-- Whatever is read has its places in the tokens that it is read from. -/
theorem Reads.sourced {task : Task} {ts : List Token} {p : Phrase} {rest : List Token}
    (h : Reads task ts p rest) : Sourced ts rest task p := by
  induction h with
  | level _ _ ihfirst ihwhole => exact ihwhole _ ihfirst
  | ended | stops => exact fun _ hleft => hleft
  | terminator ht _ hts _ ih => exact fun whole hleft => ih whole (hleft.pass ht hts)
  | binary ht _ _ _ _ ihright ihwhole =>
    exact fun whole hleft => ihwhole whole (sits_binary ht hleft ihright)
  | assign ht _ _ _ ihvalue ihwhole =>
    exact fun whole htarget => ihwhole whole (sits_assign ht htarget ihvalue)
  | conditional ht _ _ hcolon _ _ ihtrue ihfalse ihwhole =>
    exact fun whole htest => ihwhole whole (sits_conditional ht htest ihtrue hcolon ihfalse)
  | unary ht _ ih => exact sits_unary (eq_kind_of_unaryOp? ht) ih
  | stepBefore ht _ ih => exact sits_stepBefore ht (SitsTight.sits ih)
  | operand _ _ _ ih => exact SitsTight.sits ih
  | suffixed _ _ ihbase ihwhole => exact ihwhole ihbase
  | unattached | detached => exact fun hbase => hbase
  | call ht _ _ ihargs ihwhole => exact fun hbase => ihwhole (sitsTight_call ht hbase ihargs)
  | index ht _ hclosing _ ihindex ihwhole =>
    exact fun hbase => ihwhole (sitsTight_index ht hbase ihindex hclosing)
  | member ht hname _ ih => exact fun hbase => ih (sitsTight_member ht hbase hname)
  | stepAfter ht => exact sitsTight_stepAfter ht
  | literal ht => exact sitsTight_literal ht
  | name ht => exact sitsTight_name ht
  | group ht _ hclosing ih => exact sitsTight_group ht ih hclosing
  | list ht _ ih => exact Enclosed.sitsTight ih ht (by simp) rfl fun _ _ => trivial
  | object ht _ ih => exact Enclosed.sitsTight ih ht (by simp) rfl fun _ _ => trivial
  | noElements ht => exact Enclosed.nil ht
  | element _ _ hcomma _ ihelem ihelems =>
    obtain ⟨own, hts, hown⟩ := Sits.holding ihelem
    rw [hts]
    exact Enclosed.cons hown hcomma ihelems
  | lastElement _ _ _ hclosing ih =>
    obtain ⟨own, hts, hown⟩ := Sits.holding ih
    rw [hts]
    exact Enclosed.last hown hclosing
  | noEntries ht => exact Enclosed.nil ht
  | entry hkey hcolon _ hcomma _ ihvalue ihentries =>
    obtain ⟨own, hts, hown⟩ := holding_entry hkey hcolon ihvalue
    rw [hts]
    exact Enclosed.cons hown hcomma ihentries
  | lastEntry hkey hcolon _ hclosing ih =>
    obtain ⟨own, hts, hown⟩ := holding_entry hkey hcolon ih
    rw [hts]
    exact Enclosed.last hown hclosing

end Expr

namespace Program

theorem eq_nil_of_ofTokens_eq_none {ts : List Token} (h : Expr.ofTokens ts = .ok none) :
    ts = [] := by
  cases ts with
  | nil => rfl
  | cons t ts =>
    rw [Expr.ofTokens] at h
    obtain ⟨whole, -, h⟩ := bind_eq_ok.mp h
    split at h <;> cases h

/-- Reading loses no token and makes up none: the leaves of the tree account for all the tokens, and
    every node has a stretch of them to itself, which gives it its place and, if it is a call, its
    text. -/
theorem leaves_of_ofTokens {ts : List Token} {program : Program}
    (h : ofTokens ts = .ok program) :
    Covers program.leaves ts [] ∧ ∀ node, program.Contains node →
      ∃ before own after, ts = before ++ own ++ after ∧ node.Spans own after := by
  unfold ofTokens at h
  split at h
  · next root hroot =>
    cases h
    cases root with
    | none =>
      obtain rfl := eq_nil_of_ofTokens_eq_none hroot
      refine ⟨.done, ?_⟩
      rintro node ⟨root, hmem, -⟩
      cases hmem
    | some e =>
      have hsits : e.Sits ts [] := (Expr.ofTokens_eq_some_iff.mp hroot).sourced
      obtain ⟨own, passed, rfl, hplaced, hpassed⟩ := hsits
      constructor
      · simpa [leaves] using hplaced.spans.covers.append hpassed
      · rintro node ⟨root, hmem, hnode⟩
        cases hmem
        obtain ⟨before, inner, between, rfl, hspans⟩ := hplaced.inside node hnode
        exact ⟨before, inner, between ++ (passed ++ []), by simp, hspans⟩
  · cases h

/-- The tokens of `f({"a": 1,},);`, of which both commas and the `;` leave no trace. -/
def keyedCall : List Token :=
  [⟨.identifier, "f", ⟨1, 1⟩⟩, ⟨.leftParen, "(", ⟨1, 2⟩⟩, ⟨.leftBrace, "\x7b", ⟨1, 3⟩⟩,
   ⟨.literal .text, "\"a\"", ⟨1, 4⟩⟩, ⟨.colon, ":", ⟨1, 7⟩⟩, ⟨.literal .int, "1", ⟨1, 9⟩⟩,
   ⟨.comma, ",", ⟨1, 10⟩⟩, ⟨.rightBrace, "\x7d", ⟨1, 11⟩⟩, ⟨.comma, ",", ⟨1, 12⟩⟩,
   ⟨.rightParen, ")", ⟨1, 13⟩⟩, ⟨.binary .sequence, ";", ⟨1, 14⟩⟩]

def keyedCallTree : Expr :=
  .call (.name "f" ⟨1, 1⟩) [.object [.mk "a" ⟨1, 4⟩ (.literal 0 .int "1" ⟨1, 9⟩)] ⟨1, 3⟩]
    "f(\x7b\"a\":1,\x7d,)" ⟨1, 1⟩

theorem reads_keyedCallTree :
    Expr.Reads (.level Level.lowest) keyedCall (.expr keyedCallTree) [] := by
  have hone : Expr.Reads (.level Level.lowest) (keyedCall.drop 5)
      (.expr (.literal 0 .int "1" ⟨1, 9⟩)) (keyedCall.drop 6) := by
    refine .level (.operand rfl ?_ (.suffixed (.literal rfl) (.detached rfl))) (.stops (by decide))
    intro op h
    cases h
  have hobject : Expr.Reads (.level Level.lowest) (keyedCall.drop 2)
      (.expr (.object [.mk "a" ⟨1, 4⟩ (.literal 0 .int "1" ⟨1, 9⟩)] ⟨1, 3⟩))
      (keyedCall.drop 8) := by
    have hquote : Text.quote "a" = "\"a\"" := by decide +kernel
    have hkey : Expr.key? ⟨.literal .text, "\"a\"", ⟨1, 4⟩⟩ = .ok "a" := by
      simp only [Expr.key?, ← hquote, Text.decode_quote]
    have hentries : Expr.Reads .entries (keyedCall.drop 3)
        (.entries [.mk "a" ⟨1, 4⟩ (.literal 0 .int "1" ⟨1, 9⟩)]) (keyedCall.drop 8) :=
      .entry hkey rfl hone rfl (.noEntries rfl)
    refine .level (.operand rfl ?_ (.suffixed (.object rfl hentries) (.detached rfl)))
      (.stops (by decide))
    intro op h
    cases h
  have hcall : Expr.Reads (.suffixes keyedCall (.ref (.name "f" ⟨1, 1⟩))) (keyedCall.drop 1)
      (.expr keyedCallTree) (keyedCall.drop 10) :=
    .call rfl (.element (by decide) hobject rfl (.noElements rfl)) (.detached rfl)
  refine .level (.operand rfl ?_ (.suffixed (.name rfl) hcall))
    (.terminator rfl (by decide) rfl .ended)
  intro op h
  cases h

theorem leaves_of_ofTokens_keyedCall :
    ofTokens keyedCall = .ok ⟨some keyedCallTree⟩ ∧ Covers keyedCallTree.leaves keyedCall [] ∧
      ∃ before own after,
        keyedCall = before ++ own ++ after ∧ keyedCallTree.Spans own after := by
  have hread : Expr.ofTokens keyedCall = .ok (some keyedCallTree) :=
    Expr.ofTokens_eq_some_iff.mpr reads_keyedCallTree
  have h : ofTokens keyedCall = .ok ⟨some keyedCallTree⟩ := by rw [ofTokens, hread]
  obtain ⟨hleaves, hnodes⟩ := leaves_of_ofTokens h
  exact ⟨h, hleaves, hnodes keyedCallTree ⟨keyedCallTree, rfl, .root⟩⟩

end Program

end ExprLang
