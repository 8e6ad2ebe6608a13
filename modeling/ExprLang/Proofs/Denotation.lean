import ExprLang.Proofs.Members
import ExprLang.Proofs.PlainData
import ExprLang.Proofs.Simulation.Steps
import ExprLang.Proofs.Spelling

/-!
# Expressions that write data down

Literals, negated ones, and lists and objects of such expressions denote plain data
(`Expr.Denotes`). Evaluating one of them succeeds in every scope, adds containers to the store and
changes nothing else there, and its value holds the data that it denotes (`Expr.Denotes.builds`).
-/

namespace ExprLang

/-- The key of a member. -/
def Entry.key : Entry → Text
  | .mk key _ _ => key

theorem Entry.key_unplaced (entry : Entry) : entry.unplaced.key = entry.key := by
  cases entry
  rfl

theorem Entry.value_unplaced (entry : Entry) : entry.unplaced.value = entry.value.unplaced := by
  cases entry
  rfl

mutual

theorem Target.unplaced_numbered : ∀ (target : Target) (table : Array Literal),
    (target.numbered table).1.unplaced = target.unplaced
  | .name _ _, _ => rfl
  | .index base key _, table =>
    congrArg₂ (Target.index · · .start) (base.unplaced_numbered table) (key.unplaced_numbered _)
  | .member base name _, table =>
    congrArg (Target.member · name .start) (base.unplaced_numbered table)

/-- Numbering changes nothing else. -/
theorem Expr.unplaced_numbered : ∀ (e : Expr) (table : Array Literal),
    (e.numbered table).1.unplaced = e.unplaced
  | .literal _ _ _ _, _ => rfl
  | .ref target, table => congrArg Expr.ref (target.unplaced_numbered table)
  | .call callee args _ _, table =>
    congrArg₂ (Expr.call · · "" .start) (callee.unplaced_numbered table)
      (Expr.unplacedAll_numbered args _)
  | .list elems _, table => congrArg (Expr.list · .start) (Expr.unplacedAll_numbered elems table)
  | .object entries _, table =>
    congrArg (Expr.object · .start) (Expr.unplacedEntries_numbered entries table)
  | .group inner _, table => congrArg (Expr.group · .start) (inner.unplaced_numbered table)
  | .unary op operand _, table =>
    congrArg (Expr.unary op · .start) (operand.unplaced_numbered table)
  | .stepBefore op target _, table =>
    congrArg (Expr.stepBefore op · .start) (target.unplaced_numbered table)
  | .stepAfter op target _, table =>
    congrArg (Expr.stepAfter op · .start) (target.unplaced_numbered table)
  | .binary op left right _, table =>
    congrArg₂ (Expr.binary op · · .start) (left.unplaced_numbered table)
      (right.unplaced_numbered _)
  | .conditional test ifTrue ifFalse _, table => by
    simp only [Expr.numbered, Expr.unplaced, test.unplaced_numbered, ifTrue.unplaced_numbered,
      ifFalse.unplaced_numbered]
  | .assign op target value _, table =>
    congrArg₂ (Expr.assign op · · .start) (target.unplaced_numbered table)
      (value.unplaced_numbered _)

theorem Entry.unplaced_numbered : ∀ (entry : Entry) (table : Array Literal),
    (entry.numbered table).1.unplaced = entry.unplaced
  | .mk key _ value, table => congrArg (Entry.mk key .start) (value.unplaced_numbered table)

theorem Expr.unplacedAll_numbered : ∀ (es : List Expr) (table : Array Literal),
    Expr.unplacedAll (Expr.allNumbered es table).1 = Expr.unplacedAll es
  | [], _ => rfl
  | e :: es, table =>
    congrArg₂ List.cons (e.unplaced_numbered table) (Expr.unplacedAll_numbered es _)

theorem Expr.unplacedEntries_numbered : ∀ (es : List Entry) (table : Array Literal),
    Expr.unplacedEntries (Expr.entriesNumbered es table).1 = Expr.unplacedEntries es
  | [], _ => rfl
  | e :: es, table =>
    congrArg₂ List.cons (e.unplaced_numbered table) (Expr.unplacedEntries_numbered es _)

end

namespace Expr

/-- An expression writes data down. -/
inductive Denotes : Expr → Data → Prop
  | int {node : Nat} {kind : LiteralKind} {lexeme : String} {pos : Position} {n : Int64}
    (h : Literal.value ⟨kind, lexeme⟩ = .ok (.int n)) :
    Denotes (.literal node kind lexeme pos) (.int n)
  | negated {node : Nat} {kind : LiteralKind} {lexeme : String} {pos pos' : Position} {n : Int64}
    (h : Literal.value ⟨kind, lexeme⟩ = .ok (.int n)) :
    Denotes (.unary .minus (.literal node kind lexeme pos) pos') (.int (-n))
  | text {node : Nat} {kind : LiteralKind} {lexeme : String} {pos : Position} {t : Text}
    (h : Literal.value ⟨kind, lexeme⟩ = .ok (.text t)) :
    Denotes (.literal node kind lexeme pos) (.text t)
  | list {elems : List Expr} {pos : Position} {items : List Data}
    (hitems : List.Forall₂ Denotes elems items) : Denotes (.list elems pos) (.list items)
  | object {entries : List Entry} {pos : Position} {members : List (Text × Data)}
    (hkeys : entries.map Entry.key = members.map Prod.fst)
    (hitems : List.Forall₂ Denotes (entries.map Entry.value) (members.map Prod.snd)) :
    Denotes (.object entries pos) (.map members)

namespace Denotes

/-- What is known of the expressions of all items. -/
theorem forall_of_forall₂ {es : List Expr} {items : List Data} (h : List.Forall₂ Denotes es items)
    {P : Expr → Prop} (hone : ∀ item ∈ items, ∀ e, Denotes e item → P e) : ∀ e ∈ es, P e := by
  induction h with
  | nil => exact List.forall_mem_nil _
  | cons he _ ih =>
    obtain ⟨hitem, hitems⟩ := List.forall_mem_cons.mp hone
    exact List.forall_mem_cons.mpr ⟨hitem _ he, ih hitems⟩

/-- It can be written as it is. -/
theorem writable {e : Expr} {d : Data} (h : e.Denotes d) : e.Writable := by
  have hliteral (node : Nat) (kind : LiteralKind) (lexeme : String) (pos : Position) :
      (literal node kind lexeme pos).Writable := .of trivial trivial (List.forall_mem_nil _)
  induction d using Data.induct generalizing e with
  | int n =>
    cases h with
    | int _ => exact hliteral _ _ _ _
    | negated _ =>
      refine .of (.inr (show 150 ≤ 160 by decide)) trivial ?_
      exact List.forall_mem_singleton.mpr (hliteral _ _ _ _)
  | double x => cases h
  | text t =>
    cases h
    exact hliteral _ _ _ _
  | list items ih =>
    cases h with
    | list hitems =>
      exact .of trivial trivial (forall_of_forall₂ hitems fun item hitem e => ih item hitem)
  | map members ih =>
    cases h with
    | object hkeys hitems =>
      exact .of trivial trivial (forall_of_forall₂ hitems fun item hitem e => ih item hitem)

end Denotes

/-! ## Places and numbers do not count -/

theorem unplacedAll_eq_map (es : List Expr) : unplacedAll es = es.map unplaced := by
  induction es with
  | nil => rfl
  | cons e es ih => rw [unplacedAll, ih, List.map_cons]

theorem unplacedEntries_eq_map (es : List Entry) : unplacedEntries es = es.map Entry.unplaced := by
  induction es with
  | nil => rfl
  | cons e es ih => rw [unplacedEntries, ih, List.map_cons]

section Unplaced

variable {e : Expr}

theorem exists_of_unplaced_literal {node : Nat} {kind : LiteralKind} {lexeme : String}
    {pos : Position} (h : e.unplaced = .literal node kind lexeme pos) :
    ∃ node' pos', e = .literal node' kind lexeme pos' := by
  cases e with
  | literal node' kind' lexeme' pos' =>
    obtain ⟨-, rfl, rfl, -⟩ := literal.inj h
    exact ⟨node', pos', rfl⟩
  | _ => cases h

theorem exists_of_unplaced_unary {op : UnaryOp} {operand : Expr} {pos : Position}
    (h : e.unplaced = .unary op operand pos) :
    ∃ operand' pos', e = .unary op operand' pos' ∧ operand'.unplaced = operand := by
  cases e with
  | unary op' operand' pos' =>
    obtain ⟨rfl, hoperand, -⟩ := unary.inj h
    exact ⟨operand', pos', rfl, hoperand⟩
  | _ => cases h

theorem exists_of_unplaced_list {elems : List Expr} {pos : Position}
    (h : e.unplaced = .list elems pos) :
    ∃ elems' pos', e = .list elems' pos' ∧ unplacedAll elems' = elems := by
  cases e with
  | list elems' pos' => exact ⟨elems', pos', rfl, (list.inj h).1⟩
  | _ => cases h

theorem exists_of_unplaced_object {entries : List Entry} {pos : Position}
    (h : e.unplaced = .object entries pos) :
    ∃ entries' pos', e = .object entries' pos' ∧ unplacedEntries entries' = entries := by
  cases e with
  | object entries' pos' => exact ⟨entries', pos', rfl, (object.inj h).1⟩
  | _ => cases h

end Unplaced

namespace Denotes

theorem forall₂_of_unplaced {es es' : List Expr} {items : List Data}
    (h : List.Forall₂ Denotes es items) (hes : es'.map unplaced = es.map unplaced)
    (hone : ∀ item ∈ items, ∀ e e', Denotes e item → e'.unplaced = e.unplaced → Denotes e' item) :
    List.Forall₂ Denotes es' items := by
  induction h generalizing es' with
  | nil =>
    obtain rfl := List.map_eq_nil_iff.mp hes
    exact .nil
  | cons he _ ih =>
    cases es' with
    | nil => cases hes
    | cons e' es' =>
      obtain ⟨he', hes'⟩ := List.cons.inj hes
      obtain ⟨hitem, hitems⟩ := List.forall_mem_cons.mp hone
      exact .cons (hitem _ _ he he') (ih hes' hitems)

/-- What an expression denotes does not depend on the places of its tokens and the numbers of its
    nodes. -/
theorem of_unplaced {e e' : Expr} {d : Data} (h : e.Denotes d) (he : e'.unplaced = e.unplaced) :
    e'.Denotes d := by
  induction d using Data.induct generalizing e e' with
  | int n =>
    cases h with
    | int hvalue =>
      obtain ⟨node, pos, rfl⟩ := exists_of_unplaced_literal he
      exact .int hvalue
    | negated hvalue =>
      obtain ⟨operand, pos, rfl, hoperand⟩ := exists_of_unplaced_unary he
      obtain ⟨node, pos', rfl⟩ := exists_of_unplaced_literal hoperand
      exact .negated hvalue
  | double x => cases h
  | text t =>
    cases h with
    | text hvalue =>
      obtain ⟨node, pos, rfl⟩ := exists_of_unplaced_literal he
      exact .text hvalue
  | list items ih =>
    cases h with
    | list hitems =>
      obtain ⟨elems, pos, rfl, helems⟩ := exists_of_unplaced_list he
      rw [unplacedAll_eq_map, unplacedAll_eq_map] at helems
      exact .list (forall₂_of_unplaced hitems helems fun item hitem e e' => ih item hitem)
  | map members ih =>
    cases h with
    | object hkeys hitems =>
      obtain ⟨entries, pos, rfl, hentries⟩ := exists_of_unplaced_object he
      rw [unplacedEntries_eq_map, unplacedEntries_eq_map] at hentries
      have hkeys' := congrArg (List.map Entry.key) hentries
      have hvalues := congrArg (List.map Entry.value) hentries
      simp only [List.map_map, Function.comp_def, Entry.key_unplaced, Entry.value_unplaced]
        at hkeys' hvalues
      refine .object (hkeys'.trans hkeys) (forall₂_of_unplaced hitems ?_ ?_)
      · rw [List.map_map, List.map_map]
        exact hvalues
      · exact fun item hitem e e' => ih item hitem

end Denotes

end Expr

/-! ## Evaluation -/

/-- Every remembered value is what the node of its number builds. -/
def Literal.AllBuilt (table : Array Literal) (known : List (Nat × Value)) : Prop :=
  ∀ entry ∈ known, table[entry.1]?.map Literal.value = some (.ok entry.2)

instance (table : Array Literal) (known : List (Nat × Value)) :
    Decidable (Literal.AllBuilt table known) :=
  inferInstanceAs (Decidable (∀ entry ∈ known, _))

namespace Literal.AllBuilt

variable {table table' : Array Literal} {known : List (Nat × Value)} {l : Literal} {node : Nat}

theorem nil : AllBuilt table [] := List.forall_mem_nil _

/-- What is remembered of a node is what would be built. -/
theorem recalled (h : AllBuilt table known) (hl : table[node]? = some l) :
    l.recalled node known = l.value := by
  unfold Literal.recalled
  cases hknown : known.lookup node with
  | none => rfl
  | some v =>
    have hbuilt := h (node, v) (Assoc.mem_of_lookup hknown)
    rw [hl] at hbuilt
    exact (Option.some.inj hbuilt).symm

/-- A literal that cannot be built is not remembered, and one that is remembered is not built
    again. -/
theorem remember (h : AllBuilt table known) (hl : table[node]? = some l) :
    AllBuilt table (l.remember node known) := by
  unfold Literal.remember
  cases known.lookup node with
  | some v => exact h
  | none =>
    cases hv : l.value with
    | error cause => exact h
    | ok v => exact List.forall_mem_cons.mpr ⟨by rw [hl, Option.map_some, hv], h⟩

theorem extend (h : AllBuilt table known) (htable : Extends table table') :
    AllBuilt table' known := by
  intro entry hentry
  obtain ⟨l, hl, hvalue⟩ := Option.map_eq_some_iff.mp (h entry hentry)
  rw [htable _ l hl, Option.map_some, hvalue]

end Literal.AllBuilt

/-- In every store that meets a condition, and with enough fuel, a computation succeeds in one and
    the same way. It adds to the store at most and makes no nodes, and its result meets a condition
    there. -/
def EvalM.Builds {α : Type} (table : Array Literal) (P : Store → Prop) (enough : Nat)
    (x : Nat → EvalM α) (Q : Store → α → Prop) : Prop :=
  ∀ m, m.nodes = table → P m.store → Literal.AllBuilt table m.literals → ∃ a m',
    (∀ fuel, enough ≤ fuel → x fuel m = .done a m') ∧ Q m'.store a ∧ m.store.Extends m'.store ∧
      m'.nodes = table ∧ Literal.AllBuilt table m'.literals

namespace EvalM.Builds

variable {α β : Type} {table : Array Literal} {P : Store → Prop} {enough : Nat}
  {x : Nat → EvalM α} {Q : Store → α → Prop}

theorem pure {a : α} (h : ∀ s, P s → Q s a) : Builds table P enough (fun _ => pure a) Q :=
  fun m hnodes hP hm => ⟨a, m, fun _ _ => rfl, h m.store hP, .refl _, hnodes, hm⟩

theorem bind {f : Nat → α → EvalM β} {R : Store → β → Prop} (hx : Builds table P enough x Q)
    (hf : ∀ a, Builds table (fun s => Q s a) enough (fun fuel => f fuel a) R) :
    Builds table P enough (fun fuel => x fuel >>= f fuel) R := by
  intro m hnodes hP hm
  obtain ⟨a, m₁, hdone, hQ, hext, hnodes₁, hm₁⟩ := hx m hnodes hP hm
  obtain ⟨b, m₂, hdone', hR, hext', hm₂⟩ := hf a m₁ hnodes₁ hQ hm₁
  refine ⟨b, m₂, fun fuel hfuel => ?_, hR, hext.trans hext', hm₂⟩
  have hbind : (x fuel >>= f fuel) m = f fuel a m₁ := by
    show EvalM.andThen (x fuel) (f fuel) m = _
    rw [EvalM.andThen, hdone fuel hfuel]
  exact hbind.trans (hdone' fuel hfuel)

/-- What stays true while the store grows is still true at the end. -/
theorem frame {I : Store → Prop} (hI : ∀ {s t}, s.Extends t → I s → I t)
    (h : Builds table (fun _ => True) enough x Q) :
    Builds table I enough x (fun s a => Q s a ∧ I s) := by
  intro m hnodes hstart hm
  obtain ⟨a, m', hdone, hQ, hext, hm'⟩ := h m hnodes trivial hm
  exact ⟨a, m', hdone, ⟨hQ, hI hext hstart⟩, hext, hm'⟩

theorem mono {enough' : Nat} (h : Builds table P enough x Q) (hle : enough ≤ enough') :
    Builds table P enough' x Q := by
  intro m hnodes hP hm
  obtain ⟨a, m', hdone, hrest⟩ := h m hnodes hP hm
  exact ⟨a, m', fun fuel hfuel => hdone fuel (hle.trans hfuel), hrest⟩

theorem literal {l : Literal} {node : Nat} (hnode : table[node]? = some l) {v : Value}
    {Q : Store → Value → Prop} (h : l.value = .ok v) (hQ : ∀ s, Q s v) :
    Builds table P enough (fun _ => Eval.literal node l) Q := by
  intro m hnodes _ hm
  have hdone : Eval.literal node l m =
      .done v { m with literals := l.remember node m.literals } := by
    rw [Eval.literal_eq, hm.recalled hnode, h]
  exact ⟨v, _, fun _ _ => hdone, hQ _, .refl _, hnodes, hm.remember hnode⟩

/-- The negation of a number. -/
theorem negate {n : Int64} {v : Value} :
    Builds table (fun _ => v = .int n) enough (fun _ => Eval.applyUnary .minus v)
      (fun s w => s.Holds w (.int (-n))) := by
  rintro m hnodes rfl hm
  exact ⟨.int (-n), m, fun _ _ => rfl, .int _, .refl _, hnodes, hm⟩

theorem newArray {vs : List Value} {items : List Data} :
    Builds table (fun s => List.Forall₂ s.Holds vs items) enough
      (fun _ => EvalM.update fun s => s.newArray vs.toArray)
      (fun s v => s.Holds v (.list items)) := by
  intro m hnodes hvs hm
  refine ⟨_, _, fun _ _ => rfl, ?_, m.store.newArray_extends _, hnodes, hm⟩
  refine .array Array.getElem?_push_size ?_
  exact hvs.imp fun _ _ hv => hv.mono (m.store.newArray_extends _)

theorem newObject {vs : List (Text × Value)} {entries : List (Text × Data)}
    (hnodup : (entries.map Prod.fst).Nodup) :
    Builds table (fun s => vs.map Prod.fst = entries.map Prod.fst ∧
        List.Forall₂ s.Holds (vs.map Prod.snd) (entries.map Prod.snd)) enough
      (fun _ => EvalM.update fun s => s.newObject (Members.ofList vs))
      (fun s v => s.Holds v (.map entries)) := by
  intro m hnodes hvs hm
  obtain ⟨hkeys, hvalues⟩ := hvs
  refine ⟨_, _, fun _ _ => rfl, ?_, m.store.newObject_extends _, hnodes, hm⟩
  have hdistinct : (vs.map Prod.fst).Nodup := hkeys ▸ hnodup
  refine .object Array.getElem?_push_size (.ofList vs) ?_ ?_
  · rw [Members.keys_ofList hdistinct, hkeys]
  · rw [Members.entries_ofList hdistinct]
    exact hvalues.imp fun _ _ hv => hv.mono (m.store.newObject_extends _)

section Interp

variable {engine : Engine} {scope : Nat}

/-- A visit takes more fuel than the step that it makes. -/
theorem visit {e : Expr} {Q : Store → Value → Prop} {bound : Nat}
    (h : Builds table P enough (fun fuel => (engine.interp fuel).expr scope e) Q)
    (hbound : enough < bound) :
    Builds table P bound (fun fuel => Eval.visit engine fuel scope e) Q := by
  intro m hnodes hP hm
  obtain ⟨v, m', hdone, hQ, hext, hm'⟩ := h m hnodes hP hm
  refine ⟨v, m', fun fuel hfuel => ?_, hQ, hext, hm'⟩
  obtain ⟨fuel, rfl⟩ : ∃ k, fuel = k + 1 := ⟨fuel - 1, by omega⟩
  have hstep : (engine.interp fuel).expr scope e m = .done v m' := hdone fuel (by omega)
  show EvalM.locating e.pos ((engine.interp fuel).expr scope e) m = _
  rw [EvalM.locating, EvalM.mapFault, hstep]

/-- Literals take no more than the fuel for their visit. -/
theorem visitLiteral {node : Nat} {kind : LiteralKind} {lexeme : String} {pos : Position}
    (hnode : (Expr.literal node kind lexeme pos).StandsIn table) {v : Value}
    {Q : Store → Value → Prop} (h : Literal.value ⟨kind, lexeme⟩ = .ok v) (hQ : ∀ s, Q s v)
    {bound : Nat} (hbound : 0 < bound) :
    Builds table P bound (fun fuel => Eval.visit engine fuel scope (.literal node kind lexeme pos))
      Q :=
  visit (literal (hnode _ List.mem_cons_self) h hQ) hbound

/-- Expressions whose values hold items. -/
theorem visitAll {es : List Expr} {items : List Data}
    (h : List.Forall₂ (fun e item => Builds table (fun _ => True) enough
      (fun fuel => Eval.visit engine fuel scope e) (fun s v => s.Holds v item)) es items) :
    Builds table (fun _ => True) enough (fun fuel => (engine.interp fuel).visitAll scope es)
      (fun s vs => List.Forall₂ s.Holds vs items) := by
  induction h with
  | nil => exact .pure fun _ _ => .nil
  | cons he _ ih =>
    refine bind he fun v => ?_
    refine bind (ih.frame fun hext hv => hv.mono hext) fun vs => ?_
    exact .pure fun s ⟨hvs, hv⟩ => .cons hv hvs

/-- Members whose values hold items. -/
theorem visitEntries {entries : List Entry} {items : List Data}
    (h : List.Forall₂ (fun e item => Builds table (fun _ => True) enough
      (fun fuel => Eval.visit engine fuel scope e) (fun s v => s.Holds v item))
      (entries.map Entry.value) items) :
    Builds table (fun _ => True) enough
      (fun fuel => (engine.interp fuel).visitEntries scope entries)
      (fun s vs => vs.map Prod.fst = entries.map Entry.key ∧
        List.Forall₂ s.Holds (vs.map Prod.snd) items) := by
  induction entries generalizing items with
  | nil =>
    cases h
    exact .pure fun _ _ => ⟨rfl, .nil⟩
  | cons entry entries ih =>
    obtain ⟨key, pos, value⟩ := entry
    obtain _ | ⟨he, hentries⟩ := h
    refine bind he fun v => ?_
    refine bind ((ih hentries).frame fun hext hv => hv.mono hext) fun vs => ?_
    exact .pure fun s ⟨⟨hkeys, hvs⟩, hv⟩ => ⟨congrArg (Text.ofString key :: ·) hkeys, .cons hv hvs⟩

end Interp

end EvalM.Builds

theorem Expr.sizeOf_pos (e : Expr) : 0 < sizeOf e := by
  apply Nat.pos_of_ne_zero
  cases e <;> simp

namespace Expr.Denotes

/-- What is known of the evaluation of each item, with one bound for all of them. -/
theorem builds_forall₂ {engine : Engine} {scope bound : Nat} {table : Array Literal}
    {es : List Expr} {items : List Data} (h : List.Forall₂ Denotes es items)
    (hes : ∀ e ∈ es, sizeOf e < bound ∧ e.StandsIn table)
    (hone : ∀ item ∈ items, ∀ e, Denotes e item → e.StandsIn table →
      EvalM.Builds table (fun _ => True) (sizeOf e)
        (fun fuel => Eval.visit engine fuel scope e) (fun s v => s.Holds v item)) :
    List.Forall₂ (fun e item => EvalM.Builds table (fun _ => True) (bound - 1)
      (fun fuel => Eval.visit engine fuel scope e) (fun s v => s.Holds v item)) es items := by
  have hboth := (List.forall₂_and_left es items).mpr ⟨hes, h⟩
  refine forall₂_imp_of_mem hboth ?_
  rintro item hitem e ⟨⟨hlt, hnodes⟩, he⟩
  exact (hone item hitem e he hnodes).mono (Nat.le_sub_one_of_lt hlt)

/-- An expression that denotes data evaluates to a value that holds them. -/
theorem builds {e : Expr} {d : Data} (h : e.Denotes d) (hkeys : d.AllKeys List.Nodup)
    {table : Array Literal} (hnodes : e.StandsIn table) (engine : Engine) (scope : Nat) :
    EvalM.Builds table (fun _ => True) (sizeOf e) (fun fuel => Eval.visit engine fuel scope e)
      (fun s v => s.Holds v d) := by
  have hless (e : Expr) : sizeOf e - 1 < sizeOf e := Nat.sub_one_lt e.sizeOf_pos.ne'
  induction d using Data.induct generalizing e with
  | int n =>
    cases h with
    | int hvalue => exact .visitLiteral hnodes hvalue (fun _ => .int n) (sizeOf_pos _)
    | @negated node kind lexeme pos pos' n hvalue =>
      have hoperand : EvalM.Builds table (fun _ => True) (sizeOf (literal node kind lexeme pos))
          (fun fuel => Eval.visit engine fuel scope (.literal node kind lexeme pos))
          (fun _ v => v = .int n) := by
        refine .visitLiteral (hnodes.part List.mem_cons_self) hvalue ?_ (sizeOf_pos _)
        exact fun _ => rfl
      exact .visit (hoperand.bind fun v => .negate) (sizeOf_lt_of_mem_parts List.mem_cons_self)
  | double x => cases h
  | text t =>
    cases h with
    | text hvalue => exact .visitLiteral hnodes hvalue (fun _ => .text t) (sizeOf_pos _)
  | list items ih =>
    obtain _ | _ | _ | hitemKeys | _ := hkeys
    cases h with
    | @list elems pos _ hitems =>
      have helems : ∀ e ∈ elems, sizeOf e < sizeOf (Expr.list elems pos) ∧ e.StandsIn table :=
        fun e he => ⟨sizeOf_lt_of_mem_parts he, hnodes.part he⟩
      have hvisits := builds_forall₂ hitems helems fun item hitem e he =>
        ih item hitem he (hitemKeys item hitem)
      exact .visit ((EvalM.Builds.visitAll hvisits).bind fun vs => .newArray) (hless _)
  | map members ih =>
    obtain _ | _ | _ | _ | ⟨hnodup, hitemKeys⟩ := hkeys
    cases h with
    | @object entries pos _ hkeys hitems =>
      have hvalues : ∀ e ∈ entries.map Entry.value,
          sizeOf e < sizeOf (Expr.object entries pos) ∧ e.StandsIn table :=
        fun e he => ⟨sizeOf_lt_of_mem_parts he, hnodes.part he⟩
      have hvisits := builds_forall₂ hitems hvalues fun item hitem e he =>
        ih item hitem he (hitemKeys item hitem)
      have hentries := EvalM.Builds.visitEntries hvisits
      rw [hkeys] at hentries
      exact .visit (hentries.bind fun vs => .newObject hnodup) (hless _)

end Expr.Denotes

end ExprLang
