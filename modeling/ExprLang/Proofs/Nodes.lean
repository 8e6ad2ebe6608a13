import ExprLang.Eval.Compile
import ExprLang.Proofs.Parts

/-!
# Literal nodes

The literal nodes of an expression, in the order of the source, are the literals written in it, each
with its number. Numbering gives them the numbers that follow those of the table, and adds them to
it (`Expr.numbered_eq`), so that no two nodes of all programs have the same number.
-/

namespace ExprLang

mutual

/-- The literal nodes of a target, each with its number. -/
def Target.nodes : Target → List (Literal × Nat)
  | .name _ _ => []
  | .index base key _ => base.nodes ++ key.nodes
  | .member base _ _ => base.nodes

/-- The literal nodes of an expression, each with its number. -/
def Expr.nodes : Expr → List (Literal × Nat)
  | .literal node kind lexeme _ => [(⟨kind, lexeme⟩, node)]
  | .ref target => target.nodes
  | .call callee args _ _ => callee.nodes ++ Expr.allNodes args
  | .list elems _ => Expr.allNodes elems
  | .object entries _ => Expr.entryNodes entries
  | .group inner _ => inner.nodes
  | .unary _ operand _ => operand.nodes
  | .stepBefore _ target _ => target.nodes
  | .stepAfter _ target _ => target.nodes
  | .binary _ left right _ => left.nodes ++ right.nodes
  | .conditional test ifTrue ifFalse _ => test.nodes ++ (ifTrue.nodes ++ ifFalse.nodes)
  | .assign _ target value _ => target.nodes ++ value.nodes

/-- The literal nodes of a member. -/
def Entry.nodes : Entry → List (Literal × Nat)
  | .mk _ _ value => value.nodes

/-- The literal nodes of some expressions. -/
def Expr.allNodes : List Expr → List (Literal × Nat)
  | [] => []
  | e :: es => e.nodes ++ Expr.allNodes es

/-- The literal nodes of some members. -/
def Expr.entryNodes : List Entry → List (Literal × Nat)
  | [] => []
  | e :: es => e.nodes ++ Expr.entryNodes es

end

/-! ## Parts -/

theorem Target.nodes_part {target : Target} {part : Expr} (h : part ∈ target.parts) :
    part.nodes ⊆ target.nodes := by
  cases target with
  | name name pos => cases h
  | index base key pos =>
    simp only [parts, List.mem_cons, List.not_mem_nil, or_false] at h
    rw [nodes]
    rcases h with rfl | rfl
    · exact List.subset_append_left _ _
    · exact List.subset_append_right _ _
  | member base name pos =>
    obtain rfl := List.mem_singleton.mp h
    rw [nodes]
    exact List.Subset.refl _

theorem Expr.nodes_subset_allNodes {es : List Expr} {e : Expr} (h : e ∈ es) :
    e.nodes ⊆ allNodes es := by
  induction h with
  | head => exact List.subset_append_left _ _
  | tail _ _ ih => exact List.subset_append_of_subset_right _ ih

theorem Expr.nodes_subset_entryNodes {es : List Entry} {e : Entry} (h : e ∈ es) :
    e.value.nodes ⊆ entryNodes es := by
  induction h with
  | head =>
    obtain ⟨key, pos, value⟩ := e
    exact List.subset_append_left _ _
  | tail _ _ ih => exact List.subset_append_of_subset_right _ ih

/-- The nodes of a part are nodes of the whole. -/
theorem Expr.nodes_part {e part : Expr} (h : part ∈ e.parts) : part.nodes ⊆ e.nodes := by
  cases e with
  | literal node kind lexeme pos => cases h
  | ref target => exact Target.nodes_part h
  | call callee args text pos =>
    rcases List.mem_cons.mp h with rfl | hmem
    · exact List.subset_append_left _ _
    · exact List.subset_append_of_subset_right _ (nodes_subset_allNodes hmem)
  | list elems pos => exact nodes_subset_allNodes h
  | object entries pos =>
    obtain ⟨entry, hmem, rfl⟩ := List.mem_map.mp h
    exact nodes_subset_entryNodes hmem
  | group inner pos =>
    obtain rfl := List.mem_singleton.mp h
    exact List.Subset.refl _
  | unary op operand pos =>
    obtain rfl := List.mem_singleton.mp h
    exact List.Subset.refl _
  | stepBefore op target pos => exact Target.nodes_part h
  | stepAfter op target pos => exact Target.nodes_part h
  | binary op left right pos =>
    simp only [parts, List.mem_cons, List.not_mem_nil, or_false] at h
    rcases h with rfl | rfl
    · exact List.subset_append_left _ _
    · exact List.subset_append_right _ _
  | conditional test ifTrue ifFalse pos =>
    simp only [parts, List.mem_cons, List.not_mem_nil, or_false] at h
    rcases h with rfl | rfl | rfl
    · exact List.subset_append_left _ _
    · exact List.subset_append_of_subset_right _ (List.subset_append_left _ _)
    · exact List.subset_append_of_subset_right _ (List.subset_append_right _ _)
  | assign op target value pos =>
    rcases List.mem_cons.mp h with rfl | hmem
    · exact List.subset_append_right _ _
    · exact List.subset_append_of_subset_left _ (Target.nodes_part hmem)

/-! ## Numbering -/

namespace Literal

/-- What numbering comes to: the nodes have the numbers that follow those of the table `before`, in
    order, and the table `after` has them at its end. -/
structure Numbered (old new : List (Literal × Nat)) (before after : Array Literal) : Prop where
  nodes : new = (old.map Prod.fst).zipIdx before.size
  table : after = before ++ (old.map Prod.fst).toArray

variable {old new old' new' : List (Literal × Nat)} {before middle after : Array Literal}

theorem Numbered.nil : Numbered [] [] before before := ⟨rfl, by simp⟩

theorem Numbered.append (h : Numbered old new before middle)
    (h' : Numbered old' new' middle after) :
    Numbered (old ++ old') (new ++ new') before after := by
  obtain ⟨rfl, rfl⟩ := h
  obtain ⟨rfl, rfl⟩ := h'
  constructor
  · simp [List.zipIdx_append]
  · simp

end Literal

mutual

theorem Target.numbered_eq : ∀ (target : Target) (nodes : Array Literal),
    Literal.Numbered target.nodes (target.numbered nodes).1.nodes nodes (target.numbered nodes).2
  | .name _ _, _ => .nil
  | .index base key _, nodes =>
    (base.numbered_eq nodes).append (key.numbered_eq (base.numbered nodes).2)
  | .member base _ _, nodes => base.numbered_eq nodes

/-- Numbering makes each literal of an expression a new node. -/
theorem Expr.numbered_eq : ∀ (e : Expr) (nodes : Array Literal),
    Literal.Numbered e.nodes (e.numbered nodes).1.nodes nodes (e.numbered nodes).2
  | .literal _ _ _ _, _ => ⟨rfl, by simp [Expr.numbered, Expr.nodes]⟩
  | .ref target, nodes => target.numbered_eq nodes
  | .call callee args _ _, nodes =>
    (callee.numbered_eq nodes).append (Expr.allNumbered_eq args (callee.numbered nodes).2)
  | .list elems _, nodes => Expr.allNumbered_eq elems nodes
  | .object entries _, nodes => Expr.entriesNumbered_eq entries nodes
  | .group inner _, nodes => inner.numbered_eq nodes
  | .unary _ operand _, nodes => operand.numbered_eq nodes
  | .stepBefore _ target _, nodes => target.numbered_eq nodes
  | .stepAfter _ target _, nodes => target.numbered_eq nodes
  | .binary _ left right _, nodes =>
    (left.numbered_eq nodes).append (right.numbered_eq (left.numbered nodes).2)
  | .conditional test ifTrue ifFalse _, nodes =>
    (test.numbered_eq nodes).append
      ((ifTrue.numbered_eq (test.numbered nodes).2).append (ifFalse.numbered_eq _))
  | .assign _ target value _, nodes =>
    (target.numbered_eq nodes).append (value.numbered_eq (target.numbered nodes).2)

theorem Entry.numbered_eq : ∀ (entry : Entry) (nodes : Array Literal),
    Literal.Numbered entry.nodes (entry.numbered nodes).1.nodes nodes (entry.numbered nodes).2
  | .mk _ _ value, nodes => value.numbered_eq nodes

theorem Expr.allNumbered_eq : ∀ (es : List Expr) (nodes : Array Literal),
    Literal.Numbered (Expr.allNodes es) (Expr.allNodes (Expr.allNumbered es nodes).1) nodes
      (Expr.allNumbered es nodes).2
  | [], _ => .nil
  | e :: es, nodes =>
    (e.numbered_eq nodes).append (Expr.allNumbered_eq es (e.numbered nodes).2)

theorem Expr.entriesNumbered_eq : ∀ (es : List Entry) (nodes : Array Literal),
    Literal.Numbered (Expr.entryNodes es) (Expr.entryNodes (Expr.entriesNumbered es nodes).1)
      nodes (Expr.entriesNumbered es nodes).2
  | [], _ => .nil
  | e :: es, nodes =>
    (e.numbered_eq nodes).append (Expr.entriesNumbered_eq es (e.numbered nodes).2)

end

/-! ## Tables -/

namespace Literal

/-- A table that has all nodes of another one. -/
def Extends (table table' : Array Literal) : Prop :=
  ∀ (node : Nat) (l : Literal), table[node]? = some l → table'[node]? = some l

theorem Extends.refl (table : Array Literal) : Extends table table := fun _ _ h => h

end Literal

/-- The nodes of an expression stand in a table. -/
def Expr.StandsIn (e : Expr) (table : Array Literal) : Prop :=
  ∀ x ∈ e.nodes, table[x.2]? = some x.1

instance (e : Expr) (table : Array Literal) : Decidable (e.StandsIn table) :=
  inferInstanceAs (Decidable (∀ x ∈ e.nodes, table[x.2]? = some x.1))

theorem Expr.StandsIn.part {e part : Expr} {table : Array Literal} (h : e.StandsIn table)
    (hpart : part ∈ e.parts) : part.StandsIn table :=
  fun x hx => h x (nodes_part hpart hx)

theorem Literal.Numbered.extends {old new : List (Literal × Nat)} {before after : Array Literal}
    (h : Numbered old new before after) : Extends before after := by
  intro node l hl
  have hlt : node < before.size := (Array.getElem?_eq_some_iff.mp hl).1
  rw [h.table, Array.getElem?_append_left hlt, hl]

theorem Literal.Numbered.mem {old new : List (Literal × Nat)} {before after : Array Literal}
    (h : Numbered old new before after) {x : Literal × Nat} (hmem : x ∈ new) :
    after[x.2]? = some x.1 := by
  rw [h.nodes, List.mem_zipIdx_iff_le_and_getElem?_sub] at hmem
  obtain ⟨hle, hl⟩ := hmem
  rw [h.table, Array.getElem?_append_right hle, List.getElem?_toArray, hl]

/-- Numbered expressions stand in the table, whose nodes are kept. -/
theorem Expr.standsIn_numbered (e : Expr) (table : Array Literal) :
    (e.numbered table).1.StandsIn (e.numbered table).2 :=
  fun _ h => (e.numbered_eq table).mem h

theorem Program.numbered_extends (p : Program) (table : Array Literal) :
    Literal.Extends table (p.numbered table).2 ∧
      ∀ root ∈ (p.numbered table).1.root, root.StandsIn (p.numbered table).2 := by
  obtain ⟨root⟩ := p
  cases root with
  | none => exact ⟨.refl _, nofun⟩
  | some root =>
    refine ⟨(root.numbered_eq table).extends, ?_⟩
    rintro _ ⟨rfl⟩
    exact root.standsIn_numbered table

/-! ## Compilation -/

namespace Engine

variable (engine : Engine) {source : String}

/-- The machine after a program has been compiled from a source text. -/
def compiled (engine : Engine) (source : String) (program : Program) (m : Machine) : Machine :=
  { m with
    log := m.log ++ (engine.compileLog source).toArray
    nodes := (program.numbered m.nodes).2 }

theorem compile_of_ok {program : Program} (h : Program.ofSource source = .ok program)
    (m : Machine) : engine.compile source m =
      .done (program.numbered m.nodes).1 (engine.compiled source program m) := by
  unfold compile
  rw [h]
  rfl

theorem compile_of_error {f : Fault} (h : Program.ofSource source = .error f) (m : Machine) :
    engine.compile source m =
      .failed f { m with log := m.log ++ (engine.compileLog source).toArray } := by
  unfold compile
  rw [h]
  rfl

end Engine

end ExprLang
