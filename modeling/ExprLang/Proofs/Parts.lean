import ExprLang.Expr

/-!
# Parts of expressions

An expression is made of smaller ones: those that stand in it directly, and those that its targets
are made of.
-/

namespace ExprLang

/-- The expressions that a target is made of, which finding its slot visits. -/
def Target.parts : Target → List Expr
  | .name .. => []
  | .index base key _ => [base, key]
  | .member base _ _ => [base]

/-- The expression of a member. -/
def Entry.value : Entry → Expr
  | .mk _ _ value => value

/-- The expressions that an expression is made of, which evaluating it visits unless a call is
    opened. -/
def Expr.parts : Expr → List Expr
  | .literal .. => []
  | .ref target => target.parts
  | .call callee args _ _ => .ref callee :: args
  | .list elems _ => elems
  | .object entries _ => entries.map Entry.value
  | .group inner _ => [inner]
  | .unary _ operand _ => [operand]
  | .stepBefore _ target _ | .stepAfter _ target _ => target.parts
  | .binary _ left right _ => [left, right]
  | .conditional test ifTrue ifFalse _ => [test, ifTrue, ifFalse]
  | .assign _ target value _ => value :: target.parts

theorem Target.sizeOf_lt_of_mem_parts {target : Target} {e : Expr} (h : e ∈ target.parts) :
    sizeOf e < sizeOf target := by
  cases target with
  | name name pos => cases h
  | index base key pos =>
    simp only [parts, List.mem_cons, List.not_mem_nil, or_false] at h
    rcases h with rfl | rfl <;> simp only [index.sizeOf_spec] <;> omega
  | member base name pos =>
    obtain rfl := List.mem_singleton.mp h
    simp only [member.sizeOf_spec]
    omega

theorem Entry.sizeOf_value_lt (entry : Entry) : sizeOf entry.value < sizeOf entry := by
  obtain ⟨key, pos, value⟩ := entry
  simp only [Entry.value, mk.sizeOf_spec]
  omega

theorem Expr.sizeOf_lt_of_mem_parts {e part : Expr} (h : part ∈ e.parts) :
    sizeOf part < sizeOf e := by
  cases e with
  | literal node kind lexeme pos => cases h
  | ref target =>
    have hlt := Target.sizeOf_lt_of_mem_parts h
    simp only [ref.sizeOf_spec]
    omega
  | call callee args text pos =>
    rcases List.mem_cons.mp h with rfl | hmem
    · have hargs : 0 < sizeOf args := by
        cases args <;> simp only [List.nil.sizeOf_spec, List.cons.sizeOf_spec] <;> omega
      simp only [ref.sizeOf_spec, call.sizeOf_spec]
      omega
    · have hlt := List.sizeOf_lt_of_mem hmem
      simp only [call.sizeOf_spec]
      omega
  | list elems pos =>
    have hlt : sizeOf part < sizeOf elems := List.sizeOf_lt_of_mem h
    simp only [list.sizeOf_spec]
    omega
  | object entries pos =>
    obtain ⟨entry, hmem, rfl⟩ := List.mem_map.mp h
    have hlt := List.sizeOf_lt_of_mem hmem
    have hvalue := entry.sizeOf_value_lt
    simp only [object.sizeOf_spec]
    omega
  | group inner pos =>
    obtain rfl := List.mem_singleton.mp h
    simp only [group.sizeOf_spec]
    omega
  | unary op operand pos =>
    obtain rfl := List.mem_singleton.mp h
    simp only [unary.sizeOf_spec]
    omega
  | stepBefore op target pos =>
    have hlt := Target.sizeOf_lt_of_mem_parts h
    simp only [stepBefore.sizeOf_spec]
    omega
  | stepAfter op target pos =>
    have hlt := Target.sizeOf_lt_of_mem_parts h
    simp only [stepAfter.sizeOf_spec]
    omega
  | binary op left right pos =>
    simp only [parts, List.mem_cons, List.not_mem_nil, or_false] at h
    rcases h with rfl | rfl <;> simp only [binary.sizeOf_spec] <;> omega
  | conditional test ifTrue ifFalse pos =>
    simp only [parts, List.mem_cons, List.not_mem_nil, or_false] at h
    rcases h with rfl | rfl | rfl <;> simp only [conditional.sizeOf_spec] <;> omega
  | assign op target value pos =>
    rcases List.mem_cons.mp h with rfl | hmem
    · simp only [assign.sizeOf_spec]
      omega
    · have hlt := Target.sizeOf_lt_of_mem_parts hmem
      simp only [assign.sizeOf_spec]
      omega

end ExprLang
