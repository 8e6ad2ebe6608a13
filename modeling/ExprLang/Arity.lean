/-!
# Argument counts
-/

namespace ExprLang

/-- The least and the greatest number of arguments; no greatest number means any number from the
    least on (`FunctionValue.Arity`). -/
structure Arity where
  min : Nat
  max : Option Nat
  deriving DecidableEq, Repr

namespace Arity

/-- Exactly `n` arguments. -/
def exactly (n : Nat) : Arity := ⟨n, some n⟩

/-- At least `n` arguments (`Variadic`). -/
def atLeast (n : Nat) : Arity := ⟨n, none⟩

/-- Whether `n` arguments are allowed (`FunctionValue.checkArity`). -/
def accepts (a : Arity) (n : Nat) : Bool :=
  decide (a.min ≤ n) &&
    match a.max with
    | none => true
    | some max => decide (n ≤ max)

/-- The arity that a signature stands for (`parseSignature`): each `?` asks for one argument, a `*`
    allows any number more. Any other character is refused. -/
def ofSignature : List Char → Except Char Arity
  | [] => .ok (exactly 0)
  | c :: cs =>
    if c = '?' then
      match ofSignature cs with
      | .ok a => .ok ⟨a.min + 1, a.max.map (· + 1)⟩
      | .error bad => .error bad
    else if c = '*' then
      match ofSignature cs with
      | .ok a => .ok ⟨a.min, none⟩
      | .error bad => .error bad
    else .error c

end Arity

end ExprLang
