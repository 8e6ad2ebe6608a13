/-!
# Results of readers

A reader takes something from the front of a list of tokens, characters or bytes, and gives back
the rest with a proof that it is shorter, or at least no longer. That is what ends the recursion of
readers.
-/

namespace ExprLang

/-- Something read from the front of `input`, and what is left after it. -/
structure Parsed {τ : Type} (α : Type) (input : List τ) where
  value : α
  rest : List τ
  shorter : rest.length < input.length

/-- What `Parsed` is for a reader that may leave its input as it is. -/
structure Continued {τ : Type} (α : Type) (input : List τ) where
  value : α
  rest : List τ
  noLonger : rest.length ≤ input.length

variable {τ α : Type}

/-- What is left is shorter than anything that the input is no longer than. -/
theorem Parsed.length_rest_lt {input : List τ} (p : Parsed α input) {n : Nat}
    (h : input.length ≤ n) : p.rest.length < n :=
  Nat.lt_of_lt_of_le p.shorter h

/-- What is left after the first element and some more. -/
theorem length_drop_lt (c : τ) (rest : List τ) (n : Nat) :
    (rest.drop n).length < (c :: rest).length := by
  rw [List.length_drop, List.length_cons]
  exact Nat.lt_succ_of_le (Nat.sub_le _ _)

end ExprLang
