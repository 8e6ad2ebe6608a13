import ExprLang.Number.Digits
import ExprLang.Token.Lexer
import Mathlib.Data.Nat.Digits.Defs

/-!
# Digits and the numbers they write

A digit stands for its place in the row of digits, and a run of digits for the sum of these values,
each times a power of the base (`Number.positional`). Readers of digits, which go from the most
significant one on, give that number (`Number.natural?_eq_positional`, `Number.hexadecimal_value`).
-/

namespace ExprLang.Number

/-- The digits in their order, and the letters among them once more in upper case. -/
def hexDigits : List Char := "0123456789abcdefABCDEF".toList

/-- The value of a digit: its place among the digits. -/
def digitPlace (c : Char) : Nat :=
  if hexDigits.idxOf c < 16 then hexDigits.idxOf c else hexDigits.idxOf c - 6

/-- The number that digits of a base write, the most significant one first. -/
def positional (base : Nat) (cs : List Char) : Nat :=
  Nat.ofDigits base (cs.reverse.map digitPlace)

/-- One more digit at the end. -/
theorem positional_concat (base : Nat) (cs : List Char) (c : Char) :
    positional base (cs ++ [c]) = base * positional base cs + digitPlace c := by
  rw [positional, List.reverse_append, List.reverse_singleton, List.singleton_append,
    List.map_cons, Nat.ofDigits_cons, Nat.add_comm]
  rfl

/-! ## Single digits -/

/-- Characters up to an ASCII one can be tried one by one. -/
theorem forall_ascii {p : Char → Bool} (h : (List.range 128).all (fun n => p (Char.ofNat n)) = true)
    {c d : Char} (hle : c ≤ d) (hd : d.toNat < 128) : p c = true := by
  have hlt : c.toNat < 128 := Nat.lt_of_le_of_lt (UInt32.le_iff_toNat_le.mp hle) hd
  have hp := List.all_eq_true.mp h c.toNat (List.mem_range.mpr hlt)
  rwa [Char.ofNat_toNat] at hp

/-- A decimal digit is read as its place among the digits. -/
theorem decimalDigit?_eq {c : Char} (hc : c.isDigit = true) :
    decimalDigit? c = some (digitPlace c) := by
  have hle : c ≤ '9' := by
    simp only [Char.isDigit, Bool.and_eq_true, decide_eq_true_eq] at hc
    exact hc.2
  have hall := @forall_ascii
    (fun c => !c.isDigit || decide (decimalDigit? c = some (digitPlace c))) (by decide +kernel) c
    '9' hle (by decide)
  simpa [hc] using hall

/-- The characters that have a value as hexadecimal digits are the listed ones. -/
theorem hexadecimalDigit?_eq (c : Char) :
    hexadecimalDigit? c = if c ∈ hexDigits then some (digitPlace c) else none := by
  have hall := @forall_ascii (fun c => decide (hexadecimalDigit? c =
    if c ∈ hexDigits then some (digitPlace c) else none)) (by decide +kernel) c
  by_cases hle : c ≤ 'f'
  · exact of_decide_eq_true (hall hle (by decide))
  · have hnone : c ∉ hexDigits := by
      intro hmem
      have hlist : hexDigits.all (fun d => decide (d ≤ 'f')) = true := rfl
      exact hle (of_decide_eq_true (List.all_eq_true.mp hlist c hmem))
    rw [if_neg hnone, hexadecimalDigit?, if_neg, if_neg, if_neg]
    all_goals
      rintro ⟨-, h⟩
      exact hle (Char.le_trans h (by decide))

theorem isHexDigit_eq_isSome (c : Char) :
    Token.isHexDigit c = (hexadecimalDigit? c).isSome := by
  have hdigit : c.isDigit = true ↔ '0' ≤ c ∧ c ≤ '9' := by
    rw [Char.isDigit, Bool.and_eq_true, decide_eq_true_eq, decide_eq_true_eq]
    rfl
  rw [Bool.eq_iff_iff, Token.isHexDigit, hexadecimalDigit?]
  simp only [Bool.or_eq_true, Bool.and_eq_true, decide_eq_true_eq, hdigit]
  split
  · next h => simp [h]
  · next h =>
    split
    · next h' => simp [h']
    · next h' =>
      split
      · next h'' => simp [h'']
      · next h'' => simp [h, h', h'']

theorem isHexDigit_iff {c : Char} : Token.isHexDigit c = true ↔ c ∈ hexDigits := by
  rw [isHexDigit_eq_isSome, hexadecimalDigit?_eq]
  split
  · next h => exact iff_of_true rfl h
  · next h => exact iff_of_false Bool.false_ne_true h

/-! ## Runs of digits -/

section Runs

variable {base : Nat} {digit? : Char → Option Nat}

/-- A reader that knows the value of every digit goes on from the number of the digits before. -/
theorem digitsValue?_append {cs : List Char} (h : ∀ c ∈ cs, digit? c = some (digitPlace c))
    (before : List Char) : digitsValue? base digit? (positional base before) cs =
      some (positional base (before ++ cs)) := by
  induction cs generalizing before with
  | nil => rw [digitsValue?, List.append_nil]
  | cons c cs ih =>
    obtain ⟨hc, hcs⟩ := List.forall_mem_cons.mp h
    rw [digitsValue?, hc, List.append_cons, ← ih hcs, positional_concat]

theorem digitsValue?_eq_some {cs : List Char} (h : ∀ c ∈ cs, digit? c = some (digitPlace c)) :
    digitsValue? base digit? 0 cs = some (positional base cs) :=
  digitsValue?_append h []

/-- What is no digit ends the number in vain. -/
theorem forall_of_digitsValue? {cs : List Char} {acc n : Nat}
    (h : digitsValue? base digit? acc cs = some n) : ∀ c ∈ cs, digit? c ≠ none := by
  induction cs generalizing acc with
  | nil => exact List.forall_mem_nil _
  | cons c cs ih =>
    rw [digitsValue?] at h
    cases hc : digit? c with
    | none =>
      rw [hc] at h
      cases h
    | some d =>
      rw [hc] at h
      exact List.forall_mem_cons.mpr ⟨by rw [hc]; exact Option.some_ne_none d, ih h⟩

end Runs

theorem natural?_eq_positional {cs : List Char} (hne : cs ≠ [])
    (h : ∀ c ∈ cs, c.isDigit = true) : natural? cs = some (positional 10 cs) := by
  obtain ⟨c, rest, rfl⟩ := List.exists_cons_of_ne_nil hne
  exact digitsValue?_eq_some fun c hc => decimalDigit?_eq (h c hc)

/-- Hexadecimal digits are read as the number they write, and all else is refused. -/
theorem hexadecimal_value (cs : List Char) {n : Nat} :
    digitsValue? 16 hexadecimalDigit? 0 cs = some n ↔
      (∀ c ∈ cs, c ∈ hexDigits) ∧ positional 16 cs = n := by
  have hvalue (h : ∀ c ∈ cs, c ∈ hexDigits) :
      digitsValue? 16 hexadecimalDigit? 0 cs = some (positional 16 cs) :=
    digitsValue?_eq_some fun c hc => by rw [hexadecimalDigit?_eq, if_pos (h c hc)]
  constructor
  · intro h
    have hdigits : ∀ c ∈ cs, c ∈ hexDigits := by
      intro c hc
      by_contra hnone
      exact forall_of_digitsValue? h c hc (by rw [hexadecimalDigit?_eq, if_neg hnone])
    exact ⟨hdigits, Option.some.inj ((hvalue hdigits).symm.trans h)⟩
  · rintro ⟨hdigits, rfl⟩
    exact hvalue hdigits

end ExprLang.Number
