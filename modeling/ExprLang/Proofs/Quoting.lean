import ExprLang.Text.Escape

/-!
# Quoted texts

What is written for a text between quotes stands for that text (`Text.decode_quote`).
-/

namespace ExprLang.Text

/-- What is written for a character stands for that character, whatever follows. -/
theorem decodeBody_quoteChar (c : Char) {cs meant : List Char}
    (h : ∀ offset, decodeBody offset cs = .ok meant) (offset : Nat) :
    decodeBody offset (quoteChar c ++ cs) = .ok (c :: meant) := by
  have escaped (e : Char) (he : escape? (e :: cs) = some ([c], 1)) :
      decodeBody offset ('\\' :: e :: cs) = .ok (c :: meant) := by
    rw [decodeBody, if_pos rfl, he]
    simp only [List.drop_succ_cons, List.drop_zero, h, List.singleton_append]
  unfold quoteChar
  split
  · next hc => exact escaped '\\' (by rw [hc]; rfl)
  split
  · next hc => exact escaped '"' (by rw [hc]; rfl)
  split
  · next hc => exact escaped 'r' (by rw [hc]; rfl)
  split
  · next hc => exact escaped 'n' (by rw [hc]; rfl)
  split
  · next hc => exact escaped 't' (by rw [hc]; rfl)
  · next hbackslash _ _ _ _ =>
    rw [List.singleton_append, decodeBody, if_neg hbackslash, h]

theorem decodeBody_flatMap_quoteChar (cs : List Char) (offset : Nat) :
    decodeBody offset (cs.flatMap quoteChar) = .ok cs := by
  induction cs generalizing offset with
  | nil => rw [List.flatMap_nil, decodeBody]
  | cons c cs ih => exact decodeBody_quoteChar c ih offset

theorem unquote_quoted (body : List Char) : unquote ('"' :: body ++ ['"']) = body := by
  rw [List.cons_append, unquote, if_pos List.getLast?_concat, List.dropLast_concat]

theorem toList_quote (s : String) :
    (quote s).toList = '"' :: s.toList.flatMap quoteChar ++ ['"'] :=
  String.toList_ofList

/-- A text is what its literal stands for. -/
theorem decode_quote (s : String) : decode (quote s) = .ok s := by
  rw [decode, toList_quote, unquote_quoted, decodeBody_flatMap_quoteChar]
  simp only [String.ofList_toList]

theorem line_notMem_quoteChar (c : Char) : '\n' ∉ quoteChar c := by
  unfold quoteChar
  split
  · decide
  split
  · decide
  split
  · decide
  split
  · decide
  split
  · decide
  · next hline _ => simpa using Ne.symm hline

/-- A quoted text stands on one line. -/
theorem line_notMem_quote (s : String) : '\n' ∉ (quote s).toList := by
  rw [toList_quote]
  simp [line_notMem_quoteChar]

end ExprLang.Text
