import ExprLang.Proofs.LineBreaks

/-!
# Tokens written out with spaces between them

What a token is gets decided with all that follows it in view: `1` is a number of its own in `1e`,
and a point is one before a name but not before a digit. No token needs what follows it, though. Its
lexeme alone is read as the same token (`Munches.alone`), and before a blank it is read as it is
alone, so that tokens are read back from their lexemes with spaces between them
(`tokenize_spaced`).
-/

namespace ExprLang.Token

/-! ## Lengths in the front of a text -/

theorem runLength_take (p : Char → Bool) (cs : List Char) (m : Nat) :
    runLength p (cs.take m) = min m (runLength p cs) := by
  simp [runLength, ← List.take_takeWhile]

theorem fractionLength_take {cs : List Char} {m : Nat} (h : fractionLength cs ≤ m) :
    fractionLength (cs.take m) = fractionLength cs := by
  cases m with
  | zero =>
    rw [Nat.le_zero.mp h]
    rfl
  | succ m =>
    cases cs with
    | nil => rfl
    | cons c cs =>
      by_cases hc : c = '.'
      · subst hc
        simp only [fractionLength] at h
        simp only [List.take_succ_cons, fractionLength, runLength_take]
        grind
      · simp [fractionLength, hc]

/-- A sign that stands in the front that is taken, or is the first character after it. -/
theorem signLength_take (cs : List Char) (m : Nat) :
    signLength (cs.take m) = min m (signLength cs) := by
  cases m with
  | zero => simp [signLength]
  | succ m =>
    cases cs with
    | nil => simp [signLength]
    | cons c cs =>
      rw [List.take_succ_cons]
      unfold signLength
      split <;> simp_all

theorem exponentLength_take {cs : List Char} {m : Nat} (h : exponentLength cs ≤ m) :
    exponentLength (cs.take m) = exponentLength cs := by
  cases m with
  | zero =>
    rw [Nat.le_zero.mp h]
    rfl
  | succ m =>
    cases cs with
    | nil => rfl
    | cons c cs =>
      by_cases hc : (c = 'e' || c = 'E') = true
      · simp only [exponentLength, if_pos hc] at h
        simp only [List.take_succ_cons, exponentLength, if_pos hc, signLength_take, List.drop_take,
          runLength_take]
        by_cases hsign : signLength cs ≤ m
        · rw [Nat.min_eq_right hsign]
          grind
        · have hzero : m - min m (signLength cs) = 0 := by omega
          grind
      · simp only [List.take_succ_cons, exponentLength, if_neg hc]

theorem hexLength_cons_cons (c x : Char) (cs : List Char) :
    hexLength (c :: x :: cs) =
      if c = '0' ∧ (x = 'x' ∨ x = 'X') ∧ runLength isHexDigit cs ≠ 0 then
        2 + runLength isHexDigit cs
      else 0 := by
  by_cases hc : c = '0'
  · simp only [hc, hexLength, Bool.or_eq_true, decide_eq_true_eq]
    grind
  · simp [hexLength, hc]

theorem hexLength_take {cs : List Char} {m : Nat} (h : hexLength cs ≤ m) :
    hexLength (cs.take m) = hexLength cs := by
  cases m with
  | zero =>
    rw [Nat.le_zero.mp h]
    rfl
  | succ m =>
    cases cs with
    | nil => rfl
    | cons c cs =>
      cases cs with
      | nil => simp
      | cons x cs =>
        rw [hexLength_cons_cons] at h ⊢
        cases m with
        | zero =>
          -- with digits it would take more than one character
          rw [List.take_succ_cons, List.take_zero, hexLength_eq_zero (by simp)]
          grind
        | succ m =>
          rw [List.take_succ_cons, List.take_succ_cons, hexLength_cons_cons, runLength_take]
          grind

theorem number_of_hex {cs : List Char} (h : hexLength cs ≠ 0) :
    number cs = (.hex, hexLength cs) := by
  simp only [number, if_pos h]

/-- A number without a hexadecimal mark: digits, a fraction and an exponent. -/
theorem number_of_decimal {cs : List Char} (h : hexLength cs = 0) {whole fraction exponent : Nat}
    (hwhole : runLength Char.isDigit cs = whole)
    (hfraction : fractionLength (cs.drop whole) = fraction)
    (hexponent : exponentLength (cs.drop (whole + fraction)) = exponent) :
    number cs =
      (if fraction + exponent = 0 then .int else .double, whole + fraction + exponent) := by
  subst hwhole hfraction hexponent
  simp [number, h]

/-- A number is read from its own characters as it is read before others. -/
theorem number_take (cs : List Char) : number (cs.take (number cs).2) = number cs := by
  by_cases hhex : hexLength cs = 0
  · generalize hwhole : runLength Char.isDigit cs = whole
    generalize hfraction : fractionLength (cs.drop whole) = fraction
    generalize hexponent : exponentLength (cs.drop (whole + fraction)) = exponent
    have hnumber := number_of_decimal hhex hwhole hfraction hexponent
    rw [hnumber]
    apply number_of_decimal
    · rw [hexLength_take (by omega), hhex]
    · rw [runLength_take, hwhole]
      omega
    · rw [List.drop_take, fractionLength_take, hfraction]
      omega
    · rw [List.drop_take, exponentLength_take, hexponent]
      omega
  · have hnumber := number_of_hex hhex
    have htake : hexLength (cs.take (hexLength cs)) = hexLength cs := hexLength_take le_rfl
    have hsome : hexLength (cs.take (hexLength cs)) ≠ 0 := by rwa [htake]
    rw [hnumber, number_of_hex hsome, htake]

/-- A number has a character, and two if it begins with a point. -/
theorem number_pos {c : Char} {cs : List Char} (h : startsNumber c cs = true) :
    0 < (number (c :: cs)).2 ∧ (c.isDigit = false → 1 < (number (c :: cs)).2) := by
  by_cases hhex : hexLength (c :: cs) = 0
  · rw [number_of_decimal hhex rfl rfl rfl]
    by_cases hc : c.isDigit = true
    · have hwhole : 0 < runLength Char.isDigit (c :: cs) := by simp [runLength, hc]
      simp only [hc, Bool.true_eq_false, false_implies, and_true]
      omega
    · -- a point before a digit
      simp only [startsNumber, hc, Bool.false_or, Bool.and_eq_true, decide_eq_true_eq] at h
      obtain ⟨rfl, hdigit⟩ := h
      have hwhole : runLength Char.isDigit ('.' :: cs) = 0 := rfl
      have hrun : 0 < runLength Char.isDigit cs := by
        cases cs with
        | nil => simp at hdigit
        | cons d cs => simp_all [runLength]
      have hfraction : 1 < fractionLength ('.' :: cs) := by
        simp only [fractionLength]
        grind
      simp only [hwhole, List.drop_zero]
      omega
  · rw [number_of_hex hhex]
    have hdigit : c = '0' := by
      by_contra hc
      apply hhex
      cases cs with
      | nil => simp [hexLength]
      | cons x cs => simp [hexLength_cons_cons, hc]
    subst hdigit
    exact ⟨Nat.pos_of_ne_zero hhex, by simp [Char.isDigit]⟩

/-- The end of a closed text is found without what follows it. -/
theorem textLength?_take {cs : List Char} {n : Nat} (h : textLength? cs = some n) :
    textLength? (cs.take n) = some n := by
  fun_induction textLength? cs generalizing n with
  | case1 cs =>
    cases h
    rfl
  | case2 d cs ih =>
    obtain ⟨k, hk, rfl⟩ := Option.map_eq_some_iff.mp h
    rw [List.take_succ_cons, List.take_succ_cons, textLength?, ih hk]
    rfl
  | case3 c cs hquote hescape ih =>
    obtain ⟨k, hk, rfl⟩ := Option.map_eq_some_iff.mp h
    have hbackslash := ne_backslash_of_textLength? hk hescape
    rw [List.take_succ_cons, textLength?_cons hbackslash hquote, ih hk]
    rfl
  | case4 => cases h

/-! ## Tokens alone -/

theorem head?_of_head?_take {cs : List Char} {m : Nat} {c : Char}
    (h : (cs.take m).head? = some c) : cs.head? = some c := by
  rw [List.head?_take] at h
  split at h
  · cases h
  · exact h

theorem startsNumber_of_take {c : Char} {cs : List Char} {m : Nat}
    (h : startsNumber c (cs.take m) = true) : startsNumber c cs = true := by
  simp only [startsNumber, Bool.or_eq_true, Bool.and_eq_true, Option.any_eq_true] at h ⊢
  refine h.imp_right ?_
  rintro ⟨hc, d, hd, hdigit⟩
  exact ⟨hc, d, head?_of_head?_take hd, hdigit⟩

/-- Whatever is spelled alone is taken for what it is: no shorter spelling that it begins with comes
    first. -/
theorem fixedKind?_spelling {entry : Kind × List Char} (h : entry ∈ Kind.spelled) :
    fixedKind? entry.2 = some (entry.1, entry.2.length) := by
  have hall : Kind.spelled.all
      (fun entry => fixedKind? entry.2 = some (entry.1, entry.2.length)) = true := by
    decide +kernel
  simpa using List.all_eq_true.mp hall entry h

/-- The first spelling that a text begins with is found in that spelling alone. -/
theorem fixedKind?_take {cs : List Char} {kind : Kind} {n : Nat}
    (h : fixedKind? cs = some (kind, n)) : fixedKind? (cs.take n) = some (kind, n) := by
  obtain ⟨entry, hfind, heq⟩ := Option.map_eq_some_iff.mp h
  cases heq
  have hprefix := List.find?_some hfind
  rw [← List.prefix_iff_eq_take.mp (List.isPrefixOf_iff_prefix.mp hprefix)]
  exact fixedKind?_spelling (List.mem_of_find?_eq_some hfind)

theorem fixedKind?_pos {cs : List Char} {kind : Kind} {n : Nat}
    (h : fixedKind? cs = some (kind, n)) : 0 < n := by
  have hall : Kind.spelled.all (fun entry => 0 < entry.2.length) = true := by decide +kernel
  obtain ⟨entry, hfind, heq⟩ := Option.map_eq_some_iff.mp h
  cases heq
  simpa using List.all_eq_true.mp hall entry (List.mem_of_find?_eq_some hfind)

/-- A token is read from its own characters as it is read before others. -/
theorem Munches.alone {c : Char} {cs : List Char} {kind : Kind} {n : Nat}
    (h : Munches c cs (some kind) n) : Munches c (cs.take n) (some kind) n := by
  cases h with
  | number h =>
    obtain ⟨hpos, hpoint⟩ := number_pos h
    have htake := List.take_cons (a := c) (l := cs) hpos
    have hstarts : startsNumber c (cs.take ((Token.number (c :: cs)).2 - 1)) = true := by
      by_cases hc : c.isDigit = true
      · simp [startsNumber, hc]
      · have hlong := hpoint (by simpa using hc)
        have hhead : (cs.take ((Token.number (c :: cs)).2 - 1)).head? = cs.head? := by
          rw [List.head?_take, if_neg (by omega)]
        rw [startsNumber, hhead]
        exact h
    have hnumber := Munches.number hstarts
    rwa [← htake, number_take] at hnumber
  | name h =>
    have hname : Munches c (cs.take (runLength continuesName cs)) _ _ := .name h
    rwa [runLength_take, Nat.min_self] at hname
  | text h => exact .text (textLength?_take h)
  | fixed hblank hcomment hnumber hname hquote h =>
    refine .fixed hblank ?_ ?_ hname hquote ?_
    · intro hc
      obtain ⟨hline, hblock⟩ := hcomment hc
      exact ⟨mt head?_of_head?_take hline, mt head?_of_head?_take hblock⟩
    · rw [← Bool.not_eq_true] at hnumber ⊢
      exact mt startsNumber_of_take hnumber
    · rw [← List.take_cons (fixedKind?_pos h), fixedKind?_take h]

/-! ## Whole texts -/

/-- Tokens of the same kinds and lexemes, in the same order. -/
def SameTokens (ts us : List Token) : Prop :=
  us.map (fun t => (t.kind, t.lexeme)) = ts.map (fun t => (t.kind, t.lexeme))

/-- A token whose lexeme is read as that token before every blank and at the end of a text. -/
def Alone (t : Token) : Prop :=
  ∀ rest, (∀ c ∈ rest.head?, isBlank c = true) → CutsTo (Is t.kind t.lexeme) t.lexeme.toList rest

theorem Cuts.alone {pos pos' : Position} {cs rest : List Char} {ts : List Token}
    (h : Cuts pos cs ts pos' rest) : ∀ t ∈ ts, t.Alone := by
  intro t ht rest hrest
  obtain ⟨c, cs, extra, hread, hlexeme⟩ := h.munches t ht
  have halone := hread.alone
  have hlength : (cs.take extra).length = extra := List.length_take_of_le hread.le
  have hbefore : Munches c (cs.take extra ++ rest) (some t.kind) (cs.take extra).length := by
    rw [hlength]
    cases rest with
    | nil => rwa [List.append_nil]
    | cons b rest => exact halone.append_blank (hrest b rfl) rest
  rw [hlexeme, String.toList_ofList]
  exact .token hbefore.munch_eq

/-- Lexemes of tokens that are read alone, with spaces between them. -/
theorem cutsTo_spaced {ts : List Token} (h : ∀ t ∈ ts, t.Alone) :
    CutsTo (SameTokens ts) (" ".intercalate (ts.map Token.lexeme)).toList [] := by
  induction ts with
  | nil => exact fun pos => ⟨[], pos, rfl, .done⟩
  | cons t ts ih =>
    obtain ⟨ht, hts⟩ := List.forall_mem_cons.mp h
    have hrest := ih hts
    cases ts with
    | nil =>
      rw [List.map_singleton, String.intercalate_singleton]
      refine (ht [] (by simp)).imp ?_
      rintro _ ⟨u, rfl, hkind, hlexeme⟩
      simp [SameTokens, hkind, hlexeme]
    | cons t' ts =>
      rw [List.map_cons, List.map_cons, String.intercalate_cons_cons, ← List.map_cons,
        String.toList_append, String.toList_append, List.append_assoc]
      have hspace (cs : List Char) : CutsTo (· = []) [' '] cs := .blank rfl
      refine ((ht _ (by simp [isBlank])).append ((hspace _).skip hrest)).imp ?_
      rintro _ ⟨_, us, rfl, ⟨u, rfl, hkind, hlexeme⟩, hus⟩
      simp only [SameTokens] at hus
      simp [SameTokens, hkind, hlexeme, hus]

/-- The lexemes of a text's tokens, written out with a space between each two of them, are read as
    tokens of the same kinds and lexemes. -/
theorem tokenize_spaced {source : String} {ts : List Token} (h : tokenize source = .ok ts) :
    ∃ us, tokenize (" ".intercalate (ts.map Token.lexeme)) = .ok us ∧ SameTokens ts us := by
  obtain ⟨pos', hcuts⟩ := scan_eq_ok_iff.mp h
  obtain ⟨us, hsame, hus⟩ := tokenize_of_cutsTo (cutsTo_spaced hcuts.alone)
  exact ⟨us, hus, hsame⟩

/-- Numbers that end before a letter, a point before a digit and one before a name, and a text with
    a space and a quote in it. -/
def pointed : List Token :=
  [⟨.literal .int, "1", ⟨1, 1⟩⟩, ⟨.identifier, "e", ⟨1, 2⟩⟩, ⟨.literal .int, "0", ⟨1, 4⟩⟩,
   ⟨.identifier, "x", ⟨1, 5⟩⟩, ⟨.literal .double, ".5", ⟨1, 6⟩⟩, ⟨.dot, ".", ⟨1, 8⟩⟩,
   ⟨.identifier, "x", ⟨1, 9⟩⟩, ⟨.assign (.arith .shiftRightUnsigned), ">>>=", ⟨1, 14⟩⟩,
   ⟨.literal .text, "\"é \\\"\"", ⟨1, 18⟩⟩]

theorem tokenize_spaced_pointed :
    tokenize "1e 0x.5.x/**/>>>=\"é \\\"\"" = .ok pointed ∧
    ∃ us, tokenize "1 e 0 x .5 . x >>>= \"é \\\"\"" = .ok us ∧ SameTokens pointed us := by
  have htokens : tokenize "1e 0x.5.x/**/>>>=\"é \\\"\"" = .ok pointed := by decide +kernel
  exact ⟨htokens, tokenize_spaced htokens⟩

end ExprLang.Token
