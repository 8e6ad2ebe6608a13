import ExprLang.Parsed
import ExprLang.Token.Lexer
import ExprLang.Proofs.Quoting
import Mathlib.Data.List.TakeWhile
import Mathlib.Tactic.IntervalCases

/-!
# Cutting texts into tokens

`Token.Cuts` says how the front of a text is cut into tokens, with all that follows it in view,
since a token takes as many characters as it can. What is shown of a piece of text is therefore what
it is cut into before some rest (`Token.CutsTo`), and pieces are put together from the last one on.
-/

namespace ExprLang.Token

/-- The characters from a place on are cut into tokens, up to another place and what is left
    there. -/
inductive Cuts : Position → List Char → List Token → Position → List Char → Prop
  | done {pos : Position} {cs : List Char} : Cuts pos cs [] pos cs
  | gap {pos pos' : Position} {c : Char} {cs rest : List Char} {extra : Nat} {ts : List Token}
    (h : munch c cs = .ok (none, extra))
    (hrest : Cuts (pos.after (c :: cs.take extra)) (cs.drop extra) ts pos' rest) :
    Cuts pos (c :: cs) ts pos' rest
  | token {pos pos' : Position} {c : Char} {cs rest : List Char} {kind : Kind} {extra : Nat}
    {ts : List Token} (h : munch c cs = .ok (some kind, extra))
    (hrest : Cuts (pos.after (c :: cs.take extra)) (cs.drop extra) ts pos' rest) :
    Cuts pos (c :: cs) (⟨kind, String.ofList (c :: cs.take extra), pos⟩ :: ts) pos' rest

theorem Cuts.append {pos pos' pos'' : Position} {cs mid rest : List Char} {ts us : List Token}
    (h : Cuts pos cs ts pos' mid) (h' : Cuts pos' mid us pos'' rest) :
    Cuts pos cs (ts ++ us) pos'' rest := by
  induction h with
  | done => exact h'
  | gap h _ ih => exact .gap h (ih h')
  | token h _ ih => exact .token h (ih h')

/-- Tokens are cut off the front, and the place moves on with them. -/
theorem Cuts.after {pos pos' : Position} {cs rest : List Char} {ts : List Token}
    (h : Cuts pos cs ts pos' rest) : ∃ taken, cs = taken ++ rest ∧ pos' = pos.after taken := by
  induction h with
  | done => exact ⟨[], rfl, rfl⟩
  | @gap pos pos' c cs rest extra ts _ _ ih =>
    obtain ⟨taken, hcs, hpos⟩ := ih
    refine ⟨c :: cs.take extra ++ taken, ?_, ?_⟩
    · rw [List.append_assoc, ← hcs, List.cons_append, List.take_append_drop]
    · rw [Position.after_append, hpos]
  | @token pos pos' c cs rest kind extra ts _ _ ih =>
    obtain ⟨taken, hcs, hpos⟩ := ih
    refine ⟨c :: cs.take extra ++ taken, ?_, ?_⟩
    · rw [List.append_assoc, ← hcs, List.cons_append, List.take_append_drop]
    · rw [Position.after_append, hpos]

/-- Scanning goes on after the characters that are cut. -/
theorem Cuts.scan_map {pos pos' : Position} {cs rest : List Char} {ts : List Token}
    (h : Cuts pos cs ts pos' rest) : scan pos cs = (scan pos' rest).map (ts ++ ·) := by
  induction h with
  | @done pos cs => cases scan pos cs <;> rfl
  | @gap pos pos' c cs rest extra ts h _ ih =>
    rw [scan, h]
    simp only [ih]
    cases scan pos' rest <;> rfl
  | @token pos pos' c cs rest kind extra ts h _ ih =>
    rw [scan, h]
    simp only [ih]
    cases scan pos' rest <;> rfl

/-- Characters that are cut up to the end are scanned. -/
theorem Cuts.scan_eq {pos pos' : Position} {cs rest : List Char} {ts : List Token}
    (h : Cuts pos cs ts pos' rest) (hrest : rest = []) : scan pos cs = .ok ts := by
  rw [h.scan_map, hrest, scan]
  exact congrArg Except.ok (List.append_nil ts)

/-- Where no further token can be read, scanning fails. -/
theorem Cuts.scan_eq_error {pos pos' : Position} {c : Char} {cs rest : List Char} {ts : List Token}
    {e : LexicalError} (h : Cuts pos cs ts pos' (c :: rest)) (he : munch c rest = .error e) :
    scan pos cs = .error (e, pos') := by
  rw [h.scan_map, scan, he]
  rfl

/-- Every text is cut into tokens up to its end, or up to characters that cannot be read. -/
theorem exists_cuts (pos : Position) (cs : List Char) :
    ∃ ts pos' rest, Cuts pos cs ts pos' rest ∧
      (rest = [] ∨ ∃ c tail e, rest = c :: tail ∧ munch c tail = .error e) := by
  induction hlength : cs.length using Nat.strong_induction_on generalizing pos cs with
  | _ length ih =>
    subst hlength
    cases cs with
    | nil => exact ⟨[], pos, [], .done, .inl rfl⟩
    | cons c cs =>
      cases hmunch : munch c cs with
      | error e => exact ⟨[], pos, c :: cs, .done, .inr ⟨c, cs, e, rfl, hmunch⟩⟩
      | ok found =>
        obtain ⟨kind?, extra⟩ := found
        obtain ⟨ts, pos', rest, hcuts, hrest⟩ :=
          ih _ (length_drop_lt c cs extra) (pos.after (c :: cs.take extra)) _ rfl
        cases kind? with
        | none => exact ⟨ts, pos', rest, .gap hmunch hcuts, hrest⟩
        | some kind => exact ⟨_, pos', rest, .token hmunch hcuts, hrest⟩

theorem scan_eq_ok_iff {pos : Position} {cs : List Char} {ts : List Token} :
    scan pos cs = .ok ts ↔ ∃ pos', Cuts pos cs ts pos' [] := by
  constructor
  · intro h
    obtain ⟨us, pos', rest, hcuts, rfl | ⟨c, tail, e, rfl, he⟩⟩ := exists_cuts pos cs
    · rw [hcuts.scan_eq rfl] at h
      cases h
      exact ⟨pos', hcuts⟩
    · rw [hcuts.scan_eq_error he] at h
      cases h
  · intro h
    obtain ⟨pos', hcuts⟩ := h
    exact hcuts.scan_eq rfl

theorem scan_eq_error_iff {pos pos' : Position} {cs : List Char} {e : LexicalError} :
    scan pos cs = .error (e, pos') ↔
      ∃ ts c rest, Cuts pos cs ts pos' (c :: rest) ∧ munch c rest = .error e := by
  constructor
  · intro h
    obtain ⟨us, pos'', rest, hcuts, rfl | ⟨c, tail, e', rfl, he⟩⟩ := exists_cuts pos cs
    · rw [hcuts.scan_eq rfl] at h
      cases h
    · rw [hcuts.scan_eq_error he] at h
      cases h
      exact ⟨us, c, tail, hcuts, he⟩
  · intro h
    obtain ⟨ts, c, rest, hcuts, he⟩ := h
    exact hcuts.scan_eq_error he

/-- Wherever they stand, some characters before a rest are cut into tokens of a kind. -/
def CutsTo (good : List Token → Prop) (cs rest : List Char) : Prop :=
  ∀ pos, ∃ ts pos', good ts ∧ Cuts pos (cs ++ rest) ts pos' rest

/-- A single token, up to its place. -/
def Is (kind : Kind) (lexeme : String) (ts : List Token) : Prop :=
  ∃ t, ts = [t] ∧ t.kind = kind ∧ t.lexeme = lexeme

namespace CutsTo

variable {good good' : List Token → Prop} {cs cs' rest : List Char}

theorem imp (h : CutsTo good cs rest) (himp : ∀ ts, good ts → good' ts) : CutsTo good' cs rest := by
  intro pos
  obtain ⟨ts, pos', hts, hcuts⟩ := h pos
  exact ⟨ts, pos', himp ts hts, hcuts⟩

theorem append (h : CutsTo good cs (cs' ++ rest)) (h' : CutsTo good' cs' rest) :
    CutsTo (fun ts => ∃ us vs, ts = us ++ vs ∧ good us ∧ good' vs) (cs ++ cs') rest := by
  intro pos
  obtain ⟨us, mid, hus, hcuts⟩ := h pos
  obtain ⟨vs, pos', hvs, hcuts'⟩ := h' mid
  rw [List.append_assoc]
  exact ⟨us ++ vs, pos', ⟨us, vs, rfl, hus, hvs⟩, hcuts.append hcuts'⟩

/-- Characters that are cut into nothing before others. -/
theorem skip (h : CutsTo (· = []) cs (cs' ++ rest)) (h' : CutsTo good cs' rest) :
    CutsTo good (cs ++ cs') rest := by
  refine (h.append h').imp ?_
  rintro _ ⟨us, vs, rfl, rfl, hvs⟩
  exact hvs

/-- One token, if that is what its characters are munched as. -/
theorem token {c : Char} {kind : Kind}
    (h : munch c (cs ++ rest) = .ok (some kind, cs.length)) :
    CutsTo (Is kind (String.ofList (c :: cs))) (c :: cs) rest := by
  intro pos
  have htake : (cs ++ rest).take cs.length = cs := List.take_left
  have hdrop : (cs ++ rest).drop cs.length = rest := List.drop_left
  have hcuts : Cuts pos (c :: (cs ++ rest)) _ _ _ := .token h .done
  rw [htake, hdrop] at hcuts
  exact ⟨_, _, ⟨_, rfl, rfl, rfl⟩, hcuts⟩

theorem blank {c : Char} (hc : isBlank c = true) : CutsTo (· = []) [c] rest := by
  intro pos
  have hmunch : munch c rest = .ok (none, 0) := by rw [munch, if_pos hc]
  exact ⟨[], _, rfl, .gap hmunch .done⟩

theorem blanks (hcs : ∀ c ∈ cs, isBlank c = true) : CutsTo (· = []) cs rest := by
  induction cs with
  | nil => exact fun pos => ⟨[], pos, rfl, .done⟩
  | cons c cs ih =>
    obtain ⟨hc, hrest⟩ := List.forall_mem_cons.mp hcs
    exact skip (blank hc) (ih hrest)

end CutsTo

/-- Whole texts. -/
theorem tokenize_of_cutsTo {good : List Token → Prop} {source : String}
    (h : CutsTo good source.toList []) : ∃ ts, good ts ∧ tokenize source = .ok ts := by
  obtain ⟨ts, pos', hts, hcuts⟩ := h Position.start
  rw [List.append_nil] at hcuts
  exact ⟨ts, hts, hcuts.scan_eq rfl⟩

/-! ## Marks -/

/-- Brackets, braces, commas and colons: no longer spelling begins with one of them. -/
def Kind.isMark : Kind → Bool
  | .leftBracket | .rightBracket | .leftBrace | .rightBrace | .comma | .colon => true
  | _ => false

theorem cutsTo_mark (kind : Kind) (h : kind.isMark = true) (rest : List Char) :
    CutsTo (Is kind kind.spelling) kind.spelling.toList rest := by
  cases kind with
  | leftBracket | rightBracket | leftBrace | rightBrace | comma | colon => exact .token rfl
  | _ => cases h

theorem mem_digits_of_isDigit {c : Char} (hc : c.isDigit = true) :
    c ∈ ['0', '1', '2', '3', '4', '5', '6', '7', '8', '9'] := by
  obtain ⟨hlo, hhi⟩ : 48 ≤ c.toNat ∧ c.toNat ≤ 57 := by
    simpa [Char.isDigit, UInt32.le_iff_toNat_le] using hc
  have hofNat : c = Char.ofNat c.toNat := (Char.ofNat_toNat c).symm
  interval_cases hn : c.toNat <;> simp [hofNat]

/-- A minus before a digit is no part of a longer spelling. -/
theorem munch_minus {c : Char} (hc : c.isDigit = true) (rest : List Char) :
    munch '-' (c :: rest) = .ok (some (.binary (.arith .sub)), 0) := by
  have hmem := mem_digits_of_isDigit hc
  simp only [List.mem_cons, List.not_mem_nil, or_false] at hmem
  rcases hmem with rfl | rfl | rfl | rfl | rfl | rfl | rfl | rfl | rfl | rfl <;> rfl

/-! ## Numbers and names -/

/-- Nothing follows, or a character that continues neither a number nor a name. -/
def Clear (rest : List Char) : Prop :=
  ∀ c ∈ rest.head?, c = ' ' ∨ c = '\n' ∨ c = ','

theorem Clear.nil : Clear [] := by
  intro c hc
  cases hc

theorem Clear.of_cons {c : Char} (rest : List Char) (hc : c = ' ' ∨ c = '\n' ∨ c = ',') :
    Clear (c :: rest) := by
  intro d hd
  obtain rfl := Option.some.inj hd
  exact hc

/-- What holds of the characters that may follow holds of the one that does. -/
theorem Clear.head {p : Char → Prop} {rest : List Char} (h : Clear rest) (hspace : p ' ')
    (hline : p '\n') (hcomma : p ',') : ∀ c ∈ rest.head?, p c := by
  intro c hc
  rcases h c hc with rfl | rfl | rfl
  · exact hspace
  · exact hline
  · exact hcomma

theorem runLength_append {p : Char → Bool} {cs rest : List Char} (hcs : ∀ c ∈ cs, p c = true)
    (hrest : ∀ c ∈ rest.head?, p c = false) : runLength p (cs ++ rest) = cs.length := by
  have hnone : rest.takeWhile p = [] := by
    cases rest with
    | nil => rfl
    | cons c rest => exact List.takeWhile_cons_of_neg (by simp [hrest c rfl])
  rw [runLength, List.takeWhile_append_of_pos hcs, hnone, List.append_nil]

theorem take_runLength (p : Char → Bool) (cs : List Char) :
    cs.take (runLength p cs) = cs.takeWhile p :=
  (List.prefix_iff_eq_take.mp (List.takeWhile_prefix p)).symm

theorem hexLength_eq_zero {c : Char} {cs : List Char} (h : ∀ x ∈ cs.head?, x ≠ 'x' ∧ x ≠ 'X') :
    hexLength (c :: cs) = 0 := by
  unfold hexLength
  split
  · next x cs' heq =>
    obtain ⟨rfl, rfl⟩ := List.cons.inj heq
    obtain ⟨hlower, hupper⟩ := h x rfl
    simp [hlower, hupper]
  · rfl

theorem fractionLength_eq_zero {cs : List Char} (h : ∀ c ∈ cs.head?, c ≠ '.') :
    fractionLength cs = 0 := by
  unfold fractionLength
  split
  · exact absurd rfl (h '.' rfl)
  · rfl

theorem exponentLength_eq_zero {cs : List Char} (h : ∀ c ∈ cs.head?, c ≠ 'e' ∧ c ≠ 'E') :
    exponentLength cs = 0 := by
  cases cs with
  | nil => rfl
  | cons c cs =>
    obtain ⟨hlower, hupper⟩ := h c rfl
    simp [exponentLength, hlower, hupper]

/-- A run of digits is a whole number. -/
theorem number_digits {c : Char} {cs rest : List Char} (hdigits : ∀ d ∈ c :: cs, d.isDigit = true)
    (hrest : Clear rest) : number (c :: (cs ++ rest)) = (.int, cs.length + 1) := by
  have hhex : hexLength (c :: (cs ++ rest)) = 0 := by
    apply hexLength_eq_zero
    cases cs with
    | nil => exact hrest.head (by decide) (by decide) (by decide)
    | cons d cs =>
      intro x hx
      obtain rfl := Option.some.inj hx
      have hx : d.isDigit = true := hdigits d (by simp)
      constructor
      · rintro rfl
        cases hx
      · rintro rfl
        cases hx
  have hwhole : runLength Char.isDigit (c :: cs ++ rest) = cs.length + 1 :=
    runLength_append hdigits (hrest.head rfl rfl rfl)
  have hfraction : fractionLength rest = 0 :=
    fractionLength_eq_zero (hrest.head (by decide) (by decide) (by decide))
  have hexponent : exponentLength rest = 0 :=
    exponentLength_eq_zero (hrest.head (by decide) (by decide) (by decide))
  rw [List.cons_append] at hwhole
  simp [number, hhex, hwhole, hfraction, hexponent]

/-- A class of characters that no blank is in. -/
theorem isBlank_eq_false {p : Char → Bool} {c : Char} (hc : p c = true)
    (hp : [' ', '\t', '\r', '\n', '\x0c', '\x0b'].any p = false) : isBlank c = false := by
  rw [Bool.eq_false_iff]
  intro hblank
  have hmem : c ∈ [' ', '\t', '\r', '\n', '\x0c', '\x0b'] := by
    simpa [isBlank, or_assoc] using hblank
  exact List.any_eq_false.mp hp c hmem hc

theorem cutsTo_digits {cs rest : List Char} (hne : cs ≠ []) (hcs : ∀ c ∈ cs, c.isDigit = true)
    (hrest : Clear rest) : CutsTo (Is (.literal .int) (String.ofList cs)) cs rest := by
  obtain ⟨c, cs, rfl⟩ := List.exists_cons_of_ne_nil hne
  have hc : c.isDigit = true := hcs c List.mem_cons_self
  have hblank : isBlank c = false := isBlank_eq_false hc rfl
  have hslash : c ≠ '/' := by
    rintro rfl
    cases hc
  apply CutsTo.token
  simp [munch, hblank, hslash, startsNumber, hc, number_digits hcs hrest]

theorem isDigit_of_startsName {c : Char} (hc : startsName c = true) : c.isDigit = false := by
  rw [Bool.eq_false_iff]
  intro hdigit
  have hmem := mem_digits_of_isDigit hdigit
  have hnone : ['0', '1', '2', '3', '4', '5', '6', '7', '8', '9'].any startsName = false := rfl
  exact List.any_eq_false.mp hnone c hmem hc

theorem cutsTo_name {c : Char} {cs rest : List Char} (hc : startsName c = true)
    (hcs : ∀ d ∈ cs, continuesName d = true) (hrest : Clear rest) :
    CutsTo (Is .identifier (String.ofList (c :: cs))) (c :: cs) rest := by
  have hblank : isBlank c = false := isBlank_eq_false hc rfl
  have hslash : c ≠ '/' := by
    rintro rfl
    cases hc
  have hdot : c ≠ '.' := by
    rintro rfl
    cases hc
  have hlength := runLength_append hcs (hrest.head (p := (continuesName · = false)) rfl rfl rfl)
  apply CutsTo.token
  simp [munch, hblank, hslash, startsNumber, isDigit_of_startsName hc, hdot, hc, hlength]

/-! ## Texts -/

theorem textLength?_cons {c : Char} (hbackslash : c ≠ '\\') (hquote : c ≠ '"') (cs : List Char) :
    textLength? (c :: cs) = (textLength? cs).map (· + 1) := by
  rw [textLength?]
  · exact hquote
  · exact fun _ _ heq _ => hbackslash heq

/-- What is written for a character does not close the text. -/
theorem textLength?_quoteChar (c : Char) (cs : List Char) :
    textLength? (Text.quoteChar c ++ cs) =
      (textLength? cs).map (· + (Text.quoteChar c).length) := by
  unfold Text.quoteChar
  split
  · rfl
  split
  · rfl
  split
  · rfl
  split
  · rfl
  split
  · rfl
  · next hbackslash hquote _ _ _ => exact textLength?_cons hbackslash hquote cs

theorem textLength?_quoted (cs rest : List Char) :
    textLength? (cs.flatMap Text.quoteChar ++ '"' :: rest) =
      some ((cs.flatMap Text.quoteChar).length + 1) := by
  induction cs with
  | nil => rfl
  | cons c cs ih =>
    rw [List.flatMap_cons, List.append_assoc, textLength?_quoteChar, ih]
    simp only [Option.map_some, List.length_append]
    exact congrArg some (by omega)

theorem munch_quote (cs rest : List Char) :
    munch '"' (cs.flatMap Text.quoteChar ++ ['"'] ++ rest) =
      .ok (some (.literal .text), (cs.flatMap Text.quoteChar ++ ['"']).length) := by
  have hnumber (cs : List Char) : startsNumber '"' cs = false := rfl
  have hname : startsName '"' = false := rfl
  have hblank : isBlank '"' = false := rfl
  rw [List.append_assoc, List.singleton_append]
  simp [munch, hblank, hnumber, hname, textLength?_quoted]

theorem cutsTo_quote (s : String) (rest : List Char) :
    CutsTo (Is (.literal .text) (Text.quote s)) (Text.quote s).toList rest := by
  have hcuts := CutsTo.token (munch_quote s.toList rest)
  rw [← List.cons_append, ← Text.toList_quote, String.ofList_toList] at hcuts
  exact hcuts

/-! ## What is munched -/

/-- What is read at the front of `c :: cs`: a gap or a token of a kind, and the number of characters
    that it takes after the first. -/
inductive Munches : Char → List Char → Option Kind → Nat → Prop
  | blank {c : Char} {cs : List Char} (hc : isBlank c = true) : Munches c cs none 0
  | lineComment {cs : List Char} : Munches '/' ('/' :: cs) none (runLength (· ≠ '\n') ('/' :: cs))
  | blockComment {cs : List Char} {n : Nat} (h : commentLength? cs = some n) :
    Munches '/' ('*' :: cs) none (n + 1)
  | number {c : Char} {cs : List Char} (h : startsNumber c cs = true) :
    Munches c cs (some (.literal (Token.number (c :: cs)).1)) ((Token.number (c :: cs)).2 - 1)
  | name {c : Char} {cs : List Char} (h : startsName c = true) :
    Munches c cs (some .identifier) (runLength continuesName cs)
  | text {cs : List Char} {n : Nat} (h : textLength? cs = some n) :
    Munches '"' cs (some (.literal .text)) n
  | fixed {c : Char} {cs : List Char} {kind : Kind} {n : Nat} (hblank : isBlank c = false)
    (hcomment : c = '/' → cs.head? ≠ some '/' ∧ cs.head? ≠ some '*')
    (hnumber : startsNumber c cs = false) (hname : startsName c = false) (hquote : c ≠ '"')
    (h : fixedKind? (c :: cs) = some (kind, n)) : Munches c cs (some kind) (n - 1)

theorem munches_of_munch {c : Char} {cs : List Char} {kind? : Option Kind} {n : Nat}
    (h : munch c cs = .ok (kind?, n)) : Munches c cs kind? n := by
  unfold munch at h
  split at h
  · next hblank =>
    cases h
    exact .blank hblank
  next hblank =>
  split at h
  · next hline =>
    simp only [Bool.and_eq_true, decide_eq_true_eq] at hline
    obtain ⟨rfl, hslash⟩ := hline
    obtain ⟨cs, rfl⟩ := List.head?_eq_some_iff.mp hslash
    cases h
    exact .lineComment
  next hline =>
  split at h
  · next hblock =>
    simp only [Bool.and_eq_true, decide_eq_true_eq] at hblock
    obtain ⟨rfl, hstar⟩ := hblock
    obtain ⟨cs, rfl⟩ := List.head?_eq_some_iff.mp hstar
    split at h
    · next k hlength =>
      cases h
      exact .blockComment hlength
    · cases h
  next hblock =>
  split at h
  · next hnumber =>
    cases h
    exact .number hnumber
  next hnumber =>
  split at h
  · next hname =>
    cases h
    exact .name hname
  next hname =>
  split at h
  · next hquote =>
    subst hquote
    split at h
    · next k hlength =>
      cases h
      exact .text hlength
    · cases h
  · next hquote =>
    split at h
    · next kind k hfixed =>
      cases h
      simp only [Bool.and_eq_true, decide_eq_true_eq, not_and] at hline hblock
      exact .fixed (eq_false_of_ne_true hblank) (fun hc => ⟨hline hc, hblock hc⟩)
        (eq_false_of_ne_true hnumber) (eq_false_of_ne_true hname) hquote hfixed
    · cases h

/-- Every token is munched somewhere in the text. -/
theorem Cuts.munches {pos pos' : Position} {cs rest : List Char} {ts : List Token}
    (h : Cuts pos cs ts pos' rest) : ∀ t ∈ ts, ∃ c tail extra,
      Munches c tail (some t.kind) extra ∧ t.lexeme = String.ofList (c :: tail.take extra) := by
  induction h with
  | done => exact List.forall_mem_nil _
  | gap _ _ ih => exact ih
  | @token pos pos' c cs rest kind extra ts hmunch _ ih =>
    exact List.forall_mem_cons.mpr ⟨⟨c, cs, extra, munches_of_munch hmunch, rfl⟩, ih⟩

/-- A class of characters none of which begins a gap. -/
theorem notGap_of_class {p : Char → Bool} {c : Char} (hc : p c = true)
    (hp : [' ', '\t', '\r', '\n', '\x0c', '\x0b'].any p = false) (hslash : p '/' = false) :
    isBlank c = false ∧ c ≠ '/' := by
  refine ⟨isBlank_eq_false hc hp, ?_⟩
  intro heq
  rw [heq, hslash] at hc
  cases hc

theorem Munches.munch_eq {c : Char} {cs : List Char} {kind? : Option Kind} {n : Nat}
    (h : Munches c cs kind? n) : munch c cs = .ok (kind?, n) := by
  cases h with
  | blank hc => simp [munch, hc]
  | lineComment =>
    have hblank : isBlank '/' = false := rfl
    simp [munch, hblank]
  | blockComment h =>
    have hblank : isBlank '/' = false := rfl
    simp [munch, hblank, h]
  | number h =>
    have hclass : (c.isDigit || decide (c = '.')) = true := by
      rw [startsNumber, Bool.or_eq_true, Bool.and_eq_true] at h
      rw [Bool.or_eq_true]
      exact h.imp_right And.left
    obtain ⟨hblank, hslash⟩ := notGap_of_class (p := fun c => c.isDigit || c = '.') hclass rfl rfl
    simp [munch, hblank, hslash, h]
  | name h =>
    obtain ⟨hblank, hslash⟩ := notGap_of_class h rfl rfl
    have hdot : c ≠ '.' := by
      intro heq
      rw [heq] at h
      cases h
    simp [munch, hblank, hslash, startsNumber, isDigit_of_startsName h, hdot, h]
  | text h =>
    have hblank : isBlank '"' = false := rfl
    have hnumber : startsNumber '"' cs = false := rfl
    have hname : startsName '"' = false := rfl
    simp [munch, hblank, hnumber, hname, h]
  | fixed hblank hcomment hnumber hname hquote h =>
    by_cases hslash : c = '/'
    · obtain ⟨hline, hblock⟩ := hcomment hslash
      simp [munch, hblank, hline, hblock, hnumber, hname, hquote, h]
    · simp [munch, hblank, hslash, hnumber, hname, hquote, h]

end ExprLang.Token
