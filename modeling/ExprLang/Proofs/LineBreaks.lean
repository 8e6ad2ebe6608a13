import ExprLang.Engine
import ExprLang.Proofs.Lossless
import Mathlib.Data.List.Find

/-!
# Texts that are put together at line breaks

No token goes on over a blank unless it encloses the blank, so a text that is cut into tokens up to
its end is cut into the same tokens before a line feed, and a comment that runs to the end of the
text then runs to the line feed. What follows the line feed is read as if it stood alone, only
further down (`Program.tokens_lineBreak`).
-/

namespace ExprLang

/-! ## Moving down -/

/-- The place that is so many lines further down. -/
def Position.down (k : Nat) (p : Position) : Position := ⟨p.line + k, p.col⟩

/-- The token moved down by so many lines. -/
def Token.down (k : Nat) (t : Token) : Token := { t with pos := t.pos.down k }

/-- The fault moved down by so many lines; what it tells is the same. -/
def Fault.down (k : Nat) (f : Fault) : Fault := { f with pos := f.pos.map (Position.down k) }

namespace Position

theorem next_down (k : Nat) (p : Position) (c : Char) : (p.down k).next c = (p.next c).down k := by
  by_cases hc : c = '\n'
  · simp [next, down, hc, Nat.add_right_comm]
  · simp [next, down, hc]

theorem after_down (k : Nat) (p : Position) (cs : List Char) :
    (p.down k).after cs = (p.after cs).down k := by
  induction cs generalizing p with
  | nil => rfl
  | cons c cs ih => rw [after_cons, next_down, ih, after_cons]

/-- The line after some text and a line feed. -/
theorem next_line_after (cs : List Char) :
    (start.after cs).next '\n' = start.down (1 + cs.count '\n') := by
  have hbehind : start.after cs = behind cs := after_behind [] cs
  rw [hbehind]
  simp [behind, next, down, start, Nat.add_comm]

end Position

namespace Token

theorem Cuts.down {pos pos' : Position} {cs rest : List Char} {ts : List Token} (k : Nat)
    (h : Cuts pos cs ts pos' rest) :
    Cuts (pos.down k) cs (ts.map (Token.down k)) (pos'.down k) rest := by
  induction h with
  | done => exact .done
  | gap hmunch _ ih =>
    rw [← Position.after_down] at ih
    exact .gap hmunch ih
  | token hmunch _ ih =>
    rw [← Position.after_down] at ih
    exact .token hmunch ih

/-! ## How far is looked ahead -/

theorem runLength_le (p : Char → Bool) (cs : List Char) : runLength p cs ≤ cs.length :=
  (List.takeWhile_prefix p).length_le

theorem fractionLength_le (cs : List Char) : fractionLength cs ≤ cs.length := by
  unfold fractionLength
  split
  · next cs =>
    have hrun := runLength_le Char.isDigit cs
    simp only [List.length_cons]
    split <;> omega
  · omega

theorem signLength_le (cs : List Char) : signLength cs ≤ cs.length := by
  unfold signLength
  split <;> simp

theorem exponentLength_le (cs : List Char) : exponentLength cs ≤ cs.length := by
  cases cs with
  | nil => simp [exponentLength]
  | cons c cs =>
    have hsign := signLength_le cs
    have hrun := runLength_le Char.isDigit (cs.drop (signLength cs))
    simp only [List.length_drop] at hrun
    simp only [exponentLength, List.length_cons]
    split
    · split <;> omega
    · omega

theorem hexLength_le (cs : List Char) : hexLength cs ≤ cs.length := by
  unfold hexLength
  split
  · next x cs =>
    have hrun := runLength_le isHexDigit cs
    simp only [List.length_cons]
    split
    · split <;> omega
    · omega
  · omega

theorem number_le (cs : List Char) : (number cs).2 ≤ cs.length := by
  have hhex := hexLength_le cs
  have hwhole := runLength_le Char.isDigit cs
  have hfraction := fractionLength_le (cs.drop (runLength Char.isDigit cs))
  have hexponent := exponentLength_le
    (cs.drop (runLength Char.isDigit cs + fractionLength (cs.drop (runLength Char.isDigit cs))))
  simp only [List.length_drop] at hfraction hexponent
  simp only [number]
  split
  · exact hhex
  · simp only
    omega

theorem fixedKind?_le {cs : List Char} {kind : Kind} {n : Nat}
    (h : fixedKind? cs = some (kind, n)) : n ≤ cs.length := by
  obtain ⟨entry, hfind, heq⟩ := Option.map_eq_some_iff.mp h
  cases heq
  have hprefix := List.find?_some hfind
  exact (List.isPrefixOf_iff_prefix.mp hprefix).length_le

/-- The end of a closed comment is found before anything that follows. -/
theorem commentLength?_append {cs : List Char} {n : Nat} (h : commentLength? cs = some n)
    (rest : List Char) : n ≤ cs.length ∧ commentLength? (cs ++ rest) = some n := by
  fun_induction commentLength? cs generalizing n with
  | case1 cs =>
    cases h
    simp [commentLength?]
  | case2 c cs hopen ih =>
    obtain ⟨k, hk, rfl⟩ := Option.map_eq_some_iff.mp h
    obtain ⟨hle, hrest⟩ := ih hk
    constructor
    · simp only [List.length_cons]
      omega
    · rw [List.cons_append, commentLength?, hrest]
      · rfl
      · -- a star that ends the text would leave the comment open
        intro tail hstar htail
        cases cs with
        | nil => cases hk
        | cons d cs =>
          obtain ⟨rfl, -⟩ := List.cons.inj htail
          exact hopen cs hstar rfl
  | case3 => cases h

/-- A backslash takes the next character with it, and in a closed text there is one. -/
theorem ne_backslash_of_textLength? {c : Char} {cs : List Char} {k : Nat}
    (hk : textLength? cs = some k) (hescape : ∀ d tail, c = '\\' → cs = d :: tail → False) :
    c ≠ '\\' := by
  intro hc
  cases cs with
  | nil => cases hk
  | cons d cs => exact hescape d cs hc rfl

/-- The end of a closed text is found before anything that follows. -/
theorem textLength?_append {cs : List Char} {n : Nat} (h : textLength? cs = some n)
    (rest : List Char) : n ≤ cs.length ∧ textLength? (cs ++ rest) = some n := by
  fun_induction textLength? cs generalizing n with
  | case1 cs =>
    cases h
    simp [textLength?]
  | case2 d cs ih =>
    obtain ⟨k, hk, rfl⟩ := Option.map_eq_some_iff.mp h
    obtain ⟨hle, hrest⟩ := ih hk
    constructor
    · simp only [List.length_cons]
      omega
    · rw [List.cons_append, List.cons_append, textLength?, hrest]
      rfl
  | case3 c cs hquote hescape ih =>
    obtain ⟨k, hk, rfl⟩ := Option.map_eq_some_iff.mp h
    obtain ⟨hle, hrest⟩ := ih hk
    have hbackslash := ne_backslash_of_textLength? hk hescape
    constructor
    · simp only [List.length_cons]
      omega
    · rw [List.cons_append, textLength?_cons hbackslash hquote, hrest]
      rfl
  | case4 => cases h

/-- No more characters are taken than there are. -/
theorem Munches.le {c : Char} {cs : List Char} {kind? : Option Kind} {n : Nat}
    (h : Munches c cs kind? n) : n ≤ cs.length := by
  cases h with
  | blank hc => exact Nat.zero_le _
  | lineComment => exact runLength_le _ _
  | blockComment hlength =>
    have hle := (commentLength?_append hlength []).1
    simp only [List.length_cons]
    omega
  | number h =>
    have hle := number_le (c :: cs)
    simp only [List.length_cons] at hle
    omega
  | name h => exact runLength_le _ _
  | text hlength => exact (textLength?_append hlength []).1
  | fixed _ _ _ _ _ hfixed =>
    have hle := fixedKind?_le hfixed
    simp only [List.length_cons] at hle
    omega

section Blank

variable {b : Char} (hb : isBlank b = true)
include hb

/-- A blank is in no class of characters that has none of the blanks. -/
theorem eq_false_of_isBlank {p : Char → Bool}
    (hp : [' ', '\t', '\r', '\n', '\x0c', '\x0b'].any p = false) : p b = false := by
  rw [Bool.eq_false_iff]
  intro htrue
  rw [isBlank_eq_false htrue hp] at hb
  cases hb

theorem ne_of_isBlank {c : Char} (hc : isBlank c = false) : b ≠ c := by
  intro heq
  rw [heq, hc] at hb
  cases hb

omit hb in
theorem runLength_append_cons {p : Char → Bool} (hp : p b = false) (cs rest : List Char) :
    runLength p (cs ++ b :: rest) = runLength p cs := by
  rw [runLength, runLength, List.takeWhile_append, List.takeWhile_cons_of_neg (by simp [hp])]
  split
  · next hall => rw [List.append_nil, hall]
  · rfl

theorem fractionLength_append (cs rest : List Char) :
    fractionLength (cs ++ b :: rest) = fractionLength cs := by
  have hrun := runLength_append_cons (eq_false_of_isBlank hb (p := Char.isDigit) rfl)
  cases cs with
  | nil =>
    apply fractionLength_eq_zero
    simpa using ne_of_isBlank hb rfl
  | cons c cs =>
    by_cases hc : c = '.'
    · simp [hc, fractionLength, hrun]
    · simp [hc, fractionLength]

theorem signLength_append (cs rest : List Char) :
    signLength (cs ++ b :: rest) = signLength cs := by
  cases cs with
  | nil =>
    have hplus : b ≠ '+' := ne_of_isBlank hb rfl
    have hminus : b ≠ '-' := ne_of_isBlank hb rfl
    simp [signLength, hplus, hminus]
  | cons c cs =>
    rw [List.cons_append]
    unfold signLength
    split <;> simp_all

theorem exponentLength_append (cs rest : List Char) :
    exponentLength (cs ++ b :: rest) = exponentLength cs := by
  have hrun := runLength_append_cons (eq_false_of_isBlank hb (p := Char.isDigit) rfl)
  cases cs with
  | nil =>
    have hlower : b ≠ 'e' := ne_of_isBlank hb rfl
    have hupper : b ≠ 'E' := ne_of_isBlank hb rfl
    simp [exponentLength, hlower, hupper]
  | cons c cs =>
    simp only [List.cons_append, exponentLength, signLength_append hb,
      List.drop_append_of_le_length (signLength_le cs), hrun]

theorem hexLength_append (c : Char) (cs rest : List Char) :
    hexLength (c :: (cs ++ b :: rest)) = hexLength (c :: cs) := by
  have hrun := runLength_append_cons (eq_false_of_isBlank hb (p := isHexDigit) rfl)
  cases cs with
  | nil =>
    have hlower : b ≠ 'x' := ne_of_isBlank hb rfl
    have hupper : b ≠ 'X' := ne_of_isBlank hb rfl
    have hlong : hexLength (c :: ([] ++ b :: rest)) = 0 :=
      hexLength_eq_zero (by simpa using ⟨hlower, hupper⟩)
    rw [hlong, hexLength_eq_zero (by simp)]
  | cons x cs =>
    by_cases hc : c = '0'
    · simp [hc, hexLength, hrun]
    · simp [hc, hexLength]

theorem number_append (c : Char) (cs rest : List Char) :
    number (c :: (cs ++ b :: rest)) = number (c :: cs) := by
  have hrun := runLength_append_cons (eq_false_of_isBlank hb (p := Char.isDigit) rfl) (c :: cs) rest
  rw [List.cons_append] at hrun
  have hwhole := runLength_le Char.isDigit (c :: cs)
  have hfraction := fractionLength_le ((c :: cs).drop (runLength Char.isDigit (c :: cs)))
  rw [List.length_drop] at hfraction
  have hdrop (k : Nat) (hk : k ≤ (c :: cs).length) :
      (c :: (cs ++ b :: rest)).drop k = (c :: cs).drop k ++ b :: rest := by
    rw [← List.cons_append, List.drop_append_of_le_length hk]
  have hboth : runLength Char.isDigit (c :: cs) +
      fractionLength ((c :: cs).drop (runLength Char.isDigit (c :: cs))) ≤ (c :: cs).length := by
    omega
  simp only [number, hexLength_append hb, hrun, hdrop _ hwhole, fractionLength_append hb,
    hdrop _ hboth, exponentLength_append hb]

omit hb in
theorem isPrefixOf_append {spelling : List Char} (h : b ∉ spelling) (cs rest : List Char) :
    spelling.isPrefixOf (cs ++ b :: rest) = spelling.isPrefixOf cs := by
  induction spelling generalizing cs with
  | nil => simp
  | cons d spelling ih =>
    obtain ⟨hd, hspelling⟩ := List.ne_and_not_mem_of_not_mem_cons h
    cases cs with
    | nil => simp [List.isPrefixOf, Ne.symm hd]
    | cons c cs => simp [List.isPrefixOf, ih hspelling]

theorem fixedKind?_append (cs rest : List Char) :
    fixedKind? (cs ++ b :: rest) = fixedKind? cs := by
  have hspelled : Kind.spelled.all (fun entry => entry.2.all fun c => !isBlank c) = true := by
    decide +kernel
  unfold fixedKind?
  congr 1
  apply List.find?_congr
  intro entry hentry
  apply isPrefixOf_append
  intro hmem
  have hnot := List.all_eq_true.mp (List.all_eq_true.mp hspelled entry hentry) b hmem
  simp [hb] at hnot

/-- What the next character decides is decided by a blank as by the end of the text. -/
theorem head?_append_eq_some_iff {d : Char} (hd : isBlank d = false) (cs rest : List Char) :
    (cs ++ b :: rest).head? = some d ↔ cs.head? = some d := by
  cases cs with
  | nil => simpa using ne_of_isBlank hb hd
  | cons c cs => simp

theorem startsNumber_append (c : Char) (cs rest : List Char) :
    startsNumber c (cs ++ b :: rest) = startsNumber c cs := by
  cases cs with
  | nil => simp [startsNumber, eq_false_of_isBlank hb (p := Char.isDigit) rfl]
  | cons d cs => simp [startsNumber]

/-- A token is read before a blank as it is read at the end of the text. -/
theorem Munches.append_blank {c : Char} {cs : List Char} {kind : Kind} {n : Nat}
    (h : Munches c cs (some kind) n) (rest : List Char) :
    Munches c (cs ++ b :: rest) (some kind) n := by
  cases h with
  | number h =>
    have hnumber := Munches.number ((startsNumber_append hb c cs rest).trans h)
    rwa [number_append hb] at hnumber
  | name h =>
    have hname : Munches c (cs ++ b :: rest) _ _ := .name h
    rwa [runLength_append_cons (eq_false_of_isBlank hb rfl)] at hname
  | text h => exact .text (textLength?_append h _).2
  | fixed hblank hcomment hnumber hname hquote h =>
    refine .fixed hblank ?_ ((startsNumber_append hb c cs rest).trans hnumber) hname hquote ?_
    · intro hc
      rw [Ne, Ne, head?_append_eq_some_iff hb rfl, head?_append_eq_some_iff hb rfl]
      exact hcomment hc
    · rw [← List.cons_append, fixedKind?_append hb, h]

end Blank

/-- A token or a gap is read before a line feed as it is read at the end of the text. -/
theorem Munches.append_line {c : Char} {cs : List Char} {kind? : Option Kind} {n : Nat}
    (h : Munches c cs kind? n) (rest : List Char) : Munches c (cs ++ '\n' :: rest) kind? n := by
  cases kind? with
  | some kind => exact h.append_blank rfl rest
  | none =>
    cases h with
    | blank hc => exact .blank hc
    | @lineComment cs =>
      have hcomment : Munches '/' ('/' :: (cs ++ '\n' :: rest)) _ _ := .lineComment
      rwa [← List.cons_append, runLength_append_cons (by simp)] at hcomment
    | blockComment h => exact .blockComment (commentLength?_append h _).2

theorem Cuts.append_line {pos pos' : Position} {cs mid : List Char} {ts : List Token}
    (h : Cuts pos cs ts pos' mid) (hmid : mid = []) (rest : List Char) :
    Cuts pos (cs ++ '\n' :: rest) ts pos' ('\n' :: rest) := by
  induction h with
  | done =>
    rw [hmid]
    exact .done
  | @gap pos pos' c cs mid extra ts hmunch _ ih =>
    have hread := munches_of_munch hmunch
    have hcuts := ih hmid
    rw [← List.drop_append_of_le_length hread.le, ← List.take_append_of_le_length hread.le] at hcuts
    exact .gap (hread.append_line rest).munch_eq hcuts
  | @token pos pos' c cs mid kind extra ts hmunch _ ih =>
    have hread := munches_of_munch hmunch
    have htake : (cs ++ '\n' :: rest).take extra = cs.take extra :=
      List.take_append_of_le_length hread.le
    have hcuts := ih hmid
    rw [← List.drop_append_of_le_length hread.le, ← htake] at hcuts
    rw [← htake]
    exact .token (hread.append_line rest).munch_eq hcuts

/-! ## Whole texts -/

/-- After a text that is accepted and a line feed, scanning begins anew further down. -/
theorem scan_lineBreak {cs : List Char} {ts : List Token} (h : scan Position.start cs = .ok ts)
    (ds : List Char) :
    scan Position.start (cs ++ '\n' :: ds) =
      (scan (Position.start.down (1 + cs.count '\n')) ds).map (ts ++ ·) := by
  obtain ⟨pos', hcuts⟩ := scan_eq_ok_iff.mp h
  obtain ⟨taken, hcs, rfl⟩ := hcuts.after
  rw [List.append_nil] at hcs
  subst hcs
  have hline : munch '\n' ds = .ok (none, 0) := (Munches.blank rfl).munch_eq
  have hboth := (hcuts.append_line rfl ds).append (.gap hline .done)
  rw [List.append_nil] at hboth
  rw [hboth.scan_map, ← Position.next_line_after]
  rfl

end Token

theorem Token.LexicalError.toFault_down (k : Nat) (e : Token.LexicalError) (pos : Position) :
    Token.LexicalError.toFault (e, pos.down k) = (Token.LexicalError.toFault (e, pos)).down k := by
  cases e <;> rfl

namespace Program

theorem tokens_eq_ok_iff {source : String} {ts : List Token} :
    tokens source = .ok ts ↔ Token.tokenize source = .ok ts := by
  unfold tokens
  cases Token.tokenize source <;> simp

theorem tokens_eq_error_iff {source : String} {f : Fault} :
    tokens source = .error f ↔
      ∃ e, Token.tokenize source = .error e ∧ Token.LexicalError.toFault e = f := by
  unfold tokens
  cases Token.tokenize source <;> simp

/-- The tokens of a text that is accepted, a line feed and another text are those of the first and
    then those of the second, further down by the lines of the first. If the second is refused, so
    is the whole, for the same cause and at the place that is as far down. -/
theorem tokens_lineBreak {first : String} {ts : List Token} (h : tokens first = .ok ts)
    (second : String) :
    (∀ us, tokens second = .ok us →
      tokens (first ++ "\n" ++ second) =
        .ok (ts ++ us.map (Token.down (1 + first.toList.count '\n')))) ∧
    ∀ f, tokens second = .error f →
      tokens (first ++ "\n" ++ second) = .error (f.down (1 + first.toList.count '\n')) := by
  have hbreak : (first ++ "\n" ++ second).toList = first.toList ++ '\n' :: second.toList := by
    simp
  have hscan := Token.scan_lineBreak (tokens_eq_ok_iff.mp h) second.toList
  rw [← hbreak] at hscan
  constructor
  · intro us hus
    obtain ⟨pos', hcuts⟩ := Token.scan_eq_ok_iff.mp (tokens_eq_ok_iff.mp hus)
    rw [(hcuts.down _).scan_eq rfl] at hscan
    exact tokens_eq_ok_iff.mpr hscan
  · intro f hf
    obtain ⟨⟨e, pos⟩, he, rfl⟩ := tokens_eq_error_iff.mp hf
    obtain ⟨us, c, rest, hcuts, hmunch⟩ := Token.scan_eq_error_iff.mp he
    rw [(hcuts.down _).scan_eq_error hmunch] at hscan
    exact tokens_eq_error_iff.mpr ⟨_, hscan, Token.LexicalError.toFault_down _ e pos⟩

/-- The first text ends in a comment; the second is a name, or a text literal that is not closed. -/
theorem tokens_lineBreak_afterComment :
    (tokens "1e\n// é" =
        .ok [⟨.literal .int, "1", ⟨1, 1⟩⟩, ⟨.identifier, "e", ⟨1, 2⟩⟩] ∧
      tokens "  x" = .ok [⟨.identifier, "x", ⟨1, 3⟩⟩] ∧
      tokens "\n \"" = .error (.atPos .unterminatedText ⟨2, 2⟩)) ∧
    tokens ("1e\n// é" ++ "\n" ++ "  x") =
      .ok ([⟨.literal .int, "1", ⟨1, 1⟩⟩, ⟨.identifier, "e", ⟨1, 2⟩⟩] ++
        [⟨.identifier, "x", ⟨1, 3⟩⟩].map (Token.down (1 + "1e\n// é".toList.count '\n'))) ∧
    tokens ("1e\n// é" ++ "\n" ++ "\n \"") =
      .error ((Fault.atPos .unterminatedText ⟨2, 2⟩).down (1 + "1e\n// é".toList.count '\n')) := by
  have hfirst : tokens "1e\n// é" =
      .ok [⟨.literal .int, "1", ⟨1, 1⟩⟩, ⟨.identifier, "e", ⟨1, 2⟩⟩] := by decide +kernel
  have hname : tokens "  x" = .ok [⟨.identifier, "x", ⟨1, 3⟩⟩] := by decide +kernel
  have hopen : tokens "\n \"" = .error (.atPos .unterminatedText ⟨2, 2⟩) := by decide +kernel
  exact ⟨⟨hfirst, hname, hopen⟩, (tokens_lineBreak hfirst _).1 _ hname,
    (tokens_lineBreak hfirst _).2 _ hopen⟩

end Program

end ExprLang
