import ExprLang.Proofs.Cutting
import Mathlib.Data.List.Infix

/-!
# Nothing is lost in tokens

A text that is cut into tokens consists of their lexemes and of the gaps between them, which hold
nothing but blanks and comments. Each token keeps the line and the column that its first character
has, counted in the text before it. `Token.Laid` says this of a text and its tokens, and
`Token.laid_of_tokenize` shows it of all texts that are accepted.
-/

namespace ExprLang

namespace Position

/-- The place that comes after some characters, by counting: the lines that are ended in them, and
    the characters of the line that is not. -/
def behind (before : List Char) : Position :=
  ⟨1 + before.count '\n', 1 + (before.reverse.takeWhile (· ≠ '\n')).length⟩

theorem next_behind (before : List Char) (c : Char) :
    (behind before).next c = behind (before ++ [c]) := by
  by_cases hc : c = '\n'
  · subst hc
    simp [behind, next, Nat.add_assoc]
  · simp [behind, next, hc, Nat.add_assoc]

theorem after_behind (before cs : List Char) :
    (behind before).after cs = behind (before ++ cs) := by
  induction cs generalizing before with
  | nil => simp
  | cons c cs ih => rw [after_cons, next_behind, ih, List.append_assoc, List.singleton_append]

end Position

namespace Token

/-! ## Gaps -/

/-- A piece of a gap, told with what follows it: a blank, a comment that runs to the next line feed
    or to the end of the text, or a comment up to the first mark that closes it. -/
inductive Piece : List Char → List Char → Prop
  | blank {c : Char} {rest : List Char} (hc : c ∈ [' ', '\t', '\r', '\n', '\x0c', '\x0b']) :
    Piece [c] rest
  | lineComment {body rest : List Char} (hbody : '\n' ∉ body)
    (hend : ∀ c ∈ rest.head?, c = '\n') : Piece ('/' :: '/' :: body) rest
  | blockComment {body rest : List Char} (hbody : ¬ ['*', '/'] <:+: body) :
    Piece ('/' :: '*' :: (body ++ ['*', '/'])) rest

/-- A gap, told with what follows it: any number of pieces. -/
inductive Gap : List Char → List Char → Prop
  | nil {rest : List Char} : Gap [] rest
  | cons {piece gap rest : List Char} (hpiece : Piece piece (gap ++ rest)) (hgap : Gap gap rest) :
    Gap (piece ++ gap) rest

/-- A text that comes after other characters is laid out in gaps and tokens, in turn: each token has
    at least one character and stands at the place that its first one has. -/
inductive Laid : List Char → List Token → List Char → Prop
  | ends {before gap : List Char} (hgap : Gap gap []) : Laid before [] gap
  | token {before gap rest : List Char} {t : Token} {ts : List Token}
    (hgap : Gap gap (t.lexeme.toList ++ rest)) (hlexeme : t.lexeme ≠ "")
    (hpos : t.pos = Position.behind (before ++ gap))
    (hrest : Laid (before ++ gap ++ t.lexeme.toList) ts rest) :
    Laid before (t :: ts) (gap ++ t.lexeme.toList ++ rest)

/-! ## What is munched -/

theorem drop_runLength (p : Char → Bool) (cs : List Char) :
    cs.drop (runLength p cs) = cs.dropWhile p := by
  have hsplit := List.takeWhile_append_dropWhile (p := p) (l := cs)
  rw [runLength]
  nth_rewrite 2 [← hsplit]
  exact List.drop_left

/-- What comes after a comment that runs to the end of its line. -/
theorem eq_line_of_head?_dropWhile {cs : List Char} {c : Char}
    (hc : c ∈ (cs.dropWhile (· ≠ '\n')).head?) : c = '\n' := by
  have hstop := List.head?_dropWhile_not (fun d : Char => decide (d ≠ '\n')) cs
  rw [Option.mem_def.mp hc] at hstop
  simpa using hstop

/-- A comment is closed by the first mark that can do so. -/
theorem exists_of_commentLength? {cs : List Char} {n : Nat} (h : commentLength? cs = some n) :
    ∃ body rest, cs = body ++ ['*', '/'] ++ rest ∧ n = (body ++ ['*', '/']).length ∧
      ¬ ['*', '/'] <:+: body := by
  fun_induction commentLength? cs generalizing n with
  | case1 rest =>
    cases h
    exact ⟨[], rest, rfl, rfl, by simp⟩
  | case2 c cs hopen ih =>
    obtain ⟨k, hk, rfl⟩ := Option.map_eq_some_iff.mp h
    obtain ⟨body, rest, rfl, rfl, hbody⟩ := ih hk
    refine ⟨c :: body, rest, rfl, rfl, ?_⟩
    intro hinfix
    rcases List.infix_cons_iff.mp hinfix with hprefix | hinfix
    · -- the comment would have been closed here
      obtain ⟨tail, htail⟩ := hprefix
      obtain ⟨rfl, rfl⟩ := List.cons.inj htail
      exact hopen _ rfl rfl
    · exact hbody hinfix
  | case3 => cases h

theorem piece_of_munch {c : Char} {cs : List Char} {n : Nat} (h : munch c cs = .ok (none, n)) :
    Piece (c :: cs.take n) (cs.drop n) := by
  cases munches_of_munch h with
  | blank hc =>
    apply Piece.blank
    simpa [isBlank, or_assoc] using hc
  | lineComment =>
    rw [take_runLength, drop_runLength]
    apply Piece.lineComment
    · intro hmem
      simpa using List.mem_takeWhile_imp hmem
    · intro d hd
      exact eq_line_of_head?_dropWhile hd
  | blockComment hlength =>
    obtain ⟨body, rest, rfl, rfl, hbody⟩ := exists_of_commentLength? hlength
    rw [List.take_succ_cons, List.drop_succ_cons, List.take_left, List.drop_left]
    exact .blockComment hbody

/-! ## Texts -/

/-- A piece before a text belongs to its first gap. -/
theorem Laid.prepend {before piece rest : List Char} {ts : List Token} (hpiece : Piece piece rest)
    (h : Laid (before ++ piece) ts rest) : Laid before ts (piece ++ rest) := by
  cases h with
  | ends hgap =>
    apply Laid.ends
    apply Gap.cons _ hgap
    simpa using hpiece
  | token hgap hlexeme hpos hrest =>
    rw [List.append_assoc before] at hpos hrest
    rw [← List.append_assoc, ← List.append_assoc]
    refine .token (.cons ?_ hgap) hlexeme hpos hrest
    simpa using hpiece

theorem Cuts.laid {pos pos' : Position} {before cs rest : List Char} {ts : List Token}
    (h : Cuts pos cs ts pos' rest) (hpos : pos = Position.behind before) (hrest : rest = []) :
    Laid before ts cs := by
  induction h generalizing before with
  | done =>
    subst hrest
    exact .ends .nil
  | @gap pos pos' c cs rest extra ts hmunch _ ih =>
    have hlaid := ih (by rw [hpos, Position.after_behind]) hrest
    have hwhole := hlaid.prepend (piece_of_munch hmunch)
    rwa [List.cons_append, List.take_append_drop] at hwhole
  | @token pos pos' c cs rest kind extra ts hmunch _ ih =>
    have hlaid := ih (by rw [hpos, Position.after_behind]) hrest
    have hlexeme : (String.ofList (c :: cs.take extra)).toList = c :: cs.take extra :=
      String.toList_ofList
    have hwhole : Laid before (⟨kind, String.ofList (c :: cs.take extra), pos⟩ :: ts)
        ([] ++ (String.ofList (c :: cs.take extra)).toList ++ cs.drop extra) := by
      refine .token .nil ?_ ?_ ?_
      · simp
      · rw [List.append_nil, hpos]
      · rw [List.append_nil, hlexeme]
        exact hlaid
    rwa [hlexeme, List.nil_append, List.cons_append, List.take_append_drop] at hwhole

/-- A text that is accepted is made of gaps and of the lexemes of its tokens, in turn, and every
    token stands where its first character does. -/
theorem laid_of_tokenize {source : String} {ts : List Token} (h : tokenize source = .ok ts) :
    Laid [] ts source.toList := by
  obtain ⟨pos', hcuts⟩ := scan_eq_ok_iff.mp h
  exact hcuts.laid rfl rfl

/-- Two tokens on four lines: the first has a line feed in it, and comments of both sorts come
    between them. -/
theorem laid_fourLines :
    tokenize "\"é\n\" // ü\n/* ß\n */ x" =
      .ok [⟨.literal .text, "\"é\n\"", ⟨1, 1⟩⟩, ⟨.identifier, "x", ⟨4, 5⟩⟩] ∧
    Laid [] [⟨.literal .text, "\"é\n\"", ⟨1, 1⟩⟩, ⟨.identifier, "x", ⟨4, 5⟩⟩]
      "\"é\n\" // ü\n/* ß\n */ x".toList := by
  have htokens : tokenize "\"é\n\" // ü\n/* ß\n */ x" =
      .ok [⟨.literal .text, "\"é\n\"", ⟨1, 1⟩⟩, ⟨.identifier, "x", ⟨4, 5⟩⟩] := by decide +kernel
  exact ⟨htokens, laid_of_tokenize htokens⟩

end Token

end ExprLang
