import ExprLang.HostData
import ExprLang.Proofs.Numbers.Digits
import ExprLang.Proofs.Numbers.Residues
import ExprLang.Proofs.RoundTrip
import ExprLang.Proofs.Spacing

/-!
# Whole numbers of any length

A whole number comes from a literal, from a number that a host has written down, or from a host's
own number, and its size has no bound. Each way it becomes the one signed number of 64 bits that is
congruent to it modulo `2 ^ 64`, and a minus before it makes that the residue of the negated number
(`Number.routes_wrap`). Literals wrap before they are negated and host numbers after, and numbers
that were written down wrap only if they do not fit. Every literal of a whole number that a text is
cut into has a value.
-/

namespace ExprLang

namespace Number

/-! ## Literals of whole numbers -/

/-- The characters of a literal of a kind write a number: decimal digits, or hexadecimal ones behind
    their mark. -/
inductive Writes : LiteralKind → List Char → Nat → Prop
  | decimal {ds : List Char} (hne : ds ≠ []) (hds : ∀ c ∈ ds, c.isDigit = true) :
    Writes .int ds (positional 10 ds)
  | hexadecimal {x : Char} {ds : List Char} (hx : x = 'x' ∨ x = 'X') (hne : ds ≠ [])
    (hds : ∀ c ∈ ds, c ∈ hexDigits) : Writes .hex ('0' :: x :: ds) (positional 16 ds)

namespace Writes

variable {kind : LiteralKind} {cs rest : List Char} {n : Nat}

/-- The value of a literal are the lowest bits of the number it writes. -/
theorem value_eq (h : Writes kind cs n) :
    Literal.value ⟨kind, String.ofList cs⟩ = .ok (.int (wrapBig n)) := by
  cases h with
  | decimal hne hds =>
    have hvalue := natural?_eq_positional hne hds
    rw [natural?_eq hne] at hvalue
    simp only [Literal.value, String.toList_ofList]
    exact Literal.wholeNumber_eq hne hvalue
  | @hexadecimal x ds hx hne hds =>
    simp only [Literal.value, String.toList_ofList, List.drop_succ_cons, List.drop_zero]
    exact Literal.wholeNumber_eq hne ((hexadecimal_value ds).mpr ⟨hds, rfl⟩)

theorem exists_cons (h : Writes kind cs n) : ∃ c tail, cs = c :: tail ∧ c.isDigit = true := by
  cases h with
  | decimal hne hds =>
    obtain ⟨c, tail, rfl⟩ := List.exists_cons_of_ne_nil hne
    exact ⟨c, tail, rfl, hds c List.mem_cons_self⟩
  | hexadecimal => exact ⟨'0', _, rfl, rfl⟩

/-- Such a literal is one token. -/
theorem cutsTo (h : Writes kind cs n) (hrest : Token.Clear rest) :
    Token.CutsTo (Token.Is (.literal kind) (String.ofList cs)) cs rest := by
  cases h with
  | decimal hne hds => exact Token.cutsTo_digits hne hds hrest
  | @hexadecimal x ds hx hne hds =>
    have hrun : Token.runLength Token.isHexDigit (ds ++ rest) = ds.length :=
      Token.runLength_append (fun c hc => isHexDigit_iff.mpr (hds c hc)) (hrest.head rfl rfl rfl)
    have hlength : Token.hexLength ('0' :: x :: (ds ++ rest)) = ds.length + 2 := by
      rw [Token.hexLength_cons_cons, hrun, if_pos, Nat.add_comm]
      exact ⟨rfl, hx, mt List.length_eq_zero_iff.mp hne⟩
    have hnumber : Token.number ('0' :: x :: (ds ++ rest)) = (.hex, ds.length + 2) := by
      rw [Token.number_of_hex (by omega), hlength]
    have hmunches : Token.Munches '0' (x :: (ds ++ rest)) _ _ := .number rfl
    rw [hnumber] at hmunches
    exact .token hmunches.munch_eq

end Writes

/-- The characters of a hexadecimal number: its mark and a run of digits. -/
theorem writes_of_hexLength {cs : List Char} (h : Token.hexLength cs ≠ 0) :
    ∃ n, Writes .hex (cs.take (Token.hexLength cs)) n := by
  obtain _ | ⟨c, _ | ⟨x, cs⟩⟩ := cs
  · exact absurd rfl h
  · exact absurd (Token.hexLength_eq_zero (by simp)) h
  · rw [Token.hexLength_cons_cons] at h ⊢
    obtain ⟨hmark, -⟩ := ite_ne_right_iff.mp h
    rw [if_pos hmark, Nat.add_comm, List.take_succ_cons, List.take_succ_cons,
      Token.take_runLength]
    obtain ⟨rfl, hx, hrun⟩ := hmark
    refine ⟨_, .hexadecimal hx (mt List.length_eq_zero_iff.mpr hrun) ?_⟩
    exact fun d hd => isHexDigit_iff.mp (List.mem_takeWhile_imp hd)

/-- What is read at the front of a text as a whole number writes one. -/
theorem writes_of_number {c : Char} {cs : List Char} (h : Token.startsNumber c cs = true)
    (hwhole : (Token.number (c :: cs)).1 = .int ∨ (Token.number (c :: cs)).1 = .hex) :
    ∃ n, Writes (Token.number (c :: cs)).1 ((c :: cs).take (Token.number (c :: cs)).2) n := by
  by_cases hhex : Token.hexLength (c :: cs) = 0
  · obtain ⟨hpos, -⟩ := Token.number_pos h
    rw [Token.number_of_decimal hhex rfl rfl rfl] at hwhole hpos ⊢
    -- a fraction or an exponent would make it a double
    split at hwhole
    · next hnone =>
      simp only [Nat.add_assoc, hnone, Nat.add_zero, Token.take_runLength] at hpos ⊢
      refine ⟨_, .decimal (List.length_pos_iff.mp hpos) ?_⟩
      exact fun d hd => List.mem_takeWhile_imp hd
    · rcases hwhole with hwhole | hwhole <;> cases hwhole
  · rw [Token.number_of_hex hhex]
    exact writes_of_hexLength hhex

end Number

namespace Token

theorem fixedKind?_ne_literal {cs : List Char} {kind : Kind} {n : Nat}
    (h : fixedKind? cs = some (kind, n)) (l : LiteralKind) : kind ≠ .literal l := by
  have hall : Kind.spelled.all (fun entry => entry.1 ≠ .literal l) = true := by
    cases l <;> decide +kernel
  obtain ⟨entry, hfind, heq⟩ := Option.map_eq_some_iff.mp h
  cases heq
  simpa using List.all_eq_true.mp hall entry (List.mem_of_find?_eq_some hfind)

/-- The lexemes of whole numbers in a text write numbers. -/
theorem exists_writes {source : String} {ts : List Token} (h : tokenize source = .ok ts)
    {t : Token} (ht : t ∈ ts) {kind : LiteralKind} (hkind : t.kind = .literal kind)
    (hwhole : kind = .int ∨ kind = .hex) : ∃ n, Number.Writes kind t.lexeme.toList n := by
  obtain ⟨pos', hcuts⟩ := scan_eq_ok_iff.mp h
  obtain ⟨c, cs, extra, hmunches, hlexeme⟩ := hcuts.munches t ht
  rw [hkind] at hmunches
  rw [hlexeme, String.toList_ofList]
  cases hmunches with
  | number hstarts =>
    obtain ⟨hpos, -⟩ := number_pos hstarts
    rw [← List.take_cons hpos]
    exact Number.writes_of_number hstarts hwhole
  | text htext => rcases hwhole with hwhole | hwhole <;> cases hwhole
  | fixed _ _ _ _ _ hfixed => exact absurd rfl (fixedKind?_ne_literal hfixed kind)

end Token

/-! ## The routes -/

/-- A source text evaluates to a value: in every scope and with all machines that remember what
    their nodes build, once there is enough fuel. -/
def EvaluatesTo (source : String) (v : Value) : Prop :=
  ∀ (engine : Engine) (scope : Nat) (m : Machine), Literal.AllBuilt m.nodes m.literals →
    ∃ enough m', ∀ fuel, enough ≤ fuel → engine.eval fuel source scope m = .done v m'

theorem evaluatesTo_of_spelled {source : String} {n : Int64}
    (h : Token.CutsTo (Data.int n).Spelled source.toList []) : EvaluatesTo source (.int n) := by
  intro engine scope m hm
  obtain ⟨e, he, hsource⟩ := Data.ofSource_of_spelled h
  obtain ⟨enough, v, m', hdone, hv⟩ := engine.eval_of_denotes he (.int n) hsource scope hm
  cases hv
  exact ⟨enough, m', hdone⟩

/-- Data become a value in every store, and nothing is added to the store for it. -/
def HostData.Becomes (d : HostData) (v : Value) : Prop :=
  ∀ s, d.toValue s = .ok (v, s)

namespace Number

/-- The route of a literal, which wraps before it is negated. -/
theorem Writes.evaluatesTo {kind : LiteralKind} {cs : List Char} {n : Nat} (h : Writes kind cs n)
    (negative : Bool) :
    ∃ r, Wraps (signed negative n) r ∧
      EvaluatesTo (String.ofList (withSign negative cs)) (.int r) := by
  have hvalue := h.value_eq
  have hcuts := h.cutsTo .nil
  have hwraps := wraps_wrapBig n
  cases negative with
  | false =>
    refine ⟨_, hwraps, evaluatesTo_of_spelled ?_⟩
    rw [String.toList_ofList]
    exact Data.cutsTo_literal hvalue hcuts
  | true =>
    obtain ⟨c, tail, rfl, hc⟩ := h.exists_cons
    refine ⟨_, hwraps.neg, evaluatesTo_of_spelled ?_⟩
    rw [String.toList_ofList]
    exact Data.cutsTo_negated hc hvalue hcuts

theorem integer?_withSign (negative : Bool) {ds : List Char} (hne : ds ≠ [])
    (hds : ∀ c ∈ ds, c.isDigit = true) :
    integer? (withSign negative ds) = some (signed negative (positional 10 ds)) := by
  have hnatural := natural?_eq_positional hne hds
  obtain ⟨c, tail, rfl⟩ := List.exists_cons_of_ne_nil hne
  rw [integer?, splitSign_withSign negative (hds c List.mem_cons_self)]
  simp only [hnatural, Option.map_some]

/-- The route of a number that was written down, which wraps only if it does not fit. -/
theorem becomes_number {written : String} {n : Int} (h : integer? written.toList = some n) :
    ∃ r, Wraps n r ∧ (HostData.number written).Becomes (.int r) := by
  obtain ⟨r, hr, hvalue⟩ := numberValue_of_integer? h
  refine ⟨r, hr, fun s => ?_⟩
  rw [HostData.toValue, hvalue]

/-- The route of a host's own number of any size. -/
theorem becomes_big (n : Int) : ∃ r, Wraps n r ∧ (HostData.big n).Becomes (.int r) := by
  refine ⟨_, wraps_wrapBig n, fun s => ?_⟩
  rw [HostData.toValue]
  rfl

/-- Decimal digits, with or without a minus, give one number as a source text, as a number that a
    host has written and as the host's own number: the residue of what they write, negated if there
    is a minus. Hexadecimal literals of any length give the residue of theirs. No literal of a whole
    number among the tokens of a text fails to have a value. -/
theorem routes_wrap :
    (∀ (negative : Bool) (ds : List Char), ds ≠ [] → (∀ c ∈ ds, c.isDigit = true) →
      ∃ r, Wraps (signed negative (positional 10 ds)) r ∧
        EvaluatesTo (String.ofList (withSign negative ds)) (.int r) ∧
        (HostData.number (String.ofList (withSign negative ds))).Becomes (.int r) ∧
        (HostData.big (signed negative (positional 10 ds))).Becomes (.int r)) ∧
    (∀ (negative : Bool) (x : Char) (ds : List Char), x = 'x' ∨ x = 'X' → ds ≠ [] →
      (∀ c ∈ ds, c ∈ hexDigits) → ∃ r, Wraps (signed negative (positional 16 ds)) r ∧
        EvaluatesTo (String.ofList (withSign negative ('0' :: x :: ds))) (.int r)) ∧
    ∀ (source : String) (ts : List Token), Token.tokenize source = .ok ts → ∀ t ∈ ts,
      ∀ kind, t.kind = .literal kind → kind = .int ∨ kind = .hex →
      ∃ n r, Writes kind t.lexeme.toList n ∧ Wraps n r ∧
        ∀ (engine : Engine) (scope node : Nat) (m : Machine), Literal.AllBuilt m.nodes m.literals →
          m.nodes[node]? = some ⟨kind, t.lexeme⟩ → ∃ m', ∀ fuel, 0 < fuel →
            Eval.visit engine fuel scope (.literal node kind t.lexeme t.pos) m =
              .done (.int r) m' := by
  refine ⟨?_, ?_, ?_⟩
  · intro negative ds hne hds
    have hinteger := integer?_withSign negative hne hds
    rw [← String.toList_ofList (l := withSign negative ds)] at hinteger
    obtain ⟨r, hr, heval⟩ := Writes.evaluatesTo (.decimal hne hds) negative
    obtain ⟨r', hr', hnumber⟩ := becomes_number hinteger
    obtain ⟨r'', hr'', hbig⟩ := becomes_big (signed negative (positional 10 ds))
    -- there is one residue, so that the three routes meet
    cases hr.unique hr'
    cases hr.unique hr''
    exact ⟨r, hr, heval, hnumber, hbig⟩
  · intro negative x ds hx hne hds
    exact Writes.evaluatesTo (.hexadecimal hx hne hds) negative
  · intro source ts htokens t ht kind hkind hwhole
    obtain ⟨n, hwrites⟩ := Token.exists_writes htokens ht hkind hwhole
    have hvalue := hwrites.value_eq
    rw [String.ofList_toList] at hvalue
    refine ⟨n, _, hwrites, wraps_wrapBig n, fun engine scope node m hm hnode => ?_⟩
    have hvisit : EvalM.Builds m.nodes (fun _ => True) 1
        (fun fuel => Eval.visit engine fuel scope (.literal node kind t.lexeme t.pos))
        (fun _ v => v = .int (wrapBig n)) := by
      refine .visitLiteral (List.forall_mem_singleton.mpr hnode) hvalue ?_ Nat.one_pos
      exact fun _ => rfl
    obtain ⟨_, m', hdone, rfl, -⟩ := hvisit m rfl trivial hm
    exact ⟨m', hdone⟩

/-- The first number above the greatest is congruent to the least one, and so is its negation; all
    ones in 64 bits are congruent to `-1`. A literal ends before the first character
    that is no digit. -/
theorem routes_wrap_least :
    EvaluatesTo "9223372036854775808" (.int Int64.minValue) ∧
    EvaluatesTo "-9223372036854775808" (.int Int64.minValue) ∧
    (HostData.number "-9223372036854775808").Becomes (.int Int64.minValue) ∧
    (HostData.big 9223372036854775808).Becomes (.int Int64.minValue) ∧
    EvaluatesTo "0XffffFFFFffffFFFF" (.int (-1)) ∧
    Token.tokenize "0x1g" = .ok [⟨.literal .hex, "0x1", ⟨1, 1⟩⟩, ⟨.identifier, "g", ⟨1, 4⟩⟩] ∧
    ∃ r m, Eval.visit {} 1 0 (.literal 0 .hex "0x1" ⟨1, 1⟩) { nodes := #[⟨.hex, "0x1"⟩] } =
      .done (.int r) m := by
  obtain ⟨hdecimal, hhexadecimal, htokens⟩ := routes_wrap
  have hdigits := List.all_eq_true.mp
    (rfl : "9223372036854775808".toList.all Char.isDigit = true)
  obtain ⟨r, hr, heval, -, hint⟩ := hdecimal false _ (by decide) hdigits
  obtain ⟨r', hr', heval', hnumber, -⟩ := hdecimal true _ (by decide) hdigits
  have hhex := List.all_eq_true.mp
    (rfl : "ffffFFFFffffFFFF".toList.all (fun c => c ∈ hexDigits) = true)
  obtain ⟨q, hq, hones⟩ := hhexadecimal false 'X' _ (.inr rfl) (by decide)
    fun c hc => of_decide_eq_true (hhex c hc)
  obtain rfl := (hr Int64.minValue).mp (by decide +kernel)
  obtain rfl := (hr' Int64.minValue).mp (by decide +kernel)
  obtain rfl := (hq (-1)).mp (by decide +kernel)
  have hcut : Token.tokenize "0x1g" =
      .ok [⟨.literal .hex, "0x1", ⟨1, 1⟩⟩, ⟨.identifier, "g", ⟨1, 4⟩⟩] := by decide +kernel
  obtain ⟨_, d, -, -, hvisit⟩ :=
    htokens "0x1g" _ hcut _ List.mem_cons_self .hex rfl (.inr rfl)
  obtain ⟨m, hdone⟩ := hvisit {} 0 0 { nodes := #[⟨.hex, "0x1"⟩] } Literal.AllBuilt.nil rfl
  exact ⟨heval, heval', hnumber, hint, hones, hcut, d, m, hdone 1 Nat.one_pos⟩

end Number

end ExprLang
