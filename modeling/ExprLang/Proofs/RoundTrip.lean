import ExprLang.Proofs.Denotation
import ExprLang.Proofs.Layout
import ExprLang.Proofs.Numbers.Notation
import ExprLang.Proofs.Numbers.Residues

/-!
# Values read back from their text

The text that a value is written as is a program for it: evaluated in any scope, it gives a value
that holds the same data (`Engine.eval_repr`). The text is read the way it was laid out, piece by
piece: each piece is cut into tokens that spell an expression which denotes the data of that piece.
-/

namespace ExprLang

/-! ## Numbers -/

namespace Number

theorem isDigit_of_mem_repr {n : Nat} {c : Char} (h : c ∈ n.repr.toList) : c.isDigit = true := by
  rw [Nat.toList_repr] at h
  exact Nat.isDigit_of_mem_toDigits (by decide) (by decide) h

theorem toList_repr_ne_nil (n : Nat) : n.repr.toList ≠ [] := by
  rw [Nat.toList_repr]
  exact Nat.toDigits_ne_nil

/-- A number is read back from its digits. -/
theorem natural?_repr (n : Nat) : natural? n.repr.toList = some n := by
  rw [natural?_eq (toList_repr_ne_nil n), digitsValue?_eq (fun c hc => isDigit_of_mem_repr hc),
    Nat.toList_repr, Nat.ofDigitChars_toDigits (by decide) (by decide)]

end Number

/-- The literal of a natural number, which may wrap. -/
theorem Literal.value_repr (n : Nat) :
    Literal.value ⟨.int, n.repr⟩ = .ok (.int (Int64.ofInt n)) := by
  have hne := Number.toList_repr_ne_nil n
  have hdigits := Number.natural?_repr n
  rw [Number.natural?_eq hne] at hdigits
  rw [← Number.wrapBig_eq_ofInt]
  exact wholeNumber_eq hne hdigits

/-! ## What is written for data -/

open Token

namespace Data

/-- Names and runs of decimal digits, the keys that can stand without quotes. -/
def isBareKey (key : Text) : Bool :=
  match key.toString?.map String.toList with
  | some (c :: cs) => (startsName c && cs.all continuesName) || (c :: cs).all Char.isDigit
  | _ => false

/-- Every key in the data can stand without quotes. -/
def BareKeys (d : Data) : Prop := d.AllKeys fun keys => ∀ key ∈ keys, isBareKey key = true

/-- Tokens that spell an expression which denotes the data. -/
def Spelled (d : Data) (ts : List Token) : Prop :=
  ∃ e : Expr, e.Denotes d ∧ Expr.Spells (.expr e) ts

/-- Tokens that spell the elements of a list. -/
def SpelledAll (items : List Data) (ts : List Token) : Prop :=
  ∃ es : List Expr, List.Forall₂ Expr.Denotes es items ∧ Expr.Spells (.elements es) ts

/-- Tokens that spell a member of an object. -/
def SpelledEntry (member : Text × Data) (ts : List Token) : Prop :=
  ∃ t colon us key, ts = t :: colon :: us ∧ member.1 = (key : String) ∧ Expr.key? t = .ok key ∧
    colon.kind = .colon ∧ member.2.Spelled us

/-- Tokens that spell the members of an object. -/
def SpelledEntries (members : List (Text × Data)) (ts : List Token) : Prop :=
  ∃ es : List Entry, es.map Entry.key = members.map Prod.fst ∧
    List.Forall₂ Expr.Denotes (es.map Entry.value) (members.map Prod.snd) ∧
    Expr.Spells (.entries es) ts

theorem listed_spelled : Listed Spelled SpelledAll where
  none := ⟨[], .nil, .noElements⟩
  last := by
    rintro d ts ⟨e, he, hts⟩
    exact ⟨[e], .cons he .nil, .lastElement hts⟩
  cons := by
    rintro d items ts us comma ⟨e, he, hts⟩ hcomma hne ⟨es, hes, hus⟩
    refine ⟨e :: es, .cons he hes, .element hts hcomma ?_ hus⟩
    rintro rfl
    cases hes
    exact hne rfl

theorem listed_spelledEntry : Listed SpelledEntry SpelledEntries where
  none := ⟨[], rfl, .nil, .noEntries⟩
  last := by
    rintro ⟨_, d⟩ _ ⟨t, colon, us, key, rfl, rfl, hkey, hcolon, e, he, hus⟩
    exact ⟨[.mk key .start e], rfl, .cons he .nil, .lastEntry hkey hcolon hus⟩
  cons := by
    rintro ⟨_, d⟩ members _ vs comma ⟨t, colon, us, key, rfl, rfl, hkey, hcolon, e, he, hus⟩
      hcomma hne ⟨es, hkeys, hes, hvs⟩
    refine ⟨.mk key .start e :: es, congrArg (Text.ofString key :: ·) hkeys, .cons he hes, ?_⟩
    refine .entry hkey hcolon hus hcomma ?_ hvs
    rintro rfl
    exact hne (List.map_eq_nil_iff.mp hkeys.symm)

/-! ## Pieces of text -/

theorem line_notMem {p : Char → Bool} (hp : p '\n' = false) {cs : List Char}
    (hcs : ∀ c ∈ cs, p c = true) : '\n' ∉ cs := by
  intro hmem
  rw [hcs _ hmem] at hp
  cases hp

/-- The digits of a number are one token. -/
theorem cutsTo_repr (k : Nat) {rest : List Char} (hrest : Clear rest) :
    CutsTo (Is (.literal .int) (String.ofList k.repr.toList)) k.repr.toList rest :=
  cutsTo_digits (Number.toList_repr_ne_nil k) (fun _ hc => Number.isDigit_of_mem_repr hc) hrest

theorem line_notMem_repr (k : Nat) : '\n' ∉ k.repr.toList :=
  line_notMem rfl fun _ hc => Number.isDigit_of_mem_repr hc

/-- A literal of a whole number. -/
theorem cutsTo_literal {kind : LiteralKind} {cs rest : List Char} {n : Int64}
    (hvalue : Literal.value ⟨kind, String.ofList cs⟩ = .ok (.int n))
    (hcuts : CutsTo (Is (.literal kind) (String.ofList cs)) cs rest) :
    CutsTo (int n).Spelled cs rest := by
  refine hcuts.imp ?_
  rintro _ ⟨t, rfl, hkind, hlexeme⟩
  exact ⟨.literal 0 kind t.lexeme .start, .int (hlexeme ▸ hvalue), .literal hkind⟩

/-- A number with a sign is read as a negation. The digits may wrap before they are negated. -/
theorem cutsTo_negated {kind : LiteralKind} {c : Char} {cs rest : List Char} {n : Int64}
    (hc : c.isDigit = true)
    (hvalue : Literal.value ⟨kind, String.ofList (c :: cs)⟩ = .ok (.int n))
    (hcuts : CutsTo (Is (.literal kind) (String.ofList (c :: cs))) (c :: cs) rest) :
    CutsTo (int (-n)).Spelled ('-' :: c :: cs) rest := by
  have hminus : CutsTo (Is (.binary (.arith .sub)) "-") ['-'] (c :: cs ++ rest) :=
    .token (munch_minus hc _)
  refine (hminus.append hcuts).imp ?_
  rintro _ ⟨_, _, rfl, ⟨minus, rfl, hsign, -⟩, t, rfl, hkind, hlexeme⟩
  exact ⟨.unary .minus (.literal 0 kind t.lexeme .start) .start, .negated (hlexeme ▸ hvalue),
    .unary hsign (.literal hkind)⟩

/-- A text that is cut into tokens which spell data is a program that denotes them. -/
theorem ofSource_of_spelled {d : Data} {source : String}
    (h : CutsTo d.Spelled source.toList []) :
    ∃ e : Expr, e.Denotes d ∧ Program.ofSource source = .ok ⟨some e⟩ := by
  obtain ⟨ts, ⟨e, he, hspells⟩, htokens⟩ := tokenize_of_cutsTo h
  obtain ⟨e', hparsed, hunplaced⟩ := Expr.ofTokens_of_spells he.writable hspells
  refine ⟨e', he.of_unplaced hunplaced, ?_⟩
  simp only [Program.ofSource, Program.tokens, Program.ofTokens, htokens, hparsed]

theorem value_toList_repr (k : Nat) :
    Literal.value ⟨.int, String.ofList k.repr.toList⟩ = .ok (.int (Int64.ofInt k)) := by
  rw [String.ofList_toList, Literal.value_repr]

theorem written_natural (k : Nat) : Written (int (Int64.ofInt k)).Spelled k.repr := by
  refine .of_line (line_notMem_repr k) fun rest hrest => ?_
  exact cutsTo_literal (value_toList_repr k) (cutsTo_repr k hrest)

theorem written_negated (k : Nat) : Written (int (-Int64.ofInt k)).Spelled ("-" ++ k.repr) := by
  have htext : ("-" ++ k.repr).toList = '-' :: k.repr.toList := String.toList_append
  have hline : '\n' ∉ ("-" ++ k.repr).toList := by
    rw [htext]
    simpa using line_notMem_repr k
  refine .of_line hline fun rest hrest => ?_
  have hvalue := value_toList_repr k
  have hcuts := cutsTo_repr k hrest
  obtain ⟨c, cs, hcons⟩ := List.exists_cons_of_ne_nil (Number.toList_repr_ne_nil k)
  have hc : c.isDigit = true := Number.isDigit_of_mem_repr (hcons ▸ List.mem_cons_self)
  rw [hcons] at hvalue hcuts
  rw [htext, hcons]
  exact cutsTo_negated hc hvalue hcuts

theorem written_int (n : Int64) : Written (int n).Spelled (toString n.toInt) := by
  have hn := Int64.ofInt_toInt n
  cases hi : n.toInt with
  | ofNat k =>
    have hvalue : Int64.ofInt (k : Int) = n := by
      rw [← hn, hi]
      rfl
    exact hvalue ▸ written_natural k
  | negSucc k =>
    have hvalue : -Int64.ofInt ((k + 1 : Nat) : Int) = n := by
      rw [← hn, hi, Int.negSucc_eq, Int64.ofInt_neg]
      rfl
    exact hvalue ▸ written_negated (k + 1)

theorem written_text (t : String) : Written (text t).Spelled (Text.quote t) := by
  refine .of_line (Text.line_notMem_quote t) fun rest _ => (cutsTo_quote t rest).imp ?_
  rintro _ ⟨u, rfl, hkind, hlexeme⟩
  refine ⟨.literal 0 .text u.lexeme .start, .text ?_, .literal hkind⟩
  simp only [Literal.value, hlexeme, Text.decode_quote]

theorem written_list {texts : List Text} {items : List Data}
    (h : List.Forall₂ (fun text item => Written item.Spelled text) texts items) :
    Written (list items).Spelled (Store.bracketed texts) := by
  refine (listed_spelled.written_bracketed h).imp ?_
  rintro _ ⟨t, us, u, rfl, ht, ⟨es, hes, hus⟩, hu⟩
  exact ⟨.list es .start, .list hes, .list ht hus hu⟩

theorem written_map {texts : List Text} {members : List (Text × Data)}
    (h : List.Forall₂ (fun text member => Written (SpelledEntry member) text) texts members) :
    Written (map members).Spelled (Store.braced texts) := by
  refine (listed_spelledEntry.written_braced h).imp ?_
  rintro _ ⟨t, us, u, rfl, ht, ⟨es, hkeys, hes, hus⟩, hu⟩
  exact ⟨.object es .start, .object hkeys hes, .object ht hus hu⟩

theorem isUnicode_of_isBareKey {key : Text} (h : isBareKey key = true) : key.IsUnicode := by
  unfold isBareKey at h
  cases hs : key.toString? with
  | none =>
    rw [hs] at h
    cases h
  | some s => exact ⟨s, Text.toString?_eq_some.mp hs⟩

theorem isBareKey_cases {key : String} (h : isBareKey key = true) :
    (∃ c cs, key.toList = c :: cs ∧ startsName c = true ∧ ∀ d ∈ cs, continuesName d = true) ∨
      key.toList ≠ [] ∧ ∀ d ∈ key.toList, d.isDigit = true := by
  unfold isBareKey at h
  rw [Text.toString?_ofString, Option.map_some] at h
  cases hcs : key.toList with
  | nil => simp [hcs] at h
  | cons c cs =>
    rw [hcs] at h
    rcases Bool.or_eq_true_iff.mp h with hname | hdigits
    · obtain ⟨hc, hothers⟩ := Bool.and_eq_true_iff.mp hname
      exact .inl ⟨c, cs, rfl, hc, List.all_eq_true.mp hothers⟩
    · exact .inr ⟨List.cons_ne_nil c cs, List.all_eq_true.mp hdigits⟩

theorem continuesName_of_isBareKey {key : String} (h : isBareKey key = true) :
    ∀ c ∈ key.toList, continuesName c = true := by
  rcases isBareKey_cases h with ⟨c, cs, hcons, hc, hcs⟩ | ⟨-, hdigits⟩
  · rw [hcons]
    refine List.forall_mem_cons.mpr ⟨?_, hcs⟩
    rw [continuesName, hc, Bool.true_or]
  · intro c hmem
    rw [continuesName, hdigits c hmem, Bool.or_true]

/-- A bare key is one token, which stands for it as a key. -/
theorem cutsTo_key {key : String} (h : isBareKey key = true) {rest : List Char}
    (hrest : Clear rest) :
    CutsTo (fun ts => ∃ t, ts = [t] ∧ Expr.key? t = .ok key) key.toList rest := by
  have hkey : String.ofList key.toList = key := String.ofList_toList
  rcases isBareKey_cases h with ⟨c, cs, hcons, hc, hcs⟩ | ⟨hne, hdigits⟩
  · rw [hcons] at hkey ⊢
    refine (cutsTo_name hc hcs hrest).imp ?_
    rintro _ ⟨t, rfl, hkind, hlexeme⟩
    exact ⟨t, rfl, by simp only [Expr.key?, hkind, hlexeme, hkey]⟩
  · refine (cutsTo_digits hne hdigits hrest).imp ?_
    rintro _ ⟨t, rfl, hkind, hlexeme⟩
    exact ⟨t, rfl, by simp only [Expr.key?, hkind, hlexeme, hkey]⟩

theorem written_entry {key : Text} (hkey : isBareKey key = true) {d : Data} {text : Text}
    (h : Written d.Spelled text) :
    Written (SpelledEntry (key, d)) (key ++ " : " ++ Store.indent text) := by
  obtain ⟨key, rfl⟩ := isUnicode_of_isBareKey hkey
  obtain ⟨cs, hcs, hlaid⟩ := h.indent
  refine ⟨key.toList ++ [' ', ':', ' '] ++ cs, ?_, fun k rest hrest => ?_⟩
  · rw [hcs, Text.ofChars_append, Text.ofChars_append, Text.ofChars_toList]
    rfl
  have hline := line_notMem rfl (continuesName_of_isBareKey hkey)
  have hseparator : shifted k [' ', ':', ' '] = [' '] ++ ([':'] ++ [' ']) := rfl
  rw [shifted_append, shifted_append, shifted_of_notMem hline, hseparator]
  simp only [List.append_assoc]
  have hspace (cs : List Char) : CutsTo (· = []) [' '] cs := .blank rfl
  have hclear (cs : List Char) : Clear (' ' :: cs) := .of_cons cs (.inl rfl)
  have hvalue := (hspace _).skip (hlaid k rest hrest)
  have hcolon := (cutsTo_mark .colon rfl _).append hvalue
  refine ((cutsTo_key hkey (hclear _)).append ((hspace _).skip hcolon)).imp ?_
  rintro _ ⟨_, _, rfl, ⟨t, rfl, ht⟩, _, us, rfl, ⟨colon, rfl, hkind, -⟩, hus⟩
  exact ⟨t, colon, us, key, rfl, rfl, ht, hkind, hus⟩

end Data

/-! ## What is rendered -/

namespace Store

variable {s : Store}

namespace Holds

variable {v : Value} {d : Data} {path : List Value}

/-- What is rendered for a value spells its data. -/
theorem written_render (h : s.Holds v d) (hkeys : d.BareKeys) (hunicode : d.Unicode) {budget : Nat}
    (hpath : s.IsPath path) (hbudget : s.containers < path.length + budget)
    (habove : s.Above path d) : Written d.Spelled (s.render budget path v) := by
  induction d using Data.induct generalizing v budget path with
  | int n =>
    cases h
    rw [render]
    exact Data.written_int n
  | double x => cases h
  | text t =>
    obtain _ | _ | ⟨t, rfl⟩ := hunicode
    cases h
    rw [render, Text.mended_ofString]
    exact Data.written_text t
  | list items ih =>
    have hnew := h.notMem_of_above habove
    have hcons (item : Data) (hitem : item ∈ items) : s.Above (v :: path) item :=
      h.above_cons habove (Data.sizeOf_lt_of_mem_list hitem)
    obtain ⟨budget, rfl⟩ := hpath.exists_succ hbudget
    obtain _ | _ | _ | hitemKeys | _ := hkeys
    obtain _ | _ | _ | hunicode | _ := hunicode
    cases h with
    | @array id elems _ hcell hitems =>
      have helems : (s.elements id).toList = elems.toList := by rw [elements_eq hcell]
      by_cases hnil : elems.toList = []
      · rw [render_array_empty _ (helems.trans hnil)]
        rw [hnil] at hitems
        cases hitems
        exact Data.written_list .nil
      · rw [render_array _ (helems ▸ hnil) hnew, helems]
        refine Data.written_list (List.forall₂_map_left_iff.mpr ?_)
        refine forall₂_imp_of_mem hitems fun item hitem w hw => ?_
        have hpath' := hpath.cons (array_mem_of_cell hcell) hnew
        refine (ih item hitem hw (hitemKeys item hitem) (hunicode item hitem) hpath' ?_
          (hcons item hitem)).indent
        rw [List.length_cons]
        omega
  | map members ih =>
    have hnew := h.notMem_of_above habove
    have hcons (item : Data) (hitem : item ∈ members.map Prod.snd) : s.Above (v :: path) item :=
      h.above_cons habove (Data.sizeOf_lt_of_mem_map hitem)
    obtain ⟨budget, rfl⟩ := hpath.exists_succ hbudget
    obtain _ | _ | _ | _ | ⟨hbare, hitemKeys⟩ := hkeys
    obtain _ | _ | _ | _ | ⟨-, hunicode⟩ := hunicode
    cases h with
    | object hcell hwell hkeys hitems =>
      rw [render_object _ hnew, members_eq hcell]
      refine Data.written_map (List.forall₂_map_left_iff.mpr ?_)
      refine forall₂_imp_of_mem (forall₂_entries hwell hkeys hitems) ?_
      rintro ⟨key, item⟩ hmember ⟨_, w⟩ ⟨rfl, hw⟩
      have hitem : item ∈ members.map Prod.snd := List.mem_map_of_mem hmember
      have hpath' := hpath.cons (object_mem_of_cell hcell) hnew
      refine Data.written_entry (hbare _ (List.mem_map_of_mem hmember)) ?_
      refine ih item hitem hw (hitemKeys item hitem) (hunicode item hitem) hpath' ?_
        (hcons item hitem)
      rw [List.length_cons]
      omega

/-- The text of a value is read as an expression that denotes its data. -/
theorem ofSource_repr (h : s.Holds v d) (hkeys : d.BareKeys) (hunicode : d.Unicode) :
    ∃ (source : String) (e : Expr), s.repr v = source ∧ e.Denotes d ∧
      Program.ofSource source = .ok ⟨some e⟩ := by
  have hrepr : s.repr v = s.encoded v := by cases h <;> rfl
  have hwritten : Written d.Spelled (s.encoded v) :=
    h.written_render hkeys hunicode .nil (by rw [List.length_nil]; omega) (List.forall_mem_nil _)
  obtain ⟨cs, htext, hlaid⟩ := hwritten
  have hcuts := hlaid 0 [] Clear.nil
  rw [shifted_zero, ← String.toList_ofList (l := cs)] at hcuts
  obtain ⟨e, he, hsource⟩ := Data.ofSource_of_spelled hcuts
  exact ⟨String.ofList cs, e, hrepr.trans htext, he, hsource⟩

end Holds

end Store

namespace Engine

theorem eval_of_ofSource (engine : Engine) {source : String} {program : Program}
    (h : Program.ofSource source = .ok program) (fuel scope : Nat) (m : Machine) :
    engine.eval fuel source scope m =
      engine.evaluate fuel (program.numbered m.nodes).1 scope
        (engine.compiled source program m) := by
  show EvalM.andThen (engine.compile source) _ m = _
  rw [EvalM.andThen, compile_of_ok engine h]

/-- A text that is read as an expression denoting data evaluates to a value that holds them, as long
    as the values that the machine remembers are those that its nodes build. -/
theorem eval_of_denotes (engine : Engine) {source : String} {e : Expr} {d : Data}
    (he : e.Denotes d) (hkeys : d.AllKeys List.Nodup)
    (hsource : Program.ofSource source = .ok ⟨some e⟩) (scope : Nat) {m : Machine}
    (hm : Literal.AllBuilt m.nodes m.literals) :
    ∃ enough v m', (∀ fuel, enough ≤ fuel → engine.eval fuel source scope m = .done v m') ∧
      m'.store.Holds v d := by
  have he' : (e.numbered m.nodes).1.Denotes d := he.of_unplaced (e.unplaced_numbered m.nodes)
  have hbuilds := he'.builds hkeys (e.standsIn_numbered m.nodes) engine scope
  have hliterals := hm.extend (e.numbered_eq m.nodes).extends
  obtain ⟨v, m', hdone, hv, -⟩ :=
    hbuilds (engine.compiled source ⟨some e⟩ m) rfl trivial hliterals
  refine ⟨sizeOf (e.numbered m.nodes).1, v, engine.dumpScope scope m', fun fuel hfuel => ?_, ?_⟩
  · have hvisit : Eval.visit engine fuel scope (e.numbered m.nodes).1
        (engine.compiled source ⟨some e⟩ m) = .done v m' := hdone fuel hfuel
    rw [eval_of_ofSource engine hsource, Program.numbered, evaluate_some, hvisit]
    rfl
  · rw [dumpScope_store]
    exact hv

/-- The text of a value is a text of characters which, evaluated in any scope, gives a value that
    holds the same data: numbers and texts of characters, nested in arrays and objects to any depth,
    whose keys are names or runs of digits. The scope and the machine need not be those that the
    value comes from, as long as the values that the machine remembers are those that its nodes
    build. -/
theorem eval_repr (engine : Engine) {s : Store} {v : Value} {d : Data} (hv : s.Holds v d)
    (hkeys : d.BareKeys) (hunicode : d.Unicode) (scope : Nat) {m : Machine}
    (hm : Literal.AllBuilt m.nodes m.literals) :
    ∃ source : String, s.repr v = source ∧ ∃ enough v' m', (∀ fuel, enough ≤ fuel →
      engine.eval fuel source scope m = .done v' m') ∧ m'.store.Holds v' d := by
  obtain ⟨source, e, hrepr, he, hsource⟩ := hv.ofSource_repr hkeys hunicode
  exact ⟨source, hrepr, eval_of_denotes engine he hv.allKeys_nodup hsource scope hm⟩

end Engine

/-- An array of the least number, a text that needs escapes, and an object that stands in it twice
    and has an empty array. -/
def sharedRecord : Store :=
  { arrays := #[#[.int Int64.minValue, .text "a\"\n\\", .object 0, .object 0], #[]]
    objects := #[.ofList [("x_1", .int 7), ("007", .array 1)]] }

/-- What the array of `sharedRecord` holds. -/
def sharedRecordData : Data :=
  .list [.int Int64.minValue, .text "a\"\n\\", .map [("x_1", .int 7), ("007", .list [])],
    .map [("x_1", .int 7), ("007", .list [])]]

theorem holds_sharedRecord : sharedRecord.Holds (.array 0) sharedRecordData := by
  have hrecord : sharedRecord.Holds (.object 0) (.map [("x_1", .int 7), ("007", .list [])]) :=
    .object rfl (.ofList _) rfl (.cons (.int 7) (.cons (.array rfl .nil) .nil))
  exact .array rfl (.cons (.int _) (.cons (.text _) (.cons hrecord (.cons hrecord .nil))))

theorem bareKeys_sharedRecordData : sharedRecordData.BareKeys := by
  have hrecord : (Data.map [("x_1", .int 7), ("007", .list [])]).BareKeys := by
    have hnone : (Data.list []).BareKeys := .list (List.forall_mem_nil _)
    refine .map (by decide) ?_
    exact List.forall_mem_cons.mpr ⟨.int 7, List.forall_mem_singleton.mpr hnone⟩
  refine .list ?_
  simp only [List.forall_mem_cons]
  exact ⟨.int _, .text _, hrecord, hrecord, List.forall_mem_nil _⟩

theorem unicode_sharedRecordData : sharedRecordData.Unicode := by
  have hrecord : (Data.map [("x_1", .int 7), ("007", .list [])]).Unicode := by
    refine .map ?_ ?_
    · rw [List.map_cons, List.map_cons, List.map_nil, List.forall_mem_cons,
        List.forall_mem_singleton]
      exact ⟨⟨"x_1", rfl⟩, ⟨"007", rfl⟩⟩
    · rw [List.map_cons, List.map_cons, List.map_nil, List.forall_mem_cons,
        List.forall_mem_singleton]
      exact ⟨.int 7, .list (List.forall_mem_nil _)⟩
  refine .list ?_
  simp only [List.forall_mem_cons]
  exact ⟨.int _, .text ⟨_, rfl⟩, hrecord, hrecord, List.forall_mem_nil _⟩

theorem eval_repr_sharedRecord :
    sharedRecord.Holds (.array 0) sharedRecordData ∧ ∃ source : String,
      sharedRecord.repr (.array 0) = source ∧ ∃ enough v m,
        (∀ fuel, enough ≤ fuel → Engine.eval {} fuel source 0 {} = .done v m) ∧
        m.store.Holds v sharedRecordData :=
  ⟨holds_sharedRecord, Engine.eval_repr {} holds_sharedRecord bareKeys_sharedRecordData
    unicode_sharedRecordData 0 Literal.AllBuilt.nil⟩

end ExprLang
