import ExprLang.Proofs.Cutting
import ExprLang.Proofs.Texts
import ExprLang.Store.Render

/-!
# Texts laid out over several lines

A text of several lines is moved to the right when it becomes a part of another one. This happens
only at the beginnings of lines, where blanks do not count: a text is still cut into the same tokens
(`Token.Written`), and a text laid out from others is cut into theirs, with marks in between.
-/

namespace ExprLang.Token

/-- Characters whose lines, all but the first, are moved to the right by `k` steps. -/
def shifted (k : Nat) (cs : List Char) : List Char :=
  cs.flatMap fun c => if c = '\n' then '\n' :: List.replicate (2 * k) ' ' else [c]

theorem shifted_append (k : Nat) (cs cs' : List Char) :
    shifted k (cs ++ cs') = shifted k cs ++ shifted k cs' :=
  List.flatMap_append

theorem shifted_zero (cs : List Char) : shifted 0 cs = cs := by
  have hsame (c : Char) : (if c = '\n' then '\n' :: List.replicate (2 * 0) ' ' else [c]) = [c] := by
    by_cases hc : c = '\n'
    · rw [if_pos hc, hc]
      rfl
    · rw [if_neg hc]
  simp only [shifted, hsame]
  exact List.flatMap_singleton' cs

theorem shifted_of_notMem {cs : List Char} (h : '\n' ∉ cs) (k : Nat) : shifted k cs = cs := by
  induction cs with
  | nil => rfl
  | cons c cs ih =>
    obtain ⟨hc, hcs⟩ := List.ne_and_not_mem_of_not_mem_cons h
    have hrest := ih hcs
    simp only [shifted] at hrest
    rw [shifted, List.flatMap_cons, if_neg hc.symm, hrest, List.singleton_append]

/-- Characters that are moved twice. -/
theorem shifted_shifted (k : Nat) (cs : List Char) :
    shifted k (shifted 1 cs) = shifted (k + 1) cs := by
  unfold shifted
  rw [List.flatMap_assoc]
  congr 1
  funext c
  by_cases hc : c = '\n'
  · have hreplicate : List.replicate (2 * (k + 1)) ' ' = List.replicate (2 * k) ' ' ++ [' ', ' '] :=
      List.replicate_append_replicate.symm
    simp [hc, hreplicate]
  · simp [hc]

theorem lineEnd_notMem_utf8EncodeChar {c : Char} (hc : c ≠ '\n') :
    Store.lineEnd ∉ String.utf8EncodeChar c := by
  have hval : c.val.toNat ≠ 10 := fun h => hc (Char.ext (UInt32.toNat_inj.mp h))
  have hbyte : Store.lineEnd.toNat = 10 := rfl
  rw [String.utf8EncodeChar]
  split_ifs <;>
    simp only [List.mem_cons, List.not_mem_nil, or_false, ← UInt8.toNat_inj, UInt8.toNat_ofNat',
      hbyte] <;>
    omega

/-- To indent the text of characters is to move them to the right. -/
theorem indent_ofChars (cs : List Char) :
    Store.indent (.ofChars cs) = .ofChars (shifted 1 cs) := by
  apply Text.ext_bytes
  rw [Store.indent, Text.bytes_ofChars, Text.bytes_ofChars, shifted, List.flatMap_assoc,
    List.flatMap_assoc]
  refine List.flatMap_congr fun c _ => ?_
  by_cases hc : c = '\n'
  · rw [hc]
    decide +kernel
  · have hsame : ∀ b ∈ String.utf8EncodeChar c,
        (if b = Store.lineEnd then b :: "  ".toUTF8.data.toList else [b]) = [b] := by
      intro b hb
      rw [if_neg]
      rintro rfl
      exact lineEnd_notMem_utf8EncodeChar hc hb
    rw [if_neg hc, List.flatMap_congr hsame, List.flatMap_singleton', List.flatMap_singleton]

theorem isBlank_of_mem_shifted {cs : List Char} (hcs : ∀ c ∈ cs, isBlank c = true) (k : Nat) :
    ∀ c ∈ shifted k cs, isBlank c = true := by
  intro d hd
  obtain ⟨c, hc, hd⟩ := List.mem_flatMap.mp hd
  by_cases hline : c = '\n'
  · rw [if_pos hline] at hd
    rcases List.mem_cons.mp hd with rfl | hspace
    · rfl
    · rw [List.eq_of_mem_replicate hspace]
      rfl
  · rw [if_neg hline] at hd
    rw [List.mem_singleton.mp hd]
    exact hcs c hc

/-- Blanks are a gap, however their lines are moved. -/
theorem cutsTo_gap (cs : List Char) (hcs : cs.all isBlank = true) (k : Nat) (rest : List Char) :
    CutsTo (· = []) (shifted k cs) rest :=
  .blanks (isBlank_of_mem_shifted (List.all_eq_true.mp hcs) k)

/-- However far they are moved to the right, characters are cut into good tokens. -/
def LaidOut (good : List Token → Prop) (cs : List Char) : Prop :=
  ∀ k rest, Clear rest → CutsTo good (shifted k cs) rest

/-- A text of characters that are cut into good tokens, however far they are moved to the right. -/
def Written (good : List Token → Prop) (text : Text) : Prop :=
  ∃ cs, text = .ofChars cs ∧ LaidOut good cs

namespace Written

variable {good good' : List Token → Prop} {text : Text}

theorem imp (h : Written good text) (himp : ∀ ts, good ts → good' ts) : Written good' text := by
  obtain ⟨cs, rfl, hcs⟩ := h
  exact ⟨cs, rfl, fun k rest hrest => (hcs k rest hrest).imp himp⟩

theorem indent (h : Written good text) : Written good (Store.indent text) := by
  obtain ⟨cs, rfl, hcs⟩ := h
  refine ⟨shifted 1 cs, indent_ofChars cs, fun k rest hrest => ?_⟩
  rw [shifted_shifted]
  exact hcs (k + 1) rest hrest

/-- A text on a single line. -/
theorem of_line {s : String} (hline : '\n' ∉ s.toList)
    (h : ∀ rest, Clear rest → CutsTo good s.toList rest) : Written good s := by
  refine ⟨s.toList, (Text.ofChars_toList s).symm, fun k rest hrest => ?_⟩
  rw [shifted_of_notMem hline]
  exact h rest hrest

/-- The characters of several texts. -/
theorem exists_laid {α : Type} {one : α → List Token → Prop} {texts : List Text} {as : List α}
    (h : List.Forall₂ (fun text a => Written (one a) text) texts as) :
    ∃ css, texts = css.map Text.ofChars ∧ List.Forall₂ (fun cs a => LaidOut (one a) cs) css as := by
  induction h with
  | nil => exact ⟨[], rfl, .nil⟩
  | cons htext _ ih =>
    obtain ⟨cs, rfl, hcs⟩ := htext
    obtain ⟨css, rfl, hcss⟩ := ih
    exact ⟨cs :: css, rfl, .cons hcs hcss⟩

end Written

/-! ## Lists -/

/-- How tokens that stand for one thing make up tokens that stand for several, with commas in
    between. -/
structure Listed {α : Type} (one : α → List Token → Prop) (all : List α → List Token → Prop) :
    Prop where
  none : all [] []
  last : ∀ {a ts}, one a ts → all [a] ts
  cons : ∀ {a as ts us} {comma : Token}, one a ts → comma.kind = .comma → as ≠ [] → all as us →
    all (a :: as) (ts ++ comma :: us)

/-- A token of one kind, good ones, and a token of another kind. -/
def Between (opening closing : Kind) (good : List Token → Prop) (ts : List Token) : Prop :=
  ∃ t us u, ts = t :: (us ++ [u]) ∧ t.kind = opening ∧ good us ∧ u.kind = closing

/-- The characters of texts between marks, one text a line. -/
def enclosed (opening closing : Kind) (css : List (List Char)) : List Char :=
  if css.isEmpty then opening.spelling.toList ++ closing.spelling.toList
  else opening.spelling.toList ++ (['\n', ' ', ' '] ++
    ([',', '\n', ' ', ' '].intercalate css ++ (['\n'] ++ closing.spelling.toList)))

/-- Texts between brackets or braces, one a line. -/
theorem enclosed_ofChars {opening closing : Kind} {empty first last : String}
    (hempty : empty.toList = opening.spelling.toList ++ closing.spelling.toList)
    (hfirst : first.toList = opening.spelling.toList ++ ['\n', ' ', ' '])
    (hlast : last.toList = '\n' :: closing.spelling.toList) (css : List (List Char)) :
    (if (css.map Text.ofChars).isEmpty then (empty : Text)
      else first ++ Text.join ",\n  " (css.map Text.ofChars) ++ last) =
        .ofChars (enclosed opening closing css) := by
  rw [List.isEmpty_map]
  unfold enclosed
  split
  · rw [← hempty, Text.ofChars_toList]
  · have hjoin := Text.join_ofChars [',', '\n', ' ', ' '] css
    rw [← List.append_assoc, ← hfirst, Text.ofChars_append, Text.ofChars_append, ← hjoin,
      List.singleton_append, ← hlast, Text.ofChars_toList, Text.ofChars_toList, Text.append_assoc]
    rfl

theorem bracketed_ofChars (css : List (List Char)) :
    Store.bracketed (css.map Text.ofChars) =
      .ofChars (enclosed .leftBracket .rightBracket css) :=
  enclosed_ofChars (by decide) (by decide) (by decide) css

theorem braced_ofChars (css : List (List Char)) :
    Store.braced (css.map Text.ofChars) = .ofChars (enclosed .leftBrace .rightBrace css) :=
  enclosed_ofChars (by decide) (by decide) (by decide) css

theorem shifted_mark {kind : Kind} (h : kind.isMark = true) (k : Nat) :
    shifted k kind.spelling.toList = kind.spelling.toList := by
  cases kind with
  | leftBracket | rightBracket | leftBrace | rightBrace | comma | colon => rfl
  | _ => cases h

section Listed

variable {α : Type} {one : α → List Token → Prop} {all : List α → List Token → Prop}
  (hlisted : Listed one all)
include hlisted

/-- One text a line, with commas in between. -/
theorem Listed.laid_intercalate {css : List (List Char)} {as : List α}
    (h : List.Forall₂ (fun cs a => LaidOut (one a) cs) css as) (hne : as ≠ []) :
    LaidOut (all as) ([',', '\n', ' ', ' '].intercalate css) := by
  induction h with
  | nil => exact absurd rfl hne
  | @cons cs a css as hcs hcss ih =>
    cases hcss with
    | nil =>
      rw [List.intercalate_singleton]
      exact fun k rest hrest => (hcs k rest hrest).imp fun _ => hlisted.last
    | @cons cs' a' css as hcs' hcss =>
      intro k rest hrest
      have hseparator : shifted k [',', '\n', ' ', ' '] = [','] ++ shifted k ['\n', ' ', ' '] := rfl
      rw [List.intercalate_cons_cons, shifted_append, shifted_append, hseparator, List.append_assoc,
        List.append_assoc]
      have htail := ih (List.cons_ne_nil _ _) k rest hrest
      have hgap := cutsTo_gap ['\n', ' ', ' '] rfl k
      have hcomma := cutsTo_mark .comma rfl
      have hclear (cs : List Char) : Clear (',' :: cs) := .of_cons cs (.inr (.inr rfl))
      refine ((hcs k _ (hclear _)).append ((hcomma _).append ((hgap _).skip htail))).imp ?_
      rintro _ ⟨ts, _, rfl, hts, _, us, rfl, ⟨comma, rfl, hkind, -⟩, hus⟩
      exact hlisted.cons hts hkind (List.cons_ne_nil _ _) hus

/-- Texts between marks. -/
theorem Listed.laid_enclosed {opening closing : Kind} (hopening : opening.isMark = true)
    (hclosing : closing.isMark = true) {css : List (List Char)} {as : List α}
    (h : List.Forall₂ (fun cs a => LaidOut (one a) cs) css as) :
    LaidOut (Between opening closing (all as)) (enclosed opening closing css) := by
  intro k rest hrest
  have hfirst := cutsTo_mark opening hopening
  have hlast := cutsTo_mark closing hclosing rest
  cases h with
  | nil =>
    rw [enclosed, List.isEmpty_nil, if_pos rfl, shifted_append, shifted_mark hopening,
      shifted_mark hclosing]
    refine ((hfirst _).append hlast).imp ?_
    rintro _ ⟨_, _, rfl, ⟨t, rfl, ht, -⟩, ⟨u, rfl, hu, -⟩⟩
    exact ⟨t, [], u, rfl, ht, hlisted.none, hu⟩
  | cons hone hothers =>
    rw [enclosed, List.isEmpty_cons, if_neg Bool.false_ne_true]
    simp only [shifted_append, shifted_mark hopening, shifted_mark hclosing]
    have hgap := cutsTo_gap ['\n', ' ', ' '] rfl k
    have hend := (cutsTo_gap ['\n'] rfl k _).skip hlast
    have hclear (cs : List Char) : Clear ('\n' :: cs) := .of_cons cs (.inr (.inl rfl))
    have hinner := hlisted.laid_intercalate (.cons hone hothers) (List.cons_ne_nil _ _)
    refine ((hfirst _).append ((hgap _).skip ((hinner k _ (hclear _)).append hend))).imp ?_
    rintro _ ⟨_, _, rfl, ⟨t, rfl, ht, -⟩, us, _, rfl, hus, ⟨u, rfl, hu, -⟩⟩
    exact ⟨t, us, u, rfl, ht, hus, hu⟩

theorem Listed.written_bracketed {texts : List Text} {as : List α}
    (h : List.Forall₂ (fun text a => Written (one a) text) texts as) :
    Written (Between .leftBracket .rightBracket (all as)) (Store.bracketed texts) := by
  obtain ⟨css, rfl, hcss⟩ := Written.exists_laid h
  exact ⟨_, bracketed_ofChars css, hlisted.laid_enclosed rfl rfl hcss⟩

theorem Listed.written_braced {texts : List Text} {as : List α}
    (h : List.Forall₂ (fun text a => Written (one a) text) texts as) :
    Written (Between .leftBrace .rightBrace (all as)) (Store.braced texts) := by
  obtain ⟨css, rfl, hcss⟩ := Written.exists_laid h
  exact ⟨_, braced_ofChars css, hlisted.laid_enclosed rfl rfl hcss⟩

end Listed

end ExprLang.Token
