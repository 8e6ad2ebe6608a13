import ExprLang.Eval.Literal
import ExprLang.Proofs.Numbers.Digits

/-!
# The grammar of escapes

The body of a text literal is a sequence of pieces: characters that stand for themselves, escapes,
and line continuations (`Text.Piece`). Decoding accepts exactly such sequences, with the text that
they stand for, and refuses all others at the first backslash that begins no piece
(`Text.decode_iff_reads`).
-/

namespace ExprLang.Text

open Number

/-! ## Pieces of a body -/

/-- The letters that open an escape of a code, and the numbers of digits they take. -/
def codeMarks : List (Char × Nat) := [('x', 2), ('u', 4), ('U', 8)]

/-- The escapes of two characters, without their backslash, and what they stand for. -/
def shortEscapes : List (Char × Char) :=
  [('\\', '\\'), ('"', '"'), ('t', '\t'), ('r', '\r'), ('n', '\n')]

/-- The line ends that a backslash takes away. -/
def lineEnds : List (List Char) := [['\r', '\n'], ['\r'], ['\n']]

/-- What a code stands for: the character that has it, or the replacement character for half of a
    surrogate pair. -/
def Shows (code : Nat) (c : Char) : Prop :=
  if 0xD800 ≤ code ∧ code ≤ 0xDFFF then c = '�' else c.toNat = code

/-- A piece of the body of a literal, and the characters it stands for. -/
inductive Piece : List Char → List Char → Prop
  | plain {c : Char} (h : c ≠ '\\') : Piece [c] [c]
  | short {e c : Char} (h : (e, c) ∈ shortEscapes) : Piece ['\\', e] [c]
  | code {mark c : Char} {digits : List Char} (hmark : (mark, digits.length) ∈ codeMarks)
    (hdigits : ∀ d ∈ digits, d ∈ hexDigits) (hmax : positional 16 digits ≤ 0x10FFFF)
    (hc : Shows (positional 16 digits) c) : Piece ('\\' :: mark :: digits) [c]
  | continuation {line : List Char} (h : line ∈ lineEnds) : Piece ('\\' :: line) []

/-- A sequence of pieces, and the characters they stand for one after the other. A line end of two
    characters is not taken for one of the first of them alone. -/
inductive Reads : List Char → List Char → Prop
  | nil : Reads [] []
  | cons {piece meant rest out : List Char} (hpiece : Piece piece meant)
    (hwhole : piece = ['\\', '\r'] → rest.head? ≠ some '\n') (hrest : Reads rest out) :
    Reads (piece ++ rest) (meant ++ out)

/-- What stands in a literal: all of it, without a pair of quotes around it if there is one. -/
def Inside (lexeme body : List Char) : Prop :=
  lexeme = '"' :: (body ++ ['"']) ∨ (∀ inner, lexeme ≠ '"' :: (inner ++ ['"'])) ∧ body = lexeme

/-- The number of bytes of some characters. -/
def byteLength (cs : List Char) : Nat := (String.ofList cs).utf8ByteSize

/-- Pieces lead up to a backslash that begins no piece, behind so many bytes. -/
def Refused (body : List Char) (offset : Nat) : Prop :=
  ∃ before after, body = before ++ '\\' :: after ∧ (∃ out, Reads before out) ∧
    (∀ piece meant, Piece piece meant → ¬ piece <+: '\\' :: after) ∧ offset = byteLength before

theorem inside_unquote (cs : List Char) : Inside cs (unquote cs) := by
  unfold unquote
  split
  · next cs =>
    split
    · next hlast =>
      obtain ⟨inner, rfl⟩ := List.getLast?_eq_some_iff.mp hlast
      exact .inl (by rw [List.dropLast_concat])
    · next hlast =>
      refine .inr ⟨fun inner heq => ?_, rfl⟩
      rw [(List.cons.inj heq).2, List.getLast?_concat] at hlast
      exact hlast rfl
  · next hquote => exact .inr ⟨fun inner => hquote (inner ++ ['"']), rfl⟩

section Bytes

variable {cs ds : List Char}

theorem byteLength_append : byteLength (cs ++ ds) = byteLength cs + byteLength ds := by
  rw [byteLength, String.ofList_append, String.utf8ByteSize_append]
  rfl

theorem byteLength_singleton (c : Char) : byteLength [c] = c.utf8Size := by
  rw [byteLength, ← String.singleton_eq_ofList, String.utf8ByteSize_singleton]

theorem byteLength_eq_length (h : ∀ c ∈ cs, c.toNat < 128) : byteLength cs = cs.length := by
  induction cs with
  | nil => rfl
  | cons c cs ih =>
    obtain ⟨hc, hcs⟩ := List.forall_mem_cons.mp h
    have hone : c.utf8Size = 1 :=
      Char.utf8Size_eq_one_iff.mpr (UInt32.le_iff_toNat_le.mpr (Nat.le_of_lt_succ hc))
    rw [← List.singleton_append, byteLength_append, byteLength_singleton, hone, ih hcs,
      List.length_append, List.length_singleton]

end Bytes

/-! ## One escape -/

/-- Escapes and continuations are written in ASCII. -/
theorem Piece.ascii {e meant : List Char} (h : Piece ('\\' :: e) meant) :
    ∀ c ∈ '\\' :: e, c.toNat < 128 := by
  refine List.forall_mem_cons.mpr ⟨by decide, ?_⟩
  cases h with
  | plain h => exact absurd rfl h
  | @short e c h =>
    have hall : ∀ p ∈ shortEscapes, p.1.toNat < 128 := by decide
    exact List.forall_mem_singleton.mpr (hall _ h)
  | @code mark c digits hmark hdigits hmax hc =>
    have hmarks : ∀ p ∈ codeMarks, p.1.toNat < 128 := by decide
    have hhex : hexDigits.all (fun d => d.toNat < 128) = true := rfl
    refine List.forall_mem_cons.mpr ⟨hmarks _ hmark, fun d hd => ?_⟩
    exact of_decide_eq_true (List.all_eq_true.mp hhex d (hdigits d hd))
  | continuation h =>
    have hlines : lineEnds.all (fun line => line.all fun c => c.toNat < 128) = true := rfl
    have hline := List.all_eq_true.mp (List.all_eq_true.mp hlines _ h)
    exact fun c hc => of_decide_eq_true (hline c hc)

theorem charOfCode_eq_iff {n : Nat} (hn : n ≤ maxCode) {c : Char} :
    charOfCode n = c ↔ Shows n c := by
  rw [charOfCode, Shows]
  split
  · exact eq_comm
  · next h =>
    have hvalid : n.isValidChar := by
      simp only [Nat.isValidChar, maxCode] at *
      omega
    have hchar : Char.ofNat n = Char.ofNatAux n hvalid := dif_pos hvalid
    constructor
    · rintro rfl
      rw [hchar]
      rfl
    · rintro rfl
      exact Char.ofNat_toNat c

/-- A code is read from as many digits as its mark asks for. -/
theorem codeEscape?_eq_some_iff {width : Nat} {cs : List Char} {c : Char} :
    codeEscape? width cs = some c ↔ ∃ digits rest, cs = digits ++ rest ∧ digits.length = width ∧
      (∀ d ∈ digits, d ∈ hexDigits) ∧ positional 16 digits ≤ maxCode ∧
      Shows (positional 16 digits) c := by
  constructor
  · intro h
    rw [codeEscape?] at h
    split at h
    · cases h
    · next hlength =>
      split at h
      · next n hvalue =>
        obtain ⟨hdigits, rfl⟩ := (hexadecimal_value _).mp hvalue
        split at h
        · next hmax =>
          refine ⟨cs.take width, cs.drop width, (List.take_append_drop width cs).symm, ?_, hdigits,
            hmax, (charOfCode_eq_iff hmax).mp (Option.some.inj h)⟩
          rw [List.length_take]
          omega
        · cases h
      · cases h
  · rintro ⟨digits, rest, rfl, rfl, hdigits, hmax, hc⟩
    have hvalue := (hexadecimal_value digits).mpr ⟨hdigits, rfl⟩
    rw [codeEscape?, if_neg (by simp), List.take_left, hvalue]
    simp only [if_pos hmax, (charOfCode_eq_iff hmax).mpr hc]

/-- The characters behind a backslash begin with so many that make a piece with it. A line end of
    two characters is taken whole. -/
def Begins (cs meant : List Char) (taken : Nat) : Prop :=
  ∃ e rest, cs = e ++ rest ∧ e.length = taken ∧ Piece ('\\' :: e) meant ∧
    ('\\' :: e = ['\\', '\r'] → rest.head? ≠ some '\n')

section Begins

variable {meant rest : List Char} {taken : Nat}

theorem begins_short {e c : Char} (hpair : (e, c) ∈ shortEscapes)
    (h : some ([c], 1) = some (meant, taken)) : Begins (e :: rest) meant taken := by
  cases h
  refine ⟨[e], rest, rfl, rfl, .short hpair, ?_⟩
  intro hline
  cases hline
  simp [shortEscapes] at hpair

theorem begins_code {mark : Char} {width : Nat} (hmark : (mark, width) ∈ codeMarks)
    (h : (codeEscape? width rest).map (fun c => ([c], width + 1)) = some (meant, taken)) :
    Begins (mark :: rest) meant taken := by
  obtain ⟨c, hc, heq⟩ := Option.map_eq_some_iff.mp h
  obtain ⟨digits, rest, rfl, rfl, hdigits, hmax, hshows⟩ := codeEscape?_eq_some_iff.mp hc
  cases heq
  refine ⟨mark :: digits, rest, rfl, rfl, .code hmark hdigits hmax hshows, ?_⟩
  intro hline
  cases hline
  exact absurd hmark (by decide)

end Begins

/-- What is read as an escape is a piece. -/
theorem begins_of_escape? {cs meant : List Char} {taken : Nat}
    (h : escape? cs = some (meant, taken)) : Begins cs meant taken := by
  unfold escape? at h
  split at h
  · next rest =>
    cases h
    exact ⟨['\r', '\n'], rest, rfl, rfl, .continuation (by decide), fun heq => by cases heq⟩
  · next rest hline =>
    cases h
    refine ⟨['\r'], rest, rfl, rfl, .continuation (by decide), fun _ hhead => ?_⟩
    obtain ⟨tail, rfl⟩ := List.head?_eq_some_iff.mp hhead
    exact hline tail rfl
  · next rest =>
    cases h
    exact ⟨['\n'], rest, rfl, rfl, .continuation (by decide), fun heq => by cases heq⟩
  · exact begins_short (by decide) h
  · exact begins_short (by decide) h
  · exact begins_short (by decide) h
  · exact begins_short (by decide) h
  · exact begins_short (by decide) h
  · exact begins_code (by decide) h
  · exact begins_code (by decide) h
  · exact begins_code (by decide) h
  · cases h

/-- Every piece that begins with a backslash is read. -/
theorem escape?_of_piece {e meant rest : List Char} (h : Piece ('\\' :: e) meant)
    (hwhole : '\\' :: e = ['\\', '\r'] → rest.head? ≠ some '\n') :
    escape? (e ++ rest) = some (meant, e.length) := by
  cases h with
  | plain h => exact absurd rfl h
  | @short e c h =>
    simp only [shortEscapes, List.mem_cons, Prod.mk.injEq, List.not_mem_nil, or_false] at h
    rcases h with ⟨rfl, rfl⟩ | ⟨rfl, rfl⟩ | ⟨rfl, rfl⟩ | ⟨rfl, rfl⟩ | ⟨rfl, rfl⟩ <;> rfl
  | @code mark c digits hmark hdigits hmax hc =>
    have hcode (width : Nat) (hwidth : digits.length = width) :
        codeEscape? width (digits ++ rest) = some c :=
      codeEscape?_eq_some_iff.mpr ⟨digits, rest, rfl, hwidth, hdigits, hmax, hc⟩
    simp only [codeMarks, List.mem_cons, Prod.mk.injEq, List.not_mem_nil, or_false] at hmark
    rcases hmark with ⟨rfl, hwidth⟩ | ⟨rfl, hwidth⟩ | ⟨rfl, hwidth⟩
    all_goals
      rw [List.length_cons, hwidth, List.cons_append, escape?, hcode _ hwidth]
      rfl
  | continuation h =>
    simp only [lineEnds, List.mem_cons, List.not_mem_nil, or_false] at h
    rcases h with rfl | rfl | rfl
    · rfl
    · -- a carriage return alone
      have hne : rest.head? ≠ some '\n' := hwhole rfl
      cases rest with
      | nil => rfl
      | cons c rest =>
        have hc : c ≠ '\n' := fun hc => hne (by rw [hc]; rfl)
        simp [escape?, hc]
    · rfl

theorem escape?_eq_none_iff {after : List Char} : escape? after = none ↔
    ∀ piece meant, Piece piece meant → ¬ piece <+: '\\' :: after := by
  constructor
  · rintro hnone piece meant hpiece ⟨rest, hprefix⟩
    obtain ⟨c, e, rfl⟩ : ∃ c e, piece = c :: e := by
      cases hpiece with
      | plain | short | code | continuation => exact ⟨_, _, rfl⟩
    rw [List.cons_append] at hprefix
    obtain ⟨rfl, rfl⟩ := List.cons.inj hprefix
    by_cases hline : '\\' :: e = ['\\', '\r'] ∧ rest.head? = some '\n'
    · -- the line end goes on, and both characters are read
      obtain ⟨heq, hhead⟩ := hline
      cases heq
      obtain ⟨tail, rfl⟩ := List.head?_eq_some_iff.mp hhead
      cases hnone
    · rw [escape?_of_piece hpiece fun heq hhead => hline ⟨heq, hhead⟩] at hnone
      cases hnone
  · intro hall
    cases h : escape? after with
    | none => rfl
    | some found =>
      obtain ⟨e, rest, rfl, -, hpiece, -⟩ := begins_of_escape? h
      exact absurd ⟨rest, rfl⟩ (hall _ _ hpiece)

/-! ## Whole bodies -/

theorem decodeBody_piece {piece meant rest : List Char} (h : Piece piece meant)
    (hwhole : piece = ['\\', '\r'] → rest.head? ≠ some '\n') (offset : Nat) :
    decodeBody offset (piece ++ rest) =
      (decodeBody (offset + byteLength piece) rest).map (meant ++ ·) := by
  have hescape {e : List Char} (h : Piece ('\\' :: e) meant)
      (hwhole : '\\' :: e = ['\\', '\r'] → rest.head? ≠ some '\n') :
      decodeBody offset ('\\' :: e ++ rest) =
        (decodeBody (offset + byteLength ('\\' :: e)) rest).map (meant ++ ·) := by
    rw [byteLength_eq_length h.ascii, List.length_cons, List.cons_append, decodeBody, if_pos rfl,
      escape?_of_piece h hwhole]
    simp only [List.drop_left, Nat.add_assoc, Nat.add_comm 1]
    cases decodeBody (offset + (e.length + 1)) rest <;> rfl
  cases h with
  | @plain c h =>
    rw [List.singleton_append, decodeBody, if_neg h, byteLength_singleton]
    cases decodeBody (offset + c.utf8Size) rest <;> rfl
  | short h => exact hescape (.short h) hwhole
  | code hmark hdigits hmax hc => exact hescape (.code hmark hdigits hmax hc) hwhole
  | continuation h => exact hescape (.continuation h) hwhole

theorem decodeBody_of_reads {cs out : List Char} (h : Reads cs out) (offset : Nat) :
    decodeBody offset cs = .ok out := by
  induction h generalizing offset with
  | nil => rw [decodeBody]
  | cons hpiece hwhole _ ih =>
    rw [decodeBody_piece hpiece hwhole, ih]
    rfl

theorem decodeBody_of_refused {cs : List Char} {k : Nat} (h : Refused cs k) (offset : Nat) :
    decodeBody offset cs = .error (offset + k) := by
  obtain ⟨before, after, rfl, ⟨out, hbefore⟩, hnone, rfl⟩ := h
  induction hbefore generalizing offset with
  | nil =>
    rw [List.nil_append, decodeBody, if_pos rfl, escape?_eq_none_iff.mpr hnone]
    rfl
  | @cons piece meant rest out hpiece hwhole _ ih =>
    have hwhole' : piece = ['\\', '\r'] → (rest ++ '\\' :: after).head? ≠ some '\n' := by
      intro hline
      cases rest with
      | nil => simp
      | cons c rest => exact hwhole hline
    rw [List.append_assoc, decodeBody_piece hpiece hwhole', ih, byteLength_append, Nat.add_assoc]
    rfl

/-- A piece in front of a body that is refused. -/
theorem Refused.cons {piece meant rest : List Char} {k : Nat} (hpiece : Piece piece meant)
    (hwhole : piece = ['\\', '\r'] → rest.head? ≠ some '\n') (h : Refused rest k) :
    Refused (piece ++ rest) (byteLength piece + k) := by
  obtain ⟨before, after, rfl, ⟨out, hbefore⟩, hnone, rfl⟩ := h
  refine ⟨piece ++ before, after, (List.append_assoc ..).symm, ⟨meant ++ out, ?_⟩, hnone,
    byteLength_append.symm⟩
  refine .cons hpiece (fun hline hhead => hwhole hline ?_) hbefore
  rw [List.head?_append, hhead]
  rfl

/-- Every body is a sequence of pieces up to its end or up to a backslash that begins none. -/
theorem reads_or_refused (cs : List Char) : (∃ out, Reads cs out) ∨ ∃ k, Refused cs k := by
  induction hlength : cs.length using Nat.strong_induction_on generalizing cs with
  | _ length ih =>
    subst hlength
    have hcons {piece meant rest : List Char} (hpiece : Piece piece meant)
        (hwhole : piece = ['\\', '\r'] → rest.head? ≠ some '\n')
        (hrest : (∃ out, Reads rest out) ∨ ∃ k, Refused rest k) :
        (∃ out, Reads (piece ++ rest) out) ∨ ∃ k, Refused (piece ++ rest) k := by
      rcases hrest with ⟨out, hout⟩ | ⟨k, hk⟩
      · exact .inl ⟨_, .cons hpiece hwhole hout⟩
      · exact .inr ⟨_, .cons hpiece hwhole hk⟩
    cases cs with
    | nil => exact .inl ⟨[], .nil⟩
    | cons c cs =>
      by_cases hc : c = '\\'
      · subst hc
        cases hescape : escape? cs with
        | none =>
          exact .inr ⟨0, [], cs, rfl, ⟨[], .nil⟩, escape?_eq_none_iff.mp hescape, rfl⟩
        | some found =>
          obtain ⟨e, rest, rfl, -, hpiece, hwhole⟩ := begins_of_escape? hescape
          refine hcons hpiece hwhole (ih rest.length ?_ rest rfl)
          simp only [List.length_cons, List.length_append]
          omega
      · have hwhole : [c] = ['\\', '\r'] → cs.head? ≠ some '\n' := fun h => by cases h
        exact hcons (.plain hc) hwhole (ih cs.length (Nat.lt_succ_self _) cs rfl)

theorem decodeBody_eq_ok_iff {cs out : List Char} {offset : Nat} :
    decodeBody offset cs = .ok out ↔ Reads cs out := by
  refine ⟨fun h => ?_, fun h => decodeBody_of_reads h offset⟩
  rcases reads_or_refused cs with ⟨out', hout⟩ | ⟨k, hk⟩
  · rw [decodeBody_of_reads hout] at h
    cases h
    exact hout
  · rw [decodeBody_of_refused hk] at h
    cases h

theorem decodeBody_eq_error_iff {cs : List Char} {k : Nat} :
    decodeBody 0 cs = .error k ↔ Refused cs k := by
  refine ⟨fun h => ?_, fun h => by rw [decodeBody_of_refused h, Nat.zero_add]⟩
  rcases reads_or_refused cs with ⟨out, hout⟩ | ⟨k', hk⟩
  · rw [decodeBody_of_reads hout] at h
    cases h
  · rw [decodeBody_of_refused hk, Nat.zero_add] at h
    cases h
    exact hk

/-- What stands in a literal is decoded exactly if it is a sequence of pieces, into what they stand
    for. All else is refused, with an error that names the byte, counted inside the quotes, of the
    first backslash that begins no piece. -/
theorem decode_iff_reads (lexeme : String) : ∃ body, Inside lexeme.toList body ∧
    (∀ text, decode lexeme = .ok text ↔ Reads body text.toList) ∧
    (∀ offset, decode lexeme = .error offset ↔ Refused body offset) ∧
    ∀ offset, Refused body offset →
      ∃ cause, Literal.value ⟨.text, lexeme⟩ = .error cause ∧ cause.reason = .malformed ∧
        cause.message =
          "Invalid backslash sequence in string at position " ++ toString offset := by
  have herror (offset : Nat) :
      decode lexeme = .error offset ↔ Refused (unquote lexeme.toList) offset := by
    rw [← decodeBody_eq_error_iff, decode]
    cases decodeBody 0 (unquote lexeme.toList) <;> simp
  refine ⟨unquote lexeme.toList, inside_unquote _, fun text => ?_, herror, fun offset h => ?_⟩
  · rw [← decodeBody_eq_ok_iff, decode]
    cases decodeBody 0 (unquote lexeme.toList) with
    | error k => simp
    | ok out =>
      simp only [Except.ok.injEq]
      constructor
      · rintro rfl
        exact String.toList_ofList.symm
      · rintro rfl
        exact String.ofList_toList
  · refine ⟨.invalidEscape offset, ?_, rfl, rfl⟩
    simp only [Literal.value, (herror offset).mpr h]

end ExprLang.Text
