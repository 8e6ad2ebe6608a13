import ExprLang.Json.Reader
import ExprLang.Json.Writer
import ExprLang.Proofs.Numbers.Doubles
import ExprLang.Proofs.PlainData

/-!
# Reading JSON documents

A document can be told from what follows it, unless it is a number and more characters of numbers
follow. `ReadsAs` says that a document is read as some data wherever it stands. It is shown here for
numbers and texts, and for lists and maps whose parts have it.
-/

namespace ExprLang.Json

/-- Text that goes on after a number without being a part of it. -/
def Detached (rest : List Char) : Prop := ∀ c ∈ rest.head?, isNumberChar c = false

/-- A document is read as data wherever it stands, and nothing after it is. -/
def ReadsAs (document : List Char) (d : HostData) : Prop :=
  ∀ rest, Detached rest → ∃ hlt, readValue (document ++ rest) = some ⟨d, rest, hlt⟩

theorem detached_nil : Detached [] := by
  intro c hc
  cases hc

theorem detached_cons {c : Char} (hc : isNumberChar c = false) (rest : List Char) :
    Detached (c :: rest) := by
  intro d hd
  cases hd
  exact hc

/-- No document begins with a blank or a closing bracket. -/
theorem ReadsAs.exists_cons {document : List Char} {d : HostData} (h : ReadsAs document d) :
    ∃ c cs, document = c :: cs ∧ isBlank c = false ∧ c ≠ ']' := by
  obtain ⟨hlt, hread⟩ := h [] detached_nil
  cases document with
  | nil => cases hlt
  | cons c cs =>
    change readValue (c :: (cs ++ [])) = _ at hread
    refine ⟨c, cs, rfl, ?_, ?_⟩
    · rw [← Bool.not_eq_true]
      intro hblank
      simp only [isBlank, Bool.or_eq_true, decide_eq_true_eq] at hblank
      rw [readValue.eq_def] at hread
      rcases hblank with ((rfl | rfl) | rfl) | rfl <;> simp at hread
    · rintro rfl
      rw [readValue.eq_def] at hread
      simp at hread

/-! ## Numbers -/

theorem takeWhile_append_detached {cs rest : List Char} (hcs : ∀ c ∈ cs, isNumberChar c = true)
    (hrest : Detached rest) : (cs ++ rest).takeWhile isNumberChar = cs := by
  rw [List.takeWhile_append_of_pos hcs]
  cases rest with
  | nil => simp
  | cons c rest =>
    rw [List.takeWhile_cons_of_neg (by simp [hrest c rfl]), List.append_nil]

theorem readsAs_number {c : Char} {cs : List Char} (hc : c = '-' ∨ c.isDigit = true)
    (hcs : ∀ d ∈ cs, isNumberChar d = true) (hnumber : isNumber (c :: cs) = true) :
    ReadsAs (c :: cs) (.number (String.ofList (c :: cs))) := by
  intro rest hrest
  have hne (d : Char) (hd : d ≠ '-') (hd' : d.isDigit = false) : c ≠ d := by
    rintro rfl
    rcases hc with h | h
    · exact hd h
    · rw [h] at hd'
      cases hd'
  have hstart : (c = '-' || c.isDigit) = true := by
    rcases hc with rfl | h
    · rfl
    · simp [h]
  have hlt : rest.length < (c :: (cs ++ rest)).length := by
    rw [List.length_cons, List.length_append]
    omega
  refine ⟨hlt, ?_⟩
  change readValue (c :: (cs ++ rest)) = _
  rw [readValue.eq_def]
  simp only
  rw [if_neg (hne '\x7b' (by decide) rfl), if_neg (hne '[' (by decide) rfl),
    if_neg (hne '"' (by decide) rfl), if_pos hstart]
  simp only [takeWhile_append_detached hcs hrest, hnumber, if_true, List.drop_left]

section Numbers

open Number

/-- A numeral that stands for no number too large is read as it is written. -/
theorem readsAs_numeral (n : Numeral) (negative : Bool)
    (hnumber : isNumber (withSign negative n.text) = true) :
    ReadsAs (withSign negative n.text) (.number (String.ofList (withSign negative n.text))) := by
  have hchars : ∀ c ∈ n.text, isNumberChar c = true := by
    intro c hc
    have hnumeral := n.isNumeralChar_of_mem_text hc
    simp only [Numeral.isNumeralChar, isNumberChar, Bool.or_eq_true] at hnumeral ⊢
    tauto
  cases negative with
  | true => exact readsAs_number (.inl rfl) hchars hnumber
  | false =>
    obtain ⟨c, cs, hc, htext⟩ := n.exists_text_eq_cons
    rw [withSign, if_neg Bool.false_ne_true, htext] at hnumber ⊢
    rw [htext] at hchars
    exact readsAs_number (.inr hc) (List.forall_mem_cons.mp hchars).2 hnumber

theorem isNumber_of_read? {text : String} {x : Double} (h : Double.read? text = some x)
    (hx : x.isFinite = true) : isNumber text.toList = true := by
  obtain ⟨reading, hreading, rfl⟩ := Option.map_eq_some_iff.mp h
  rw [isNumber, hreading]
  exact hx

/-- No whole number of eight bytes is too large for a double. -/
theorem isNumber_toString (n : Int64) : isNumber (toString n.toInt).toList = true := by
  have hreading := (Numeral.ofNat n.toInt.natAbs).reading?_text (Nat.zero_le _)
    (decide (n.toInt < 0))
  have hten : (Numeral.ofNat n.toInt.natAbs).ten = 0 := rfl
  have hle := natAbs_toInt_le n
  have hfinite : wordPattern < Format.double.infinity := by decide
  rw [toList_toString, isNumber, hreading, Numeral.digits_ofNat, hten]
  apply Double.isFinite_ofMagnitude
  rw [ofReading_natCast hle]
  exact (round_le_wordPattern hle).trans_lt hfinite

theorem readsAs_int (n : Int64) :
    ReadsAs (toString n.toInt).toList (.number (toString n.toInt)) := by
  have hread := readsAs_numeral (Numeral.ofNat n.toInt.natAbs) (decide (n.toInt < 0))
  rw [← toList_toString, String.ofList_toList] at hread
  exact hread (isNumber_toString n)

end Numbers

/-! ## Texts -/

/-- The codes of the characters that are written by their codes. -/
def escapedCodes : List Nat := List.range 0x20 ++ [0x26, 0x3C, 0x3E, 0x2028, 0x2029]

theorem hexPadded_escapedCodes : ∀ n ∈ escapedCodes, (Text.hexPadded 4 n).length = 4 ∧
    Number.digitsValue? 16 Number.hexadecimalDigit? 0 (Text.hexPadded 4 n) = some n ∧
      isHighHalf n = false ∧ Text.charOfCode n = Char.ofNat n := by
  decide +kernel

theorem escape?_hexPadded {c : Char} (hc : c.toNat ∈ escapedCodes) (cs : List Char) :
    escape? ('u' :: (Text.hexPadded 4 c.toNat ++ cs)) = some (c, 5) := by
  obtain ⟨hlength, hvalue, hhalf, hchar⟩ := hexPadded_escapedCodes c.toNat hc
  have hhex : hex4? (Text.hexPadded 4 c.toNat ++ cs) = some c.toNat := by
    rw [hex4?, if_neg (by rw [List.length_append]; omega), List.take_left' hlength, hvalue]
  rw [escape?, hhex]
  simp [hhalf, hchar, Char.ofNat_toNat]

theorem textBody?_hexPadded {c : Char} (hc : c.toNat ∈ escapedCodes) {cs meant : List Char}
    {n : Nat} (h : textBody? cs = some (meant, n)) :
    textBody? ('\\' :: 'u' :: Text.hexPadded 4 c.toNat ++ cs) =
      some (c :: meant, n + ('\\' :: 'u' :: Text.hexPadded 4 c.toNat).length) := by
  obtain ⟨hlength, -⟩ := hexPadded_escapedCodes c.toNat hc
  have hdrop : ('u' :: (Text.hexPadded 4 c.toNat ++ cs)).drop 5 = cs := by
    rw [List.drop_succ_cons, List.drop_left' hlength]
  rw [List.cons_append, List.cons_append, textBody?, if_neg (by decide), if_pos rfl,
    escape?_hexPadded hc]
  simp only [hdrop, h, List.length_cons, hlength]

/-- What is written for a character stands for that character, whatever follows. -/
theorem textBody?_escapedChar (c : Char) {cs meant : List Char} {n : Nat}
    (h : textBody? cs = some (meant, n)) :
    textBody? (escapedChar c ++ cs) = some (c :: meant, n + (escapedChar c).length) := by
  have escaped (e : Char) (he : escape? (e :: cs) = some (c, 1)) :
      textBody? ('\\' :: e :: cs) = some (c :: meant, n + 2) := by
    rw [textBody?, if_neg (by decide), if_pos rfl, he]
    simp only [List.drop_succ_cons, List.drop_zero, h]
  unfold escapedChar
  split
  · next hc => exact escaped '"' (by rw [hc]; rfl)
  split
  · next hc => exact escaped '\\' (by rw [hc]; rfl)
  split
  · next hc => exact escaped 'n' (by rw [hc]; rfl)
  split
  · next hc => exact escaped 'r' (by rw [hc]; rfl)
  split
  · next hc => exact escaped 't' (by rw [hc]; rfl)
  split
  · next hcode =>
    have hmem : c.toNat ∈ escapedCodes := by
      rw [escapedCodes, List.mem_append, List.mem_range]
      rcases hcode with h | rfl | rfl | rfl | h | h
      · exact .inl h
      all_goals right
      · decide
      · decide
      · decide
      · rw [h]
        decide
      · rw [h]
        decide
    exact textBody?_hexPadded hmem h
  · next hquote hbackslash _ _ _ _ =>
    rw [List.singleton_append, textBody?, if_neg hquote, if_neg hbackslash, h]
    rfl

theorem textBody?_flatMap_escapedChar (cs rest : List Char) :
    textBody? (cs.flatMap escapedChar ++ ['"'] ++ rest) =
      some (cs, (cs.flatMap escapedChar ++ ['"']).length) := by
  induction cs with
  | nil => simp [textBody?]
  | cons c cs ih =>
    rw [List.flatMap_cons, List.append_assoc, List.append_assoc, ← List.append_assoc _ ['"'] rest,
      textBody?_escapedChar c ih]
    simp [Nat.add_comm, Nat.add_left_comm]

theorem writeText_ofString (t : String) :
    writeText t = '"' :: (t.toList.flatMap escapedChar ++ ['"']) := by
  rw [writeText, Text.chars_ofString, List.flatMap_map]
  rfl

theorem readsAs_text (t : String) : ReadsAs (writeText t) (.text t) := by
  rw [writeText_ofString]
  intro rest _
  have hbody := textBody?_flatMap_escapedChar t.toList rest
  have hlt : rest.length <
      ('"' :: (t.toList.flatMap escapedChar ++ ['"'] ++ rest)).length := by
    rw [List.length_cons, List.length_append]
    omega
  refine ⟨hlt, ?_⟩
  change readValue ('"' :: (t.toList.flatMap escapedChar ++ ['"'] ++ rest)) = _
  rw [readValue.eq_def]
  simp only
  rw [if_neg (by decide), if_neg (by decide), if_pos trivial, hbody]
  simp only [List.drop_left, String.ofList_toList]

/-! ## Lists -/

theorem skipBlanks_cons {c : Char} (hc : isBlank c = false) (cs : List Char) :
    skipBlanks (c :: cs) = c :: cs := by
  rw [skipBlanks, List.dropWhile_cons_of_neg (by simp [hc])]

theorem readItems_last {document : List Char} {item : HostData} (h : ReadsAs document item)
    (rest : List Char) :
    ∃ hlt, readItems (document ++ ']' :: rest) = some ⟨[item], rest, hlt⟩ := by
  obtain ⟨hlt, hread⟩ := h (']' :: rest) (detached_cons rfl rest)
  refine ⟨(Nat.lt_succ_self _).trans hlt, ?_⟩
  rw [readItems, hread]
  simp only [Option.bind_eq_bind, Option.bind_some]
  split
  · next hs => cases hs
  · next hs =>
    cases hs
    rfl

theorem readItems_next {document others : List Char} {item : HostData} {items : List HostData}
    {rest : List Char} (h : ReadsAs document item)
    (hothers : ∃ hlt, readItems (skipBlanks others) = some ⟨items, rest, hlt⟩) :
    ∃ hlt, readItems (document ++ ',' :: others) = some ⟨item :: items, rest, hlt⟩ := by
  obtain ⟨hlt, hread⟩ := h (',' :: others) (detached_cons rfl others)
  obtain ⟨hlt', hread'⟩ := hothers
  have hshorter : rest.length < others.length := hlt'.trans_le (length_skipBlanks others)
  refine ⟨(hshorter.trans (Nat.lt_succ_self _)).trans hlt, ?_⟩
  rw [readItems, hread]
  simp only [Option.bind_eq_bind, Option.bind_some]
  split
  · next hs => cases hs
  · next hs =>
    cases hs
    rw [if_neg (by decide), if_pos rfl, hread']
    rfl

/-- Documents after each other begin as the first of them does. -/
theorem exists_separated_eq_cons (c : Char) (cs : List Char) (documents : List (List Char)) :
    ∃ more, separated ((c :: cs) :: documents) = c :: more := by
  cases documents with
  | nil => exact ⟨cs, rfl⟩
  | cons next documents => exact ⟨cs ++ ',' :: separated (next :: documents), rfl⟩

theorem skipBlanks_separated {c : Char} (hc : isBlank c = false) (cs : List Char)
    (documents : List (List Char)) (rest : List Char) :
    skipBlanks (separated ((c :: cs) :: documents) ++ rest) =
      separated ((c :: cs) :: documents) ++ rest := by
  obtain ⟨more, hmore⟩ := exists_separated_eq_cons c cs documents
  rw [hmore]
  exact skipBlanks_cons hc _

theorem separated_cons_append (document next : List Char) (documents : List (List Char))
    (rest : List Char) : separated (document :: next :: documents) ++ rest =
      document ++ ',' :: (separated (next :: documents) ++ rest) :=
  List.append_assoc _ _ _

theorem readItems_separated {documents : List (List Char)} {items : List HostData}
    (h : List.Forall₂ ReadsAs documents items) (hne : documents ≠ []) (rest : List Char) :
    ∃ hlt, readItems (separated documents ++ ']' :: rest) = some ⟨items, rest, hlt⟩ := by
  induction h with
  | nil => exact absurd rfl hne
  | @cons document item documents items hdocument hdocuments ih =>
    cases hdocuments with
    | nil => exact readItems_last hdocument rest
    | @cons next _ others _ hnext _ =>
      obtain ⟨c, cs, rfl, hblank, -⟩ := hnext.exists_cons
      rw [separated_cons_append]
      apply readItems_next hdocument
      rw [skipBlanks_separated hblank]
      exact ih (List.cons_ne_nil _ _)

theorem readValue_bracket {cs rest : List Char} {items : List HostData}
    (hclose : (skipBlanks cs).head? ≠ some ']')
    (h : ∃ hlt, readItems (skipBlanks cs) = some ⟨items, rest, hlt⟩) :
    ∃ hlt, readValue ('[' :: cs) = some ⟨.list items, rest, hlt⟩ := by
  have hle := length_skipBlanks cs
  refine ⟨?_, ?_⟩
  · obtain ⟨hlt, -⟩ := h
    exact (hlt.trans_le hle).trans (Nat.lt_succ_self _)
  · rw [readValue.eq_def]
    simp only
    rw [if_neg (by decide), if_pos trivial]
    split
    · next hs =>
      rw [hs] at h
      obtain ⟨hlt, -⟩ := h
      cases hlt
    · next hs =>
      rw [hs] at h hclose
      obtain ⟨hlt, hread⟩ := h
      rw [if_neg (by simpa using hclose), hread]
      rfl

theorem readsAs_list {documents : List (List Char)} {items : List HostData}
    (h : List.Forall₂ ReadsAs documents items) :
    ReadsAs ('[' :: separated documents ++ [']']) (.list items) := by
  intro rest _
  cases h with
  | nil =>
    refine ⟨by simp; omega, ?_⟩
    change readValue ('[' :: ']' :: rest) = _
    rw [readValue.eq_def]
    rfl
  | @cons document _ documents _ hdocument hdocuments =>
    have hitems := readItems_separated (.cons hdocument hdocuments) (List.cons_ne_nil _ _) rest
    obtain ⟨c, cs, rfl, hblank, hclose⟩ := hdocument.exists_cons
    obtain ⟨more, hmore⟩ := exists_separated_eq_cons c cs documents
    rw [hmore] at hitems ⊢
    rw [List.append_assoc, List.cons_append]
    apply readValue_bracket
    · rw [List.cons_append, skipBlanks_cons hblank]
      simpa using hclose
    · rw [List.cons_append, skipBlanks_cons hblank]
      exact hitems

/-! ## Maps -/

/-- The value of a member is read after the colon. -/
theorem ReadsAs.readValue_skipBlanks {value : List Char} {d : HostData} (h : ReadsAs value d)
    {rest : List Char} (hrest : Detached rest) :
    ∃ hlt, readValue (skipBlanks (value ++ rest)) = some ⟨d, rest, hlt⟩ := by
  have hread := h rest hrest
  obtain ⟨c, cs, rfl, hblank, -⟩ := h.exists_cons
  rw [List.cons_append, skipBlanks_cons hblank]
  exact hread

/-- What follows a member: the closing brace, or a comma and more members. -/
inductive Follows (rest : List Char) : List (Text × HostData) → List Char → Prop
  | close : Follows rest [] ('\x7d' :: rest)
  | comma {entries : List (Text × HostData)} {others : List Char}
    (h : ∃ hlt, readEntries (skipBlanks others) = some ⟨entries, rest, hlt⟩) :
    Follows rest entries (',' :: others)

theorem Follows.detached {rest after : List Char} {entries : List (Text × HostData)}
    (h : Follows rest entries after) : Detached after ∧ rest.length < after.length := by
  cases h with
  | close => exact ⟨detached_cons rfl rest, Nat.lt_succ_self _⟩
  | @comma _ others h =>
    obtain ⟨hlt, -⟩ := h
    exact ⟨detached_cons rfl others,
      (hlt.trans_le (length_skipBlanks others)).trans (Nat.lt_succ_self _)⟩

theorem readEntries_member (key : String) {value after rest : List Char} {d : HostData}
    {entries : List (Text × HostData)} (h : ReadsAs value d)
    (hafter : Follows rest entries after) :
    ∃ hlt, readEntries (writeText key ++ ':' :: (value ++ after)) =
      some ⟨(key, d) :: entries, rest, hlt⟩ := by
  obtain ⟨hdetached, hshorter⟩ := hafter.detached
  obtain ⟨hlt, hread⟩ := h.readValue_skipBlanks hdetached
  have hbody := textBody?_flatMap_escapedChar key.toList (':' :: (value ++ after))
  rw [writeText_ofString]
  refine ⟨by simp only [List.length_append, List.length_cons]; omega, ?_⟩
  change readEntries ('"' :: (key.toList.flatMap escapedChar ++ ['"'] ++
    ':' :: (value ++ after))) = _
  rw [readEntries.eq_def]
  simp only
  rw [if_pos trivial, hbody]
  simp only
  split
  · next hs =>
    rw [List.drop_left] at hs
    cases hs
  · next hs =>
    rw [List.drop_left] at hs
    cases hs
    rw [if_pos rfl, hread]
    simp only [Option.bind_eq_bind, Option.bind_some]
    cases hafter with
    | close =>
      split
      · next hs => cases hs
      · next hs =>
        cases hs
        rw [if_pos rfl, String.ofList_toList]
        rfl
    | comma hothers =>
      obtain ⟨hlt', hread'⟩ := hothers
      split
      · next hs => cases hs
      · next hs =>
        cases hs
        rw [if_neg (by decide), if_pos rfl, hread', String.ofList_toList]
        rfl

/-- A member with its key, a text of characters, and the document of its value. -/
def ReadsEntry (document : List Char) (entry : Text × HostData) : Prop :=
  entry.1.IsUnicode ∧
    ∃ value, document = writeText entry.1 ++ ':' :: value ∧ ReadsAs value entry.2

theorem ReadsEntry.readEntries {document after rest : List Char} {entry : Text × HostData}
    {entries : List (Text × HostData)} (h : ReadsEntry document entry)
    (hafter : Follows rest entries after) :
    ∃ hlt, readEntries (document ++ after) = some ⟨entry :: entries, rest, hlt⟩ := by
  obtain ⟨name, d⟩ := entry
  obtain ⟨⟨key, rfl⟩, value, rfl, hvalue⟩ := h
  rw [List.append_assoc, List.cons_append]
  exact readEntries_member key hvalue hafter

theorem ReadsEntry.exists_cons {document : List Char} {entry : Text × HostData}
    (h : ReadsEntry document entry) : ∃ cs, document = '"' :: cs := by
  obtain ⟨-, value, rfl, -⟩ := h
  exact ⟨_, rfl⟩

theorem readEntries_separated {documents : List (List Char)} {entries : List (Text × HostData)}
    (h : List.Forall₂ ReadsEntry documents entries) (hne : documents ≠ []) (rest : List Char) :
    ∃ hlt, readEntries (separated documents ++ '\x7d' :: rest) = some ⟨entries, rest, hlt⟩ := by
  induction h with
  | nil => exact absurd rfl hne
  | @cons document entry documents entries hdocument hdocuments ih =>
    cases hdocuments with
    | nil => exact hdocument.readEntries .close
    | @cons next _ others _ hnext _ =>
      obtain ⟨cs, rfl⟩ := hnext.exists_cons
      rw [separated_cons_append]
      apply hdocument.readEntries
      apply Follows.comma
      rw [skipBlanks_separated rfl]
      exact ih (List.cons_ne_nil _ _)

theorem readValue_brace {cs rest : List Char} {entries : List (Text × HostData)}
    (hclose : (skipBlanks cs).head? ≠ some '\x7d')
    (h : ∃ hlt, readEntries (skipBlanks cs) = some ⟨entries, rest, hlt⟩) :
    ∃ hlt, readValue ('\x7b' :: cs) = some ⟨.map (lastOfEach (· = ·) entries), rest, hlt⟩ := by
  have hle := length_skipBlanks cs
  refine ⟨?_, ?_⟩
  · obtain ⟨hlt, -⟩ := h
    exact (hlt.trans_le hle).trans (Nat.lt_succ_self _)
  · rw [readValue.eq_def]
    simp only
    rw [if_pos trivial]
    split
    · next hs =>
      rw [hs] at h
      obtain ⟨hlt, -⟩ := h
      cases hlt
    · next hs =>
      rw [hs] at h hclose
      obtain ⟨hlt, hread⟩ := h
      rw [if_neg (by simpa using hclose), hread]
      rfl

theorem readsAs_map {documents : List (List Char)} {entries : List (Text × HostData)}
    (h : List.Forall₂ ReadsEntry documents entries) :
    ReadsAs ('\x7b' :: separated documents ++ ['\x7d']) (.map (lastOfEach (· = ·) entries)) := by
  intro rest _
  cases h with
  | nil =>
    refine ⟨by simp; omega, ?_⟩
    change readValue ('\x7b' :: '\x7d' :: rest) = _
    rw [readValue.eq_def]
    rfl
  | @cons document _ documents _ hdocument hdocuments =>
    have hentries := readEntries_separated (.cons hdocument hdocuments) (List.cons_ne_nil _ _) rest
    obtain ⟨cs, rfl⟩ := hdocument.exists_cons
    obtain ⟨more, hmore⟩ := exists_separated_eq_cons '"' cs documents
    rw [hmore] at hentries ⊢
    rw [List.append_assoc, List.cons_append]
    apply readValue_brace
    · rw [List.cons_append, skipBlanks_cons rfl]
      simp
    · rw [List.cons_append, skipBlanks_cons rfl]
      exact hentries

/-! ## Documents -/

theorem read?_of_readsAs {document : List Char} {d : HostData} (h : ReadsAs document d) :
    read? (String.ofList document) = some d := by
  have hread := h.readValue_skipBlanks detached_nil
  rw [List.append_nil] at hread
  obtain ⟨hlt, hread⟩ := hread
  rw [read?, String.toList_ofList, hread]
  rfl

end ExprLang.Json
