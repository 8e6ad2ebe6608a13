import ExprLang.Number.Layout
import ExprLang.Number.Reading
import ExprLang.Proofs.Numbers.Shortest

/-!
# Decimal notation

Every decimal is written as a numeral: digits, perhaps a point with more digits, perhaps an exponent
(`Layout.exists_numeral`). A numeral is read as the number it stands for (`Numeral.reading?_text`),
and as a whole number exactly if it is nothing but digits (`Numeral.integer?_text`).
-/

namespace ExprLang.Number

/-! ## Digits -/

theorem decimalDigit?_of_isDigit {c : Char} (hc : c.isDigit = true) :
    decimalDigit? c = some (c.toNat - '0'.toNat) := by
  rw [decimalDigit?, if_pos]
  simpa [Char.isDigit, Char.le_def] using hc

theorem digitsValue?_eq {cs : List Char} (hcs : ∀ c ∈ cs, c.isDigit = true) (acc : Nat) :
    digitsValue? 10 decimalDigit? acc cs = some (Nat.ofDigitChars 10 cs acc) := by
  induction cs generalizing acc with
  | nil => rfl
  | cons c cs ih =>
    obtain ⟨hc, hcs⟩ := List.forall_mem_cons.mp hcs
    rw [digitsValue?, decimalDigit?_of_isDigit hc, Nat.ofDigitChars_cons]
    exact ih hcs _

/-- What is no digit ends a number in vain. -/
theorem digitsValue?_append_eq_none {cs : List Char} (hcs : ∀ c ∈ cs, c.isDigit = true) {c : Char}
    (hc : decimalDigit? c = none) (rest : List Char) (acc : Nat) :
    digitsValue? 10 decimalDigit? acc (cs ++ c :: rest) = none := by
  induction cs generalizing acc with
  | nil => rw [List.nil_append, digitsValue?, hc]
  | cons d cs ih =>
    obtain ⟨hd, hcs⟩ := List.forall_mem_cons.mp hcs
    rw [List.cons_append, digitsValue?, decimalDigit?_of_isDigit hd]
    exact ih hcs _

theorem natural?_eq {cs : List Char} (h : cs ≠ []) :
    natural? cs = digitsValue? 10 decimalDigit? 0 cs := by
  obtain ⟨c, cs, rfl⟩ := List.exists_cons_of_ne_nil h
  rfl

theorem isDigit_of_mem_digitText {n : Nat} {c : Char} (h : c ∈ digitText n) : c.isDigit = true :=
  Nat.isDigit_of_mem_toDigits (by decide) (by decide) h

theorem digitText_ne_nil (n : Nat) : digitText n ≠ [] := Nat.toDigits_ne_nil

theorem ofDigitChars_digitText (n : Nat) : Nat.ofDigitChars 10 (digitText n) 0 = n :=
  Nat.ofDigitChars_ten_toDigits

/-- Digits are passed one by one, and one after the point counts as a place. -/
theorem significand_append {ds : List Char} (hds : ∀ c ∈ ds, c.isDigit = true) (rest : List Char)
    (value places : Nat) (point any : Bool) :
    significand 10 decimalDigit? value places point any (ds ++ rest) =
      significand 10 decimalDigit? (Nat.ofDigitChars 10 ds value)
        (if point then places + ds.length else places) point (any || !ds.isEmpty) rest := by
  induction ds generalizing value places any with
  | nil => simp [Nat.ofDigitChars_nil]
  | cons c ds ih =>
    obtain ⟨hc, hds⟩ := List.forall_mem_cons.mp hds
    have hunderscore : c ≠ '_' := by rintro rfl; cases hc
    have hpoint : c ≠ '.' := by rintro rfl; cases hc
    rw [List.cons_append, significand, if_neg hunderscore, if_neg hpoint,
      decimalDigit?_of_isDigit hc, Nat.ofDigitChars_cons]
    simp only
    rw [ih hds]
    cases point with
    | false => simp
    | true => simp [Nat.add_assoc, Nat.add_comm 1]

/-- Digits whose value is within the bound are read as an exponent. -/
theorem exponentDigits?_eq {ds : List Char} (hds : ∀ c ∈ ds, c.isDigit = true) {value : Nat}
    (hbound : Nat.ofDigitChars 10 ds value ≤ exponentBound) :
    exponentDigits? value ds = some (Nat.ofDigitChars 10 ds value) := by
  induction ds generalizing value with
  | nil => rfl
  | cons c ds ih =>
    obtain ⟨hc, hds⟩ := List.forall_mem_cons.mp hds
    have hunderscore : c ≠ '_' := by rintro rfl; cases hc
    rw [Nat.ofDigitChars_cons] at hbound ⊢
    have hle : 10 * value + (c.toNat - '0'.toNat) ≤ exponentBound := by
      rw [Nat.ofDigitChars_eq_ofDigitChars_zero] at hbound
      exact (Nat.le_mul_of_pos_left _ (Nat.pow_pos (by decide))).trans
        ((Nat.le_add_right _ _).trans hbound)
    rw [exponentDigits?, if_neg hunderscore, decimalDigit?_of_isDigit hc]
    simp only
    rw [Nat.min_eq_left hle]
    exact ih hds hbound

/-! ## Numerals -/

/-- An exponent as it is written, with a sign and at least two digits. -/
def exponentText (e : Int) : List Char :=
  (if e < 0 then '-' else '+') ::
    (if (digitText e.natAbs).length < 2 then '0' :: digitText e.natAbs else digitText e.natAbs)

theorem exponent?_exponentText {e : Int} (he : e.natAbs ≤ exponentBound) :
    exponent? (exponentText e) = some e := by
  obtain ⟨ds, htext, hvalue, hdigits, hne⟩ : ∃ ds : List Char,
      exponentText e = (if e < 0 then '-' else '+') :: ds ∧
        Nat.ofDigitChars 10 ds 0 = e.natAbs ∧ (∀ c ∈ ds, c.isDigit = true) ∧ ds ≠ [] := by
    refine ⟨_, rfl, ?_⟩
    have hdigits : ∀ c ∈ digitText e.natAbs, c.isDigit = true := fun _ => isDigit_of_mem_digitText
    split
    · rw [Nat.ofDigitChars_cons]
      refine ⟨ofDigitChars_digitText _, List.forall_mem_cons.mpr ⟨rfl, hdigits⟩, ?_⟩
      exact List.cons_ne_nil _ _
    · exact ⟨ofDigitChars_digitText _, hdigits, digitText_ne_nil _⟩
  obtain ⟨c, ds, rfl⟩ := List.exists_cons_of_ne_nil hne
  have hc := decimalDigit?_of_isDigit (hdigits c List.mem_cons_self)
  have hread := exponentDigits?_eq hdigits (hvalue ▸ he)
  rw [htext, exponent?]
  by_cases hneg : e < 0
  · rw [if_pos hneg]
    simp only [splitSign, hc, Option.isSome_some, if_true, hread, hvalue, Option.map_some, signed]
    congr 1
    omega
  · rw [if_neg hneg]
    simp only [splitSign, hc, Option.isSome_some, if_true, hread, hvalue, Option.map_some, signed,
      Bool.false_eq_true, if_false]
    congr 1
    omega

/-- A number in decimal notation: the digits before the point, those after it if there is a point,
    and the exponent if there is one. -/
structure Numeral where
  whole : List Char
  fraction : Option (List Char)
  exponent : Option Int
  whole_ne_nil : whole ≠ []
  isDigit_whole : ∀ c ∈ whole, c.isDigit = true
  isDigit_fraction : ∀ c ∈ fraction.getD [], c.isDigit = true

namespace Numeral

variable (n : Numeral)

def fractionText : List Char := n.fraction.elim [] ('.' :: ·)

def exponentPart : List Char := n.exponent.elim [] ('e' :: exponentText ·)

/-- The characters of a numeral. -/
def text : List Char := n.whole ++ (n.fractionText ++ n.exponentPart)

/-- The number that all digits write. -/
def digits : Nat := Nat.ofDigitChars 10 (n.whole ++ n.fraction.getD []) 0

/-- The power of ten that goes with the digits. -/
def ten : Int := n.exponent.getD 0 - (n.fraction.getD []).length

/-- The number that a numeral stands for. -/
def value : ℚ := n.digits * 10 ^ n.ten

/-- Whether there is neither a point nor an exponent. -/
def IsWhole : Prop := n.fraction = none ∧ n.exponent = none

theorem IsWhole.value_eq {n : Numeral} (h : n.IsWhole) : n.value = n.digits := by
  have hten : n.ten = 0 := by
    rw [ten, h.1, h.2]
    rfl
  rw [value, hten, zpow_zero, mul_one]

theorem significand_exponentPart (value places : Nat) (point any : Bool) :
    significand 10 decimalDigit? value places point any n.exponentPart =
      (value, places, any, n.exponentPart) := by
  rw [exponentPart]
  cases n.exponent with
  | none => rfl
  | some e => rfl

theorem significand_text : significand 10 decimalDigit? 0 0 false false n.text =
    (n.digits, (n.fraction.getD []).length, true, n.exponentPart) := by
  have hany : (!n.whole.isEmpty) = true := by simpa using n.whole_ne_nil
  rw [text, significand_append n.isDigit_whole, digits, fractionText, hany]
  have hfraction := n.isDigit_fraction
  cases hcase : n.fraction with
  | none => simp [significand_exponentPart]
  | some ds =>
    rw [hcase] at hfraction
    simp only [Option.elim_some, List.cons_append, Option.getD_some] at hfraction ⊢
    rw [significand, if_neg (by decide), if_pos rfl, if_neg (by decide),
      significand_append hfraction, significand_exponentPart, Nat.ofDigitChars_append]
    simp

theorem decimalReading?_text (hexponent : (n.exponent.getD 0).natAbs ≤ exponentBound)
    (negative : Bool) :
    decimalReading? negative n.text = some (.finite negative n.digits n.ten 0) := by
  rw [decimalReading?, significand_text, exponentPart, ten]
  cases hcase : n.exponent with
  | none => simp
  | some e =>
    rw [hcase] at hexponent
    rw [Option.getD_some] at hexponent
    have hlower : lower 'e' = 'e' := rfl
    simp only [Option.elim_some, hlower, if_true, Bool.not_true, Bool.false_eq_true, if_false,
      exponent?_exponentText hexponent, Option.map_some, Option.getD_some]

/-- The characters of numerals. -/
def isNumeralChar (c : Char) : Bool := c.isDigit || c = '.' || c = 'e' || c = '+' || c = '-'

theorem isNumeralChar_of_isDigit {c : Char} (h : c.isDigit = true) : isNumeralChar c = true := by
  simp [isNumeralChar, h]

theorem isNumeralChar_of_mem_exponentText {e : Int} {c : Char} (h : c ∈ exponentText e) :
    isNumeralChar c = true := by
  have hdigits : ∀ c ∈ digitText e.natAbs, isNumeralChar c = true :=
    fun c hc => isNumeralChar_of_isDigit (isDigit_of_mem_digitText hc)
  rw [exponentText] at h
  rcases List.mem_cons.mp h with rfl | h
  · split <;> rfl
  · split at h
    · rcases List.mem_cons.mp h with rfl | h
      · rfl
      · exact hdigits c h
    · exact hdigits c h

theorem isNumeralChar_of_mem_text {c : Char} (h : c ∈ n.text) : isNumeralChar c = true := by
  have hfraction := n.isDigit_fraction
  rw [text, fractionText, exponentPart, List.mem_append, List.mem_append] at h
  rcases h with h | h | h
  · exact isNumeralChar_of_isDigit (n.isDigit_whole c h)
  · cases hcase : n.fraction with
    | none =>
      rw [hcase] at h
      cases h
    | some ds =>
      rw [hcase] at h hfraction
      rcases List.mem_cons.mp h with rfl | h
      · rfl
      · exact isNumeralChar_of_isDigit (hfraction c h)
  · cases hcase : n.exponent with
    | none =>
      rw [hcase] at h
      cases h
    | some e =>
      rw [hcase] at h
      rcases List.mem_cons.mp h with rfl | h
      · rfl
      · exact isNumeralChar_of_mem_exponentText h

theorem exists_text_eq_cons : ∃ c cs, c.isDigit = true ∧ n.text = c :: cs := by
  obtain ⟨c, cs, hcons⟩ := List.exists_cons_of_ne_nil n.whole_ne_nil
  refine ⟨c, cs ++ (n.fractionText ++ n.exponentPart), ?_, ?_⟩
  · exact n.isDigit_whole c (hcons ▸ List.mem_cons_self)
  · rw [text, hcons, List.cons_append]

end Numeral

/-- Text without underscores has none in a wrong place. -/
theorem underscoresFit_of_notMem {cs : List Char} (h : '_' ∉ cs) (hex afterDigit : Bool) :
    underscoresFit hex afterDigit false cs = true := by
  induction cs generalizing afterDigit with
  | nil => rfl
  | cons c cs ih =>
    obtain ⟨hc, hcs⟩ := not_or.mp (mt List.mem_cons.mpr h)
    rw [underscoresFit, if_neg (Ne.symm hc)]
    split
    · exact ih hcs true
    · exact ih hcs false

/-- A number with its sign written before it. -/
def withSign (negative : Bool) (cs : List Char) : List Char := if negative then '-' :: cs else cs

theorem splitSign_withSign (negative : Bool) {c : Char} (hc : c.isDigit = true) (cs : List Char) :
    splitSign (withSign negative (c :: cs)) = (negative, c :: cs) := by
  cases negative with
  | true => rfl
  | false =>
    have hminus : c ≠ '-' := by rintro rfl; cases hc
    have hplus : c ≠ '+' := by rintro rfl; cases hc
    simp [withSign, splitSign, hminus, hplus]

namespace Numeral

variable (n : Numeral)

/-- Only digits are a whole number. -/
theorem integer?_text (negative : Bool) :
    (n.IsWhole → integer? (withSign negative n.text) = some (signed negative n.digits)) ∧
      (¬ n.IsWhole → integer? (withSign negative n.text) = none) := by
  obtain ⟨c, cs, hc, htext⟩ := n.exists_text_eq_cons
  have hnatural : integer? (withSign negative n.text) =
      (digitsValue? 10 decimalDigit? 0 n.text).map (signed negative) := by
    rw [htext, integer?, splitSign_withSign negative hc]
    rfl
  rw [hnatural, text, fractionText, exponentPart, IsWhole, digits]
  cases n.fraction with
  | some ds =>
    rw [Option.elim_some, List.cons_append, digitsValue?_append_eq_none n.isDigit_whole rfl]
    simp
  | none =>
    cases n.exponent with
    | some e =>
      rw [Option.elim_none, Option.elim_some, List.nil_append,
        digitsValue?_append_eq_none n.isDigit_whole rfl]
      simp
    | none =>
      rw [Option.elim_none, Option.elim_none, List.nil_append, Option.getD_none, List.append_nil,
        digitsValue?_eq n.isDigit_whole]
      simp

theorem lower_of_isDigit {c : Char} (hc : c.isDigit = true) : lower c = c := by
  have hupper : ¬ (c.val ≥ 'A'.val ∧ c.val ≤ 'Z'.val) := by
    simp only [Char.isDigit, Bool.and_eq_true, decide_eq_true_eq, UInt32.le_iff_toNat_le] at hc
    simp only [ge_iff_le, UInt32.le_iff_toNat_le, not_and, not_le]
    intro hge
    have hle : c.val.toNat ≤ 57 := hc.2
    have hge : 65 ≤ c.val.toNat := hge
    omega
  exact dif_neg hupper

theorem lower_ne_of_isNumeralChar {c : Char} (h : isNumeralChar c = true) : lower c ≠ 'x' := by
  simp only [isNumeralChar, Bool.or_eq_true, decide_eq_true_eq] at h
  rcases h with (((h | rfl) | rfl) | rfl) | rfl
  · rw [lower_of_isDigit h]
    rintro rfl
    cases h
  all_goals decide

/-- Without a name and without a base mark a text is read in decimal notation. -/
theorem reading?_eq_decimalReading? {c : Char} (hc : c.isDigit = true) {cs : List Char}
    (hcs : ∀ d ∈ c :: cs, isNumeralChar d = true) (negative : Bool) :
    reading? (withSign negative (c :: cs)) = decimalReading? negative (c :: cs) := by
  have hfit : underscoresFit false false false (c :: cs) = true := by
    apply underscoresFit_of_notMem
    intro hmem
    cases hcs '_' hmem
  have hword (d : Char) (ds : List Char) (hd : d.isDigit = false) :
      String.ofList ((c :: cs).map lower) ≠ String.ofList (d :: ds) := by
    intro h
    rw [String.ofList_inj, List.map_cons, lower_of_isDigit hc] at h
    injection h with h _
    rw [← h, hc] at hd
    cases hd
  have hnan : (withSign negative (c :: cs)).map lower ≠ ['n', 'a', 'n'] := by
    cases negative with
    | true =>
      intro h
      injection h with h _
      exact absurd h (by decide)
    | false =>
      intro h
      exact hword 'n' ['a', 'n'] rfl (congrArg String.ofList h)
  have hinf : String.ofList ((c :: cs).map lower) ≠ "inf" := hword 'i' ['n', 'f'] rfl
  have hinfinity : String.ofList ((c :: cs).map lower) ≠ "infinity" :=
    hword 'i' ['n', 'f', 'i', 'n', 'i', 't', 'y'] rfl
  rw [reading?, splitSign_withSign negative hc]
  simp only
  rw [if_neg (by rw [decide_eq_false hinf, decide_eq_false hinfinity]; exact Bool.false_ne_true),
    if_neg hnan]
  split
  · next x _ _ heq =>
    have hx : lower x ≠ 'x' := by
      apply lower_ne_of_isNumeralChar
      apply hcs
      rw [heq]
      exact List.mem_cons_of_mem _ List.mem_cons_self
    rw [if_neg hx, if_pos hfit]
  · rw [if_pos hfit]

theorem reading?_text (hexponent : (n.exponent.getD 0).natAbs ≤ exponentBound) (negative : Bool) :
    reading? (withSign negative n.text) = some (.finite negative n.digits n.ten 0) := by
  obtain ⟨c, cs, hc, htext⟩ := n.exists_text_eq_cons
  rw [← n.decimalReading?_text hexponent, htext]
  apply reading?_eq_decimalReading? hc
  intro d hd
  exact n.isNumeralChar_of_mem_text (htext ▸ hd)

end Numeral

/-! ## Whole numbers -/

/-- The digits of a whole number and nothing else. -/
def Numeral.ofNat (n : Nat) : Numeral :=
  ⟨digitText n, none, none, digitText_ne_nil n, fun _ => isDigit_of_mem_digitText,
    List.forall_mem_nil _⟩

theorem Numeral.isWhole_ofNat (n : Nat) : (ofNat n).IsWhole := ⟨rfl, rfl⟩

theorem Numeral.text_ofNat (n : Nat) : (ofNat n).text = digitText n := List.append_nil _

theorem Numeral.digits_ofNat (n : Nat) : (ofNat n).digits = n := by
  rw [digits, ofNat, Option.getD_none, List.append_nil, ofDigitChars_digitText]

theorem toList_toString (n : Int) :
    (toString n).toList = withSign (decide (n < 0)) (Numeral.ofNat n.natAbs).text := by
  rw [Numeral.text_ofNat, digitText]
  cases n with
  | ofNat n =>
    have hsign : ¬ Int.ofNat n < 0 := Int.not_lt.mpr (Int.natCast_nonneg n)
    rw [decide_eq_false hsign]
    exact Nat.toList_repr
  | negSucc n =>
    rw [decide_eq_true (Int.negSucc_lt_zero n)]
    change ("-" ++ (n + 1).repr).toList = '-' :: Nat.toDigits 10 (n + 1)
    rw [String.toList_append, Nat.toList_repr]
    rfl

theorem integer?_toString (n : Int) : integer? (toString n).toList = some n := by
  rw [toList_toString, ((Numeral.ofNat n.natAbs).integer?_text _).1 (Numeral.isWhole_ofNat _),
    Numeral.digits_ofNat, signed]
  congr 1
  split
  · next h =>
    rw [decide_eq_true_eq] at h
    omega
  · next h =>
    rw [decide_eq_true_eq] at h
    omega

/-! ## Decimals -/

theorem isDigit_of_mem_zeros {k : Nat} {c : Char} (h : c ∈ List.replicate k '0') :
    c.isDigit = true := by
  rw [List.eq_of_mem_replicate h]
  rfl

theorem isDigit_of_mem_append {cs ds : List Char} (hcs : ∀ c ∈ cs, c.isDigit = true)
    (hds : ∀ c ∈ ds, c.isDigit = true) {c : Char} (h : c ∈ cs ++ ds) : c.isDigit = true := by
  rcases List.mem_append.mp h with h | h
  · exact hcs c h
  · exact hds c h

theorem ofDigitChars_append_zeros (ds : List Char) (k : Nat) :
    Nat.ofDigitChars 10 (ds ++ List.replicate k '0') 0 = 10 ^ k * Nat.ofDigitChars 10 ds 0 := by
  rw [Nat.ofDigitChars_append, Nat.ofDigitChars_replicate_zero]

theorem ofDigitChars_zeros_append (k : Nat) (ds : List Char) :
    Nat.ofDigitChars 10 (List.replicate k '0' ++ ds) 0 = Nat.ofDigitChars 10 ds 0 := by
  rw [Nat.ofDigitChars_append, Nat.ofDigitChars_replicate_zero, Nat.mul_zero]

namespace Decimal

variable (d : Decimal)

theorem isDigit_digits : ∀ c ∈ digitText d.digits, c.isDigit = true :=
  fun _ => isDigit_of_mem_digitText

/-- A whole number is its digits and zeros, perhaps with a zero after the point. -/
theorem exists_plain_of_nonneg (he : 0 ≤ d.exponent) (keepPoint : Bool) : ∃ n : Numeral,
    n.text = d.plain keepPoint ∧ n.value = d.value ∧ n.exponent = none ∧
      (n.fraction = none ↔ keepPoint = false) := by
  obtain ⟨k, hk⟩ := Int.eq_ofNat_of_zero_le he
  have hne : digitText d.digits ++ List.replicate k '0' ≠ [] :=
    List.append_ne_nil_of_left_ne_nil (digitText_ne_nil _) _
  have hwhole : ∀ c ∈ digitText d.digits ++ List.replicate k '0', c.isDigit = true :=
    fun _ => isDigit_of_mem_append d.isDigit_digits fun _ => isDigit_of_mem_zeros
  rw [plain, value, if_pos he, hk, Int.toNat_natCast]
  cases keepPoint with
  | false =>
    refine ⟨⟨_, none, none, hne, hwhole, List.forall_mem_nil _⟩, ?_, ?_, rfl, by simp⟩
    · simp [Numeral.text, Numeral.fractionText, Numeral.exponentPart]
    · simp [Numeral.value, Numeral.digits, Numeral.ten, ofDigitChars_append_zeros,
        ofDigitChars_digitText, mul_comm]
  | true =>
    refine ⟨⟨_, some (List.replicate 1 '0'), none, hne, hwhole, fun _ => isDigit_of_mem_zeros⟩,
      ?_, ?_, rfl, by simp⟩
    · simp [Numeral.text, Numeral.fractionText, Numeral.exponentPart]
    · simp only [Numeral.value, Numeral.digits, Numeral.ten, Option.getD_some, Option.getD_none,
        ofDigitChars_append_zeros, ofDigitChars_digitText, List.length_replicate]
      push_cast
      rw [zpow_neg_one, zpow_natCast]
      ring

/-- Any other number has a point among its digits or before them. -/
theorem exists_plain_of_neg (he : ¬ 0 ≤ d.exponent) (keepPoint : Bool) : ∃ n : Numeral,
    n.text = d.plain keepPoint ∧ n.value = d.value ∧ n.exponent = none ∧ n.fraction ≠ none := by
  obtain ⟨k, hk⟩ := Int.eq_ofNat_of_zero_le (by omega : 0 ≤ -d.exponent)
  have hexponent : d.exponent = -(k : Int) := by omega
  rw [plain, value, if_neg he, hk, Int.toNat_natCast, hexponent]
  simp only
  by_cases hlength : (digitText d.digits).length ≤ k
  · rw [if_pos hlength]
    refine ⟨⟨List.replicate 1 '0', some (List.replicate (k - (digitText d.digits).length) '0' ++
      digitText d.digits), none, List.cons_ne_nil _ _, fun _ => isDigit_of_mem_zeros, fun _ =>
        isDigit_of_mem_append (fun _ => isDigit_of_mem_zeros) d.isDigit_digits⟩,
      ?_, ?_, rfl, by simp⟩
    · simp [Numeral.text, Numeral.fractionText, Numeral.exponentPart]
    · simp only [Numeral.value, Numeral.digits, Numeral.ten, Option.getD_some, Option.getD_none,
        ofDigitChars_zeros_append, ofDigitChars_digitText, List.length_append,
        List.length_replicate, Nat.sub_add_cancel hlength, zero_sub]
  · rw [if_neg hlength]
    have hpos : 0 < (digitText d.digits).length - k := by omega
    refine ⟨⟨(digitText d.digits).take ((digitText d.digits).length - k),
      some ((digitText d.digits).drop ((digitText d.digits).length - k)), none, ?_,
      fun c hc => d.isDigit_digits c (List.mem_of_mem_take hc),
      fun c hc => d.isDigit_digits c (List.mem_of_mem_drop hc)⟩, ?_, ?_, rfl, by simp⟩
    · intro hnil
      rcases List.take_eq_nil_iff.mp hnil with hzero | hempty
      · omega
      · exact digitText_ne_nil _ hempty
    · simp [Numeral.text, Numeral.fractionText, Numeral.exponentPart]
    · simp only [Numeral.value, Numeral.digits, Numeral.ten, Option.getD_some, Option.getD_none,
        List.take_append_drop, ofDigitChars_digitText, List.length_drop, zero_sub]
      rw [show (digitText d.digits).length - ((digitText d.digits).length - k) = k by omega]

theorem exists_scientific : ∃ n : Numeral,
    n.text = d.scientific ∧ n.value = d.value ∧ n.exponent = some d.order := by
  have hlength : 0 < (digitText d.digits).length := List.length_pos_of_ne_nil (digitText_ne_nil _)
  refine ⟨⟨(digitText d.digits).take 1,
    if (digitText d.digits).length ≤ 1 then none else some ((digitText d.digits).drop 1),
    some d.order, ?_, fun c hc => d.isDigit_digits c (List.mem_of_mem_take hc), ?_⟩, ?_, ?_, rfl⟩
  · intro hnil
    rcases List.take_eq_nil_iff.mp hnil with hzero | hempty
    · cases hzero
    · exact digitText_ne_nil _ hempty
  · intro c hc
    split at hc
    · cases hc
    · exact d.isDigit_digits c (List.mem_of_mem_drop hc)
  · simp only [Numeral.text, Numeral.fractionText, Numeral.exponentPart, scientific, exponentText]
    split <;> simp
  · rw [Numeral.value, Numeral.digits, Numeral.ten, value, order]
    simp only
    split
    · next hle =>
      rw [Option.getD_none, List.append_nil, List.take_of_length_le hle, ofDigitChars_digitText,
        Option.getD_some, List.length_nil, show (digitText d.digits).length = 1 by omega]
      simp
    · rw [Option.getD_some, List.take_append_drop, ofDigitChars_digitText, Option.getD_some,
        List.length_drop, Nat.cast_sub hlength]
      congr 2
      push_cast
      ring

end Decimal

/-- Every decimal is written as a numeral for it. -/
theorem Layout.exists_numeral (l : Layout) (d : Decimal) : ∃ n : Numeral,
    n.text = l.write d ∧ n.value = d.value ∧ (n.exponent = none ∨ n.exponent = some d.order) ∧
      (n.IsWhole ↔ (l.plainFrom ≤ d.order ∧ d.order < l.plainBelow) ∧ 0 ≤ d.exponent ∧
        l.keepPoint = false) := by
  rw [Layout.write]
  by_cases hplain : l.plainFrom ≤ d.order ∧ d.order < l.plainBelow
  · rw [if_pos hplain]
    by_cases he : 0 ≤ d.exponent
    · obtain ⟨n, htext, hvalue, hexponent, hfraction⟩ := d.exists_plain_of_nonneg he l.keepPoint
      exact ⟨n, htext, hvalue, .inl hexponent, by simp [Numeral.IsWhole, *]⟩
    · obtain ⟨n, htext, hvalue, hexponent, hfraction⟩ := d.exists_plain_of_neg he l.keepPoint
      exact ⟨n, htext, hvalue, .inl hexponent, by simp [Numeral.IsWhole, hfraction, he]⟩
  · rw [if_neg hplain]
    obtain ⟨n, htext, hvalue, hexponent⟩ := d.exists_scientific
    exact ⟨n, htext, hvalue, .inr hexponent, by simp [Numeral.IsWhole, hexponent, hplain]⟩

end ExprLang.Number
