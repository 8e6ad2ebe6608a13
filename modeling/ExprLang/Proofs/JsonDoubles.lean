import ExprLang.Proofs.JsonReading
import ExprLang.Proofs.Numbers.Residues
import ExprLang.Store.Equality

/-!
# Doubles in JSON documents

A double is written with as few digits as tell it from all others. Where no point and no exponent is
among them the document is read as a whole number, which wraps from `2 ^ 63` on; from `10 ^ 21` on
there is an exponent. In between, and only there, a double does not come back
(`decoded_double_equal_iff`).
-/

namespace ExprLang

open Number

namespace Json

/-! ## The text of a double -/

/-- The magnitude pattern of `10 ^ 21`, where the exponents begin. -/
def plainPattern : Nat := 0x444B1AE4D6E2EF50

theorem value_plainPattern : Format.double.value plainPattern = 10 ^ 21 := by
  have hsplit : Format.double.split plainPattern = (7629394531250000, 17) := by decide
  rw [Format.value, hsplit]
  norm_num

theorem shortest_plainPattern : Format.double.shortest plainPattern = ⟨1, 21⟩ := by decide +kernel

theorem shortest_wordPattern :
    Format.double.shortest wordPattern = ⟨9223372036854776, 3⟩ := by decide +kernel

section Order

variable {m : Nat} (hm : 0 < m) (hfinite : m < Format.double.infinity)
include hm hfinite

theorem order_shortest_lt_iff : (Format.double.shortest m).order < 21 ↔ m < plainPattern := by
  have hrounds := rounds_shortest hm hfinite
  obtain ⟨hdigits, -, -⟩ := Decimal.order_bounds hm hfinite hrounds rfl
  obtain ⟨hle, hlt⟩ := Decimal.order_spec hdigits
  have hpower : Format.double.value plainPattern = 10 ^ (21 : Int) := by
    rw [value_plainPattern]
    norm_num
  constructor
  · intro horder
    by_contra hge
    rcases (not_lt.mp hge).lt_or_eq with hgt | rfl
    · have habove := (hrounds.value_lt hgt).trans hlt
      rw [hpower] at habove
      have := (zpow_lt_zpow_iff_right₀ (by norm_num)).mp habove
      omega
    · rw [shortest_plainPattern] at horder
      exact absurd horder (by decide)
  · intro hlt
    have hbelow := hle.trans_lt (hrounds.lt_value hlt)
    rw [hpower] at hbelow
    exact (zpow_lt_zpow_iff_right₀ (by norm_num)).mp hbelow

end Order

/-- A numeral is the text of a double, and it is a whole number in the range where such numbers wrap
    and have no exponent yet. -/
structure WrittenAs (x : Double) (n : Numeral) : Prop where
  text : x.write numberLayout = String.ofList (withSign x.isNegative n.text)
  rounds : Format.double.Rounds n.value x.magnitude
  lt_of_isWhole : n.IsWhole → x.magnitude < plainPattern
  isWhole : wordPattern ≤ x.magnitude → x.magnitude < plainPattern → n.IsWhole
  value_eq : x.magnitude = wordPattern → n.value = 9223372036854776000

theorem rounds_zero : Format.double.Rounds 0 0 := by
  have hvalue := Format.value_zero (f := Format.double)
  have hnext := Format.double.value_strictMono Nat.one_pos
  refine ⟨?_, ?_, fun _ => rfl⟩
  · rw [hvalue]
    norm_num
  · rw [hvalue] at hnext ⊢
    linarith

theorem exists_writtenAs_of_isZero {x : Double} (hzero : x.isZero = true) :
    ∃ n, WrittenAs x n := by
  have hmagnitude : x.magnitude = 0 := of_decide_eq_true hzero
  obtain ⟨n, htext, hdigits, -, -⟩ := numberLayout.exists_zero
  refine ⟨n, ?_, ?_, ?_, ?_, ?_⟩
  · rw [Double.write_eq_of_isZero hzero, htext]
  · rw [hmagnitude, Numeral.value, hdigits, Nat.cast_zero, zero_mul]
    exact rounds_zero
  · intro _
    rw [hmagnitude]
    decide
  · intro hge
    rw [hmagnitude] at hge
    exact absurd hge (by decide)
  · intro heq
    rw [hmagnitude] at heq
    exact absurd heq (by decide)

theorem exists_writtenAs {x : Double} (hx : x.isFinite = true) : ∃ n, WrittenAs x n := by
  have hfinite : x.magnitude < Format.double.infinity := of_decide_eq_true hx
  cases hzero : x.isZero with
  | true => exact exists_writtenAs_of_isZero hzero
  | false =>
    have hpos : 0 < x.magnitude := Nat.pos_of_ne_zero (of_decide_eq_false hzero)
    have horder := order_shortest_lt_iff hpos hfinite
    obtain ⟨n, htext, hvalue, -, hwhole⟩ :=
      numberLayout.exists_numeral (Format.double.shortest x.magnitude)
    refine ⟨n, ?_, ?_, ?_, ?_, ?_⟩
    · rw [Double.write_eq_of_not_isZero hzero, htext]
    · rw [hvalue]
      exact rounds_shortest hpos hfinite
    · intro hn
      exact horder.mp (hwhole.mp hn).1.2
    · intro hge hlt
      have hlarge : (2 : ℚ) ^ (63 : Int) ≤ Format.double.value x.magnitude := by
        have hmono := Format.double.value_strictMono.monotone hge
        rw [value_wordPattern] at hmono
        exact_mod_cast hmono
      have hexponent := exponent_shortest_nonneg hpos hfinite hlarge
      have hlength := List.length_pos_of_ne_nil
        (digitText_ne_nil (Format.double.shortest x.magnitude).digits)
      refine hwhole.mpr ⟨⟨?_, horder.mpr hlt⟩, hexponent, rfl⟩
      rw [numberLayout, Decimal.order]
      simp only
      omega
    · intro heq
      rw [hvalue, heq, shortest_wordPattern, Decimal.value]
      norm_num

namespace WrittenAs

variable {x : Double} {n : Numeral} (h : WrittenAs x n)
include h

theorem numberValue_of_isWhole (hn : n.IsWhole) : numberValue (x.write numberLayout) =
    .ok (.int (Int64.ofInt (signed x.isNegative n.digits))) := by
  apply numberValue_eq
  rw [h.text, String.toList_ofList, (n.integer?_text x.isNegative).1 hn]

theorem numberValue_of_not_isWhole (hx : x.isFinite = true) (hn : ¬ n.IsWhole) :
    numberValue (x.write numberLayout) = .ok (.double x) := by
  have hread := Double.read?_write hx numberLayout
  have hinteger : integer? (x.write numberLayout).toList = none := by
    rw [h.text, String.toList_ofList, (n.integer?_text x.isNegative).2 hn]
  exact numberValue_of_double hinteger hread

theorem readsAs (hx : x.isFinite = true) :
    ReadsAs (withSign x.isNegative n.text) (.number (x.write numberLayout)) := by
  have hnumber := isNumber_of_read? (Double.read?_write hx numberLayout) hx
  rw [h.text] at hnumber ⊢
  rw [String.toList_ofList] at hnumber
  exact readsAs_numeral n x.isNegative hnumber

theorem rounds_digits (hn : n.IsWhole) : Format.double.Rounds n.digits x.magnitude := by
  have hrounds := h.rounds
  rwa [hn.value_eq] at hrounds

/-- Below `2 ^ 63` nothing wraps, and the whole number is rounded back. -/
theorem orderKey_of_lt (hn : n.IsWhole) (hlt : x.magnitude < wordPattern) :
    (Double.ofInt (Int64.ofInt (signed x.isNegative n.digits)).toInt).orderKey = x.orderKey := by
  have hrounds := h.rounds_digits hn
  have hsmall : n.digits < 2 ^ 63 := by
    have hvalue := hrounds.lt_value hlt
    rw [value_wordPattern] at hvalue
    exact_mod_cast hvalue
  have hint : (Int64.ofInt (signed x.isNegative n.digits)).toInt =
      signed x.isNegative n.digits := by
    rw [signed]
    split
    · exact Int64.toInt_ofInt_of_le (by omega) (by omega)
    · exact Int64.toInt_ofInt_of_le (by omega) (by omega)
  have habs := natAbs_signed x.isNegative n.digits
  rw [hint, Double.orderKey_ofInt (by omega), Double.orderKey_eq, habs]
  rcases Nat.eq_zero_or_pos n.digits with hzero | hpos
  · -- only zero is rounded to zero
    have hmagnitude : x.magnitude = 0 := by
      by_contra hne
      have hlt := hrounds.value_lt (Nat.pos_of_ne_zero hne)
      rw [Format.value_zero, hzero] at hlt
      exact absurd hlt (lt_irrefl 0)
    have hround : Format.double.round 0 1 = 0 := rfl
    rw [hzero, hmagnitude, hround]
    cases x.isNegative <;> rfl
  · have hround : Format.double.round n.digits 1 = x.magnitude := by
      refine Format.round_eq_of_rounds (f := Format.double) (by decide) hpos Nat.one_pos ?_ ?_
      · exact (hlt.trans (by decide)).le
      · rwa [Nat.cast_one, div_one]
    have hsign : decide (signed x.isNegative n.digits < 0) = x.isNegative := by
      cases x.isNegative with
      | true => exact decide_eq_true (by rw [signed, if_pos rfl]; omega)
      | false => exact decide_eq_false (by rw [signed, if_neg Bool.false_ne_true]; omega)
    rw [hround, hsign]

/-- From `2 ^ 63` on the wrapped number has another size or another sign. -/
theorem orderKey_ne_of_le (hn : n.IsWhole) (hle : wordPattern ≤ x.magnitude) :
    (Double.ofInt (Int64.ofInt (signed x.isNegative n.digits)).toInt).orderKey ≠ x.orderKey := by
  have habs := natAbs_toInt_le (Int64.ofInt (signed x.isNegative n.digits))
  have hround := round_le_wordPattern habs
  have hpos : 0 < wordPattern := by decide
  rw [Double.orderKey_ofInt habs, Double.orderKey_eq]
  intro hkey
  have hmagnitude := congrArg Int.natAbs hkey
  rw [natAbs_signed, natAbs_signed] at hmagnitude
  -- nothing that fits is rounded to more than the least number that does not
  have heq : x.magnitude = wordPattern := by omega
  have hdigits : n.digits = 9223372036854776000 := by
    have hvalue := h.value_eq heq
    rw [hn.value_eq] at hvalue
    exact_mod_cast hvalue
  rw [hmagnitude, hdigits, heq] at hkey
  cases hneg : x.isNegative with
  | true =>
    rw [hneg] at hkey
    exact absurd hkey (by decide)
  | false =>
    rw [hneg] at hkey
    exact absurd hkey (by decide)

end WrittenAs

theorem encode_double (s : Store) {x : Double} (hx : x.isFinite = true) :
    encode s (.double x) = .ok (x.write numberLayout) := by
  have hdocument : encode s (.double x) = .ok (String.ofList (writeDouble x)) := rfl
  rw [hdocument, writeDouble, if_pos hx, String.ofList_toList]

theorem decode_eq_of_readsAs {document : List Char} {d : HostData} (h : ReadsAs document d)
    (s : Store) : decode (String.ofList document) s = d.toValue s := by
  rw [decode, read?_of_readsAs h]

/-- The document of a finite double is read as a value that equals it, unless the double lies in the
    range where its text is a whole number that wraps. -/
theorem decoded_double_equal_iff (s : Store) {x : Double} (hx : x.isFinite = true) :
    ∃ document w, encode s (.double x) = .ok document ∧ decode document s = .ok (w, s) ∧
      (s.equal? w (.double x) = some true ↔ ¬ (2 ^ 63 ≤ |x.value| ∧ |x.value| < 10 ^ 21)) := by
  obtain ⟨n, h⟩ := exists_writtenAs hx
  have hrange : (2 ^ 63 ≤ |x.value| ∧ |x.value| < 10 ^ 21) ↔
      (wordPattern ≤ x.magnitude ∧ x.magnitude < plainPattern) := by
    have hmono := Format.double.value_strictMono
    rw [x.abs_value, ← value_wordPattern, ← value_plainPattern, hmono.le_iff_le, hmono.lt_iff_lt]
  have hdecode := decode_eq_of_readsAs (h.readsAs hx) s
  rw [← h.text, HostData.toValue] at hdecode
  rw [hrange]
  by_cases hn : n.IsWhole
  · rw [h.numberValue_of_isWhole hn] at hdecode
    refine ⟨_, _, encode_double s hx, hdecode, ?_⟩
    have hint := natAbs_toInt_le (Int64.ofInt (signed x.isNegative n.digits))
    have hequals : s.equal? (.int (Int64.ofInt (signed x.isNegative n.digits))) (.double x) =
        some ((Double.ofInt (Int64.ofInt (signed x.isNegative n.digits)).toInt).equals x) := by
      simp [Store.equal?, Store.equalWithin]
    rw [hequals, Option.some_inj, Double.equals_iff (Double.isFinite_ofInt hint) hx]
    constructor
    · intro hkey hwraps
      exact h.orderKey_ne_of_le hn hwraps.1 hkey
    · intro hwraps
      have hlt := h.lt_of_isWhole hn
      apply h.orderKey_of_lt hn
      omega
  · rw [h.numberValue_of_not_isWhole hx hn] at hdecode
    refine ⟨_, _, encode_double s hx, hdecode, ?_⟩
    have hequals : s.equal? (.double x) (.double x) = some true := by
      simp [Store.equal?, Store.equalWithin, Double.equals_self hx]
    have hwraps : ¬ (wordPattern ≤ x.magnitude ∧ x.magnitude < plainPattern) :=
      fun hwraps => hn (h.isWhole hwraps.1 hwraps.2)
    exact iff_of_true hequals hwraps

/-- One tenth, which is written with a point. -/
def tenth : Double := ⟨0x3FB999999999999A⟩

theorem decoded_double_equal_iff_tenth :
    tenth.isFinite = true ∧
      ∃ document w, encode {} (.double tenth) = .ok document ∧
        decode document {} = .ok (w, {}) ∧
        (Store.equal? {} w (.double tenth) = some true ↔
          ¬ (2 ^ 63 ≤ |tenth.value| ∧ |tenth.value| < 10 ^ 21)) :=
  ⟨by decide, decoded_double_equal_iff {} (by decide)⟩

/-- A hundred quintillions, which are written without a point and without an exponent. -/
def hundredQuintillions : Double := ⟨0x4415AF1D78B58C40⟩

theorem decoded_hundredQuintillions :
    encode {} (.double hundredQuintillions) = .ok "100000000000000000000" ∧
      decode "100000000000000000000" {} = .ok (.int 7766279631452241920, {}) ∧
      Store.equal? {} (.int 7766279631452241920) (.double hundredQuintillions) = some false := by
  have hwrite : hundredQuintillions.write numberLayout = "100000000000000000000" := by
    decide +kernel
  have hread := readsAs_number (c := '1') (.inr rfl) (List.forall_mem_replicate.mpr (.inr rfl))
    (by decide +kernel : isNumber ('1' :: List.replicate 20 '0') = true)
  have hdecode := decode_eq_of_readsAs hread {}
  have htext : String.ofList ('1' :: List.replicate 20 '0') = "100000000000000000000" := by
    decide +kernel
  have hinteger : integer? "100000000000000000000".toList = some 100000000000000000000 := by
    decide +kernel
  rw [htext, HostData.toValue, numberValue_eq hinteger] at hdecode
  exact ⟨by rw [encode_double {} (by decide), hwrite], hdecode, by decide +kernel⟩

end Json

end ExprLang
