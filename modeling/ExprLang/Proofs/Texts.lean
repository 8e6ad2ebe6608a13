import ExprLang.Text
import Mathlib.Data.List.Basic

/-!
# Texts of characters

The texts of characters among all texts: each has one string, joining strings joins their texts,
reading the text gives the characters back, and the order of the bytes is that of the characters'
codes.
-/

namespace ExprLang.Text

theorem ext_bytes {t u : Text} (h : t.bytes = u.bytes) : t = u := by
  cases t
  cases u
  exact congrArg Text.mk h

theorem bytes_append (t u : Text) : (t ++ u).bytes = t.bytes ++ u.bytes := rfl

theorem append_assoc (t u v : Text) : t ++ u ++ v = t ++ (u ++ v) :=
  ext_bytes (List.append_assoc ..)

theorem empty_append (t : Text) : (("" : String) : Text) ++ t = t :=
  ext_bytes (List.nil_append _)

theorem join_cons_cons (separator t u : Text) (rest : List Text) :
    join separator (t :: u :: rest) = t ++ separator ++ join separator (u :: rest) := by
  apply ext_bytes
  simp only [join, bytes_append, List.map_cons, List.intercalate_cons_cons, List.append_assoc]

theorem join_singleton (separator t : Text) : join separator [t] = t := by
  rw [join, List.map_singleton, List.intercalate_singleton]

/-! ## Characters -/

/-- The text of some characters. -/
def ofChars (cs : List Char) : Text := ofString (String.ofList cs)

theorem bytes_ofChars (cs : List Char) : (ofChars cs).bytes = cs.flatMap String.utf8EncodeChar := by
  show (String.ofList cs).toByteArray.data.toList = _
  rw [String.toByteArray_ofList, List.utf8Encode, List.data_toByteArray]

theorem ofChars_toList (s : String) : ofChars s.toList = s := by
  rw [ofChars, String.ofList_toList]

theorem ofChars_append (cs cs' : List Char) : ofChars (cs ++ cs') = ofChars cs ++ ofChars cs' := by
  apply ext_bytes
  simp only [bytes_append, bytes_ofChars, List.flatMap_append]

theorem join_ofChars (separator : List Char) (css : List (List Char)) :
    join (ofChars separator) (css.map ofChars) = ofChars (separator.intercalate css) := by
  induction css with
  | nil => rfl
  | cons cs css ih =>
    cases css with
    | nil => rw [List.map_singleton, join_singleton, List.intercalate_singleton]
    | cons cs' css =>
      rw [List.map_cons, List.map_cons, join_cons_cons, ← List.map_cons, ih,
        List.intercalate_cons_cons, ofChars_append, ofChars_append]

theorem ofString_injective {s s' : String} (h : ofString s = ofString s') : s = s' := by
  have hdata : s.toUTF8.data = s'.toUTF8.data := by simpa [ofString] using h
  exact String.toByteArray_inj.1 (ByteArray.ext hdata)

@[simp] theorem ofString_inj {s s' : String} : ofString s = ofString s' ↔ s = s' :=
  ⟨ofString_injective, congrArg ofString⟩

/-- Whether a text is that of some characters. -/
def IsUnicode (t : Text) : Prop := ∃ s : String, t = s

/-! ## Reading -/

theorem toString?_ofString (s : String) : (ofString s).toString? = some s := by
  have hbytes : (⟨(ofString s).bytes.toArray⟩ : ByteArray) = s.toUTF8 := by simp [ofString]
  rw [toString?, hbytes]
  exact dif_pos s.isValidUTF8

theorem toString?_eq_some {t : Text} {s : String} : t.toString? = some s ↔ t = s := by
  constructor
  · intro h
    rw [toString?, String.fromUTF8?] at h
    split at h
    · apply ext_bytes
      rw [← Option.some.inj h]
      rfl
    · cases h
  · rintro rfl
    exact toString?_ofString s

theorem toString?_eq_none {t : Text} : t.toString? = none ↔ ¬ t.IsUnicode := by
  rw [Option.eq_none_iff_forall_ne_some]
  exact ⟨fun h ⟨s, hs⟩ => h s (toString?_eq_some.mpr hs),
    fun h s hs => h ⟨s, toString?_eq_some.mp hs⟩⟩

theorem scan_append (bs rest : List UInt8) : scan bs.length (bs ++ rest) = scan 0 rest := by
  induction bs with
  | nil => rfl
  | cons b bs ih => exact ih

/-- A character is read first from its bytes, whatever follows them. -/
theorem scan_utf8EncodeChar_append (c : Char) (rest : List UInt8) :
    scan 0 (String.utf8EncodeChar c ++ rest) = some c :: scan 0 rest := by
  obtain ⟨b, bs, hc⟩ := List.exists_cons_of_ne_nil (String.utf8EncodeChar_ne_nil (c := c))
  have hsize := String.length_utf8EncodeChar c
  rw [hc, List.length_cons] at hsize
  have hfour := c.utf8Size_le_four
  have htake : (bs ++ rest).take 3 = bs ++ rest.take (3 - bs.length) := by
    rw [List.take_append, List.take_of_length_le (by omega)]
  have hread : ByteArray.utf8DecodeChar? ⟨(b :: (bs ++ rest).take 3).toArray⟩ 0 = some c := by
    have hbytes : (⟨(b :: (bs ++ rest).take 3).toArray⟩ : ByteArray) =
        (String.utf8EncodeChar c).toByteArray ++ (rest.take (3 - bs.length)).toByteArray := by
      rw [htake, hc, ← List.toByteArray_append]
      exact ByteArray.ext List.data_toByteArray.symm
    rw [hbytes, ByteArray.utf8DecodeChar?_utf8EncodeChar_append]
  have hskip : scan (c.utf8Size - 1) (bs ++ rest) = scan 0 rest := by
    rw [← hsize, Nat.add_sub_cancel, scan_append]
  simp only [hc, List.cons_append, scan, hread, hskip]

theorem chars_ofChars (cs : List Char) : (ofChars cs).chars = cs.map some := by
  rw [chars, bytes_ofChars]
  induction cs with
  | nil => rfl
  | cons c cs ih => rw [List.flatMap_cons, scan_utf8EncodeChar_append, ih, List.map_cons]

theorem chars_ofString (s : String) : (ofString s).chars = s.toList.map some := by
  rw [← ofChars_toList, chars_ofChars]

@[simp] theorem mended_ofString (s : String) : (ofString s).mended = s := by
  have hsome : ((fun c? : Option Char => c?.getD replacement) ∘ some) = id := rfl
  rw [mended, chars_ofString, List.map_map, hsome, List.map_id, String.ofList_toList]

/-! ## Order -/

theorem le_total (t u : Text) : t ≤ u ∨ u ≤ t := List.le_total t.bytes u.bytes

theorem le_refl (t : Text) : t ≤ t := List.le_refl t.bytes

theorem le_trans {t u v : Text} (h : t ≤ u) (h' : u ≤ v) : t ≤ v :=
  List.le_trans (show t.bytes ≤ u.bytes from h) h'

theorem le_antisymm {t u : Text} (h : t ≤ u) (h' : u ≤ t) : t = u :=
  ext_bytes (List.le_antisymm h h')

theorem not_lt {t u : Text} : ¬ t < u ↔ u ≤ t := List.not_lt

theorem lt_irrefl (t : Text) : ¬ t < t := List.lt_irrefl t.bytes

theorem lt_trans {t u v : Text} (h : t < u) (h' : u < v) : t < v :=
  List.lt_trans (show t.bytes < u.bytes from h) h'

theorem ne_of_lt {t u : Text} (h : t < u) : t ≠ u := by
  rintro rfl
  exact lt_irrefl t h

theorem lt_of_le_of_ne {t u : Text} (h : t ≤ u) (hne : t ≠ u) : t < u := by
  by_contra hlt
  exact hne (le_antisymm h (not_lt.mp hlt))

/-- The bytes of characters are in the order of the characters, whatever follows them. -/
theorem utf8EncodeChar_append_lt {c d : Char} (h : c < d) (rest rest' : List UInt8) :
    String.utf8EncodeChar c ++ rest < String.utf8EncodeChar d ++ rest' := by
  have hval : c.val.toNat < d.val.toNat := h
  have hmax : d.val.toNat < 0x110000 := by
    have hvalid := d.valid
    simp only [UInt32.isValidChar, Nat.isValidChar] at hvalid
    omega
  -- the digits of a code to the base 64 are what its bytes hold
  have hdigits (v : Nat) : v / 4096 = v / 64 / 64 ∧ v / 262144 = v / 64 / 64 / 64 :=
    ⟨by rw [Nat.div_div_eq_div_mul], by rw [Nat.div_div_eq_div_mul, Nat.div_div_eq_div_mul]⟩
  rw [String.utf8EncodeChar, String.utf8EncodeChar]
  simp only [(hdigits _).1, (hdigits _).2]
  split_ifs <;>
    simp only [List.cons_append, List.cons_lt_cons_iff, UInt8.lt_iff_toNat_lt, ← UInt8.toNat_inj,
      UInt8.toNat_ofNat'] <;>
    omega

theorem ofChars_lt_ofChars {cs ds : List Char} (h : cs < ds) : ofChars cs < ofChars ds := by
  show (ofChars cs).bytes < (ofChars ds).bytes
  rw [bytes_ofChars, bytes_ofChars]
  induction h with
  | @nil d ds =>
    obtain ⟨b, bs, hd⟩ := List.exists_cons_of_ne_nil (String.utf8EncodeChar_ne_nil (c := d))
    rw [List.flatMap_cons, hd]
    exact .nil
  | rel hlt => exact utf8EncodeChar_append_lt hlt _ _
  | cons _ ih => exact List.append_left_lt ih

/-- The order of texts of characters is that of the characters' codes. -/
theorem ofString_lt_ofString {s s' : String} : ofString s < ofString s' ↔ s < s' := by
  have hmono {s s' : String} (h : s < s') : ofString s < ofString s' := by
    rw [← ofChars_toList, ← ofChars_toList s']
    exact ofChars_lt_ofChars h
  refine ⟨fun h => ?_, hmono⟩
  by_contra hnot
  by_cases hlt : s' < s
  · exact lt_irrefl _ (lt_trans h (hmono hlt))
  · rw [String.le_antisymm (String.not_lt.mp hlt) (String.not_lt.mp hnot)] at h
    exact lt_irrefl _ h

end ExprLang.Text
