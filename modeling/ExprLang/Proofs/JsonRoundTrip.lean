import ExprLang.Proofs.Encoding
import ExprLang.Proofs.HostValues
import ExprLang.Proofs.JsonReading
import ExprLang.Proofs.Numbers.Residues

/-!
# Reading back what was written as JSON

Every document is read as the data that it was written of, except that numbers stay as they are
written until they become values. `decode_of_encode` says that a value without doubles, all texts of
which are texts of characters, comes back as an equal value.
-/

namespace ExprLang.Json

theorem numberValue_toString (n : Int64) : numberValue (toString n.toInt) = .ok (.int n) := by
  rw [numberValue_eq (Number.integer?_toString _), Int64.ofInt_toInt]

/-- A member of a map is read as an entry that stands for it. -/
structure ReadsMember (entry : Text × Data) (read : Text × HostData) : Prop where
  key : entry.1 = read.1
  reads : ReadsEntry (writeEntry entry) read
  means : read.2.Means entry.2

section Map

variable {entries : List (Text × Data)} {read : List (Text × HostData)}
  (h : List.Forall₂ ReadsMember entries read) (hnodup : (entries.map Prod.fst).Nodup)
include h

theorem map_fst_read : read.map Prod.fst = entries.map Prod.fst := by
  symm
  rw [← List.forall₂_eq_eq_eq, List.forall₂_map_left_iff, List.forall₂_map_right_iff]
  exact h.imp fun _ _ hread => hread.key

include hnodup

theorem readsAs_write_map : ReadsAs (write (.map entries)) (.map read) := by
  have hlast : lastOfEach (· = ·) read = read := by
    apply lastOfEach_eq_self
    rw [← map_fst_read h, List.Nodup, List.pairwise_map] at hnodup
    apply hnodup.imp
    intro a b hne
    exact decide_eq_false hne.symm
  have hmap := readsAs_map (List.forall₂_map_left_iff.mpr (h.imp fun _ _ hread => hread.reads))
  rw [hlast] at hmap
  rw [write, writeEntries_eq_map]
  exact hmap

theorem means_map : (HostData.map read).Means (.map entries) := by
  apply HostData.Means.map
  · rw [map_fst_read h]
  · intro key x d hx hd
    obtain ⟨entry, hentry, hread⟩ := exists_of_forall₂ h.flip hx
    cases List.inj_on_of_nodup_map hnodup hentry hd hread.key
    exact hread.means

end Map

/-- Written data without doubles is read as data that stands for it. -/
theorem exists_readsAs {s : Store} {v : Value} {d : Data} (h : s.Holds v d)
    (hkeys : d.AllKeys List.Nodup) (hunicode : d.Unicode) :
    ∃ x, ReadsAs (write d) x ∧ x.Means d := by
  induction d using Data.induct generalizing v with
  | int n => exact ⟨_, readsAs_int n, .number (numberValue_toString n)⟩
  | double x => cases h
  | text t =>
    obtain _ | _ | ⟨t, rfl⟩ := hunicode
    exact ⟨_, readsAs_text t, .text t⟩
  | list items ih =>
    obtain _ | _ | ⟨_, hitems⟩ | _ := h
    obtain _ | _ | _ | hinner | _ := hkeys
    obtain _ | _ | _ | hunicode | _ := hunicode
    have hall : ∀ item ∈ items, ∃ x, ReadsAs (write item) x ∧ x.Means item := by
      intro item hitem
      obtain ⟨w, -, hw⟩ := exists_of_forall₂ hitems.flip hitem
      exact ih item hitem hw (hinner item hitem) (hunicode item hitem)
    obtain ⟨read, hread⟩ := exists_forall₂ hall
    refine ⟨.list read, ?_, .list (hread.imp fun _ _ h => h.2).flip⟩
    rw [write, writeItems_eq_map]
    exact readsAs_list (List.forall₂_map_left_iff.mpr (hread.imp fun _ _ h => h.1))
  | map entries ih =>
    obtain _ | _ | _ | ⟨_, _, _, hitems⟩ := h
    obtain _ | _ | _ | _ | ⟨hnodup, hinner⟩ := hkeys
    obtain _ | _ | _ | _ | ⟨hnames, hunicode⟩ := hunicode
    have hall : ∀ entry ∈ entries, ∃ read, ReadsMember entry read := by
      intro entry hentry
      have hitem : entry.2 ∈ entries.map Prod.snd := List.mem_map_of_mem hentry
      obtain ⟨w, -, hw⟩ := exists_of_forall₂ hitems.flip hitem
      obtain ⟨x, hread, hmeans⟩ := ih entry.2 hitem hw (hinner entry.2 hitem) (hunicode _ hitem)
      have hname := hnames entry.1 (List.mem_map_of_mem hentry)
      exact ⟨(entry.1, x), rfl, ⟨hname, write entry.2, rfl, hread⟩, hmeans⟩
    obtain ⟨read, hread⟩ := exists_forall₂ hall
    exact ⟨_, readsAs_write_map hread hnodup, means_map hread hnodup⟩

/-- The document of a value without doubles, whose texts are texts of characters, is read back as an
    equal value of the same kinds, with the members of every object in the order of their keys. -/
theorem decode_of_encode {s : Store} {v : Value} {d : Data} (h : s.Holds v d)
    (hunicode : d.Unicode) :
    ∃ document w t, encode s v = .ok document ∧ decode document s = .ok (w, t) ∧
      t.equal? w v = some true ∧
      ∃ d', t.Holds w d' ∧ d.Alike d' ∧ d'.AllKeys Ascending := by
  have hkeys := h.allKeys_nodup
  obtain ⟨x, hread, hmeans⟩ := exists_readsAs h hkeys hunicode
  obtain ⟨w, t, hw, hst, d', hholds, halike, hordered⟩ := hmeans.makes hkeys s
  refine ⟨String.ofList (write d), w, t, ?_, ?_, ?_, d', hholds, halike, hordered⟩
  · rw [encode_eq, h.data_eq]
    rfl
  · rw [decode, read?_of_readsAs hread]
    exact hw
  · exact hholds.equal?_of_alike (h.mono hst) halike.symm

/-- A record with texts that are written with escapes, whose keys are not in order. -/
def letter : Store where
  arrays := #[#[.text "<\n\u2028", .int (-7)]]
  objects := #[.ofList [("to", .array 0), ("re", .text "\"é\"")]]

def letterData : Data := .map [("to", .list [.text "<\n\u2028", .int (-7)]), ("re", .text "\"é\"")]

theorem holds_letter : letter.Holds (.object 0) letterData := by
  have harray : letter.Holds (.array 0) (.list [.text "<\n\u2028", .int (-7)]) :=
    .array rfl (.cons (.text _) (.cons (.int (-7)) .nil))
  exact .object rfl (.ofList _) rfl (.cons harray (.cons (.text _) .nil))

theorem unicode_letterData : letterData.Unicode := by
  have hlist : (Data.list [.text "<\n\u2028", .int (-7)]).Unicode := by
    refine .list ?_
    rw [List.forall_mem_cons, List.forall_mem_singleton]
    exact ⟨.text ⟨_, rfl⟩, .int _⟩
  refine .map ?_ ?_
  · rw [List.map_cons, List.map_cons, List.map_nil, List.forall_mem_cons, List.forall_mem_singleton]
    exact ⟨⟨"to", rfl⟩, ⟨"re", rfl⟩⟩
  · rw [List.map_cons, List.map_cons, List.map_nil, List.forall_mem_cons, List.forall_mem_singleton]
    exact ⟨hlist, .text ⟨_, rfl⟩⟩

theorem decode_of_encode_letter :
    letter.Holds (.object 0) letterData ∧ letterData.Unicode ∧
      ∃ document w t, encode letter (.object 0) = .ok document ∧
        decode document letter = .ok (w, t) ∧ t.equal? w (.object 0) = some true ∧
        ∃ d', t.Holds w d' ∧ letterData.Alike d' ∧ d'.AllKeys Ascending :=
  ⟨holds_letter, unicode_letterData, decode_of_encode holds_letter unicode_letterData⟩

end ExprLang.Json
