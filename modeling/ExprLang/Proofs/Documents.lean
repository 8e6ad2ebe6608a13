import ExprLang.Cbor.Reader
import ExprLang.Json.Reader
import ExprLang.Proofs.WellFormed

/-!
# The data of documents

Whatever a document says, the data that are read from it are raw: no value is in them that was there
before (`Json.values_of_read?`, `Cbor.values_of_read?`).
-/

namespace ExprLang

theorem lastOfEach_sublist {κ α : Type} (same : κ → κ → Bool) (entries : List (κ × α)) :
    (lastOfEach same entries).Sublist entries := by
  induction entries with
  | nil => exact .slnil
  | cons entry entries ih =>
    obtain ⟨key, a⟩ := entry
    rw [lastOfEach]
    split
    · exact ih.cons _
    · exact ih.cons_cons _

namespace HostData

theorem valuesOfEntries_sublist {entries others : List (Text × HostData)}
    (h : entries.Sublist others) : (valuesOfEntries entries).Sublist (valuesOfEntries others) := by
  induction h with
  | slnil => exact .slnil
  | cons entry _ ih =>
    rw [valuesOfEntries]
    exact ih.trans (List.sublist_append_right _ _)
  | cons_cons entry _ ih =>
    rw [valuesOfEntries, valuesOfEntries]
    exact ih.append_left _

end HostData

namespace Json

open HostData

mutual

theorem values_readValue : ∀ {cs : List Char} {p : Parsed HostData cs},
    readValue cs = some p → p.value.values = []
  | [], p, h => by
    rw [readValue.eq_def] at h
    cases h
  | c :: rest, p, h => by
    rw [readValue.eq_def] at h
    dsimp only at h
    split at h
    · -- a map
      split at h
      · cases h
      next d others hs =>
      have hl := hs ▸ length_skipBlanks rest
      split at h
      · cases h
        rfl
      · obtain ⟨entries, hentries, hp⟩ := Option.bind_eq_some_iff.mp h
        cases hp
        have hsub := valuesOfEntries_sublist (lastOfEach_sublist (· = ·) entries.value)
        rw [values_readEntries hentries] at hsub
        exact List.sublist_nil.mp hsub
    split at h
    · -- a list
      split at h
      · cases h
      next d others hs =>
      have hl := hs ▸ length_skipBlanks rest
      split at h
      · cases h
        rfl
      · obtain ⟨items, hitems, hp⟩ := Option.bind_eq_some_iff.mp h
        cases hp
        exact values_readItems hitems
    -- all that is left are scalars
    repeat' split at h
    all_goals cases h
    all_goals rfl
termination_by cs => 2 * cs.length
decreasing_by all_goals simp only [List.length_cons] at *; omega

theorem values_readItems : ∀ {cs : List Char} {p : Parsed (List HostData) cs},
    readItems cs = some p → valuesOfItems p.value = []
  | cs, p, h => by
    rw [readItems.eq_def] at h
    obtain ⟨item, hitem, h⟩ := Option.bind_eq_some_iff.mp h
    have hfirst := values_readValue hitem
    split at h
    · cases h
    next c others hs =>
    have hl := hs ▸ length_skipBlanks item.rest
    have hshorter := item.shorter
    split at h
    · cases h
      exact List.append_eq_nil_iff.mpr ⟨hfirst, rfl⟩
    split at h
    · have hk := length_skipBlanks others
      obtain ⟨items, hitems, hp⟩ := Option.bind_eq_some_iff.mp h
      cases hp
      exact List.append_eq_nil_iff.mpr ⟨hfirst, values_readItems hitems⟩
    · cases h
termination_by cs => 2 * cs.length + 1
decreasing_by all_goals (try simp only [List.length_cons] at *); omega

theorem values_readEntries : ∀ {cs : List Char} {p : Parsed (List (Text × HostData)) cs},
    readEntries cs = some p → valuesOfEntries p.value = []
  | [], p, h => by
    rw [readEntries.eq_def] at h
    cases h
  | q :: rest, p, h => by
    rw [readEntries.eq_def] at h
    dsimp only at h
    split at h
    · split at h
      · cases h
      next key n _ =>
      split at h
      · cases h
      next colon after hc =>
      have hl := hc ▸ length_skipBlanks (rest.drop n)
      split at h
      · have hk := length_skipBlanks after
        obtain ⟨item, hitem, h⟩ := Option.bind_eq_some_iff.mp h
        have hfirst := values_readValue hitem
        split at h
        · cases h
        next c others hs =>
        have hm := hs ▸ length_skipBlanks item.rest
        have hshorter := item.shorter
        split at h
        · cases h
          exact List.append_eq_nil_iff.mpr ⟨hfirst, rfl⟩
        split at h
        · have hb := length_skipBlanks others
          obtain ⟨entries, hentries, hp⟩ := Option.bind_eq_some_iff.mp h
          cases hp
          exact List.append_eq_nil_iff.mpr ⟨hfirst, values_readEntries hentries⟩
        · cases h
      · cases h
    · cases h
termination_by cs => 2 * cs.length + 1
decreasing_by all_goals simp only [List.length_drop, List.length_cons] at *; omega

end

theorem values_of_read? {document : String} {x : HostData} (h : read? document = some x) :
    x.values = [] := by
  obtain ⟨p, hp, rfl⟩ := Option.map_eq_some_iff.mp h
  exact values_readValue hp

theorem decode_of_read? {document : String} {x : HostData} (h : read? document = some x) :
    decode document = x.toValue := by
  rw [decode, h]

theorem read?_of_decode {document : String} {s t : Store} {v : Value}
    (h : decode document s = .ok (v, t)) :
    ∃ x, read? document = some x ∧ x.toValue s = .ok (v, t) := by
  cases hx : read? document with
  | none =>
    rw [decode, hx] at h
    cases h
  | some x =>
    rw [decode_of_read? hx] at h
    exact ⟨x, rfl, h⟩

end Json

namespace Cbor

open HostData

mutual

theorem Item.values_toHostData : ∀ item : Item, item.toHostData.values = []
  | .int n => by
    rw [Item.toHostData]
    split <;> rfl
  | .bignum _ | .bytes _ | .text _ | .bool _ | .null | .simple | .double _ | .time | .tagged _ => by
    rw [Item.toHostData]
    rfl
  | .list items => by rw [Item.toHostData, HostData.values, values_listData items]
  | .map entries => by rw [Item.toHostData, HostData.values, values_entryData entries]

theorem values_listData : ∀ items : List Item, valuesOfItems (listData items) = []
  | [] => by
    rw [listData]
    rfl
  | item :: items => by
    rw [listData, valuesOfItems, item.values_toHostData, values_listData items]
    rfl

theorem values_entryData : ∀ entries : List (Item × Item), valuesOfPairs (entryData entries) = []
  | [] => by
    rw [entryData]
    rfl
  | (k, v) :: entries => by
    have hkey : k.keyData.values = [] := by
      rw [Item.keyData.eq_def]
      split
      · rfl
      · exact k.values_toHostData
    rw [entryData, valuesOfPairs, hkey, v.values_toHostData, values_entryData entries]
    rfl

end

theorem values_of_read? {document : List UInt8} {x : HostData} (h : read? document = some x) :
    x.values = [] := by
  rw [read?] at h
  repeat' split at h
  all_goals cases h
  exact Item.values_toHostData _

theorem decode_of_read? {document : List UInt8} {x : HostData} (h : read? document = some x) :
    decode document = x.toValue := by
  rw [decode, h]

theorem read?_of_decode {document : List UInt8} {s t : Store} {v : Value}
    (h : decode document s = .ok (v, t)) :
    ∃ x, read? document = some x ∧ x.toValue s = .ok (v, t) := by
  cases hx : read? document with
  | none =>
    rw [decode, hx] at h
    cases h
  | some x =>
    rw [decode_of_read? hx] at h
    exact ⟨x, rfl, h⟩

end Cbor

end ExprLang
