import ExprLang.Proofs.HostValues
import ExprLang.Proofs.Numbers.Residues

/-!
# The order in which maps are enumerated

A host enumerates the entries of a map in any order. If the keys of every map can be told apart by
their texts, the value does not depend on it (`HostData.toValue_eq_of_reordered`): the entries are
taken in the order of the texts. Keys of different types may have the same text, and then the entry
that comes later counts (`HostData.toValue_sameText`).
-/

namespace ExprLang

/-- Numbers and texts, which say all about themselves. -/
def Value.isScalar : Value → Bool
  | .int _ | .double _ | .text _ => true
  | _ => false

theorem Value.text_of_isScalar {v : Value} (h : v.isScalar = true) (s t : Store) :
    s.text v = t.text v := by
  cases v with
  | int n => rfl
  | double x => rfl
  | text x => rfl
  | _ => cases h

namespace HostData

/-- Data that becomes a number or a text, or has no value at all. -/
def isScalar : HostData → Bool
  | .unsupported _ | .bool _ | .int _ | .unsigned _ | .big _ | .double _ | .text _ | .number _
  | .nilPointer _ => true
  | .pointer target => target.isScalar
  | .value v => v.isScalar
  | _ => false

/-- The text that a key is known by, or why it has none. -/
def keyText (key : HostData) : Except Cause Text :=
  (key.toValue {}).map fun made => made.2.text made.1

/-- Two keys that have no text are refused for the same reason. -/
def SameCause (key key' : HostData) : Prop :=
  ∀ c c', keyText key = .error c → keyText key' = .error c' → c = c'

/-- Two keys are told apart by their texts, or refused for the same reason. -/
structure Distinguished (key key' : HostData) : Prop where
  texts : ∀ t, keyText key = .ok t → keyText key' ≠ .ok t
  causes : SameCause key key'

/-- The keys of every map inside are told apart, whatever the order of its entries is. -/
inductive Unambiguous : HostData → Prop
  | unsupported (type : String) : Unambiguous (.unsupported type)
  | bool (b : Bool) : Unambiguous (.bool b)
  | int (n : Int64) : Unambiguous (.int n)
  | unsigned (n : UInt64) : Unambiguous (.unsigned n)
  | big (n : Int) : Unambiguous (.big n)
  | double (x : Double) : Unambiguous (.double x)
  | text (s : Text) : Unambiguous (.text s)
  | number (written : String) : Unambiguous (.number written)
  | native (f : Native) : Unambiguous (.native f)
  | pointer {target : HostData} (htarget : Unambiguous target) : Unambiguous (.pointer target)
  | nilPointer (type : String) : Unambiguous (.nilPointer type)
  | value (v : Value) : Unambiguous (.value v)
  | list {items : List HostData} (hitems : ∀ item ∈ items, Unambiguous item) :
    Unambiguous (.list items)
  | map {entries : List (Text × HostData)} (hkeys : (entries.map Prod.fst).Nodup)
    (hitems : ∀ item ∈ entries.map Prod.snd, Unambiguous item) : Unambiguous (.map entries)
  | keyedMap {entries : List (HostData × HostData)}
    (hscalar : ∀ key ∈ entries.map Prod.fst, key.isScalar = true)
    (hkeys : (entries.map Prod.fst).Pairwise Distinguished)
    (hitems : ∀ item ∈ entries.map Prod.snd, Unambiguous item) : Unambiguous (.keyedMap entries)

/-- The same data, but for the order in which maps are enumerated. -/
inductive Reordered : HostData → HostData → Prop
  | refl (x : HostData) : Reordered x x
  | pointer {x y : HostData} (htarget : Reordered x y) : Reordered (.pointer x) (.pointer y)
  | list {items items' : List HostData} (hlength : items.length = items'.length)
    (hitems : ∀ x y, (x, y) ∈ items.zip items' → Reordered x y) :
    Reordered (.list items) (.list items')
  | map {entries entries' : List (Text × HostData)}
    (hkeys : (entries.map Prod.fst).Perm (entries'.map Prod.fst))
    (hitems : ∀ key x y, (key, x) ∈ entries → (key, y) ∈ entries' → Reordered x y) :
    Reordered (.map entries) (.map entries')
  | keyedMap {entries entries' : List (HostData × HostData)}
    (hkeys : (entries.map Prod.fst).Perm (entries'.map Prod.fst))
    (hitems : ∀ key x y, (key, x) ∈ entries → (key, y) ∈ entries' → Reordered x y) :
    Reordered (.keyedMap entries) (.keyedMap entries')

/-! ## Keys -/

/-- A scalar is converted without the store. -/
theorem toValue_of_isScalar : ∀ {key : HostData}, key.isScalar = true →
    (∃ c, ∀ s, key.toValue s = .error c) ∨
      ∃ v : Value, v.isScalar = true ∧ ∀ s, key.toValue s = .ok (v, s)
  | .unsupported type, _ | .nilPointer type, _ =>
    .inl ⟨.unsupportedData type, fun s => by rw [toValue]; rfl⟩
  | .bool b, _ => .inr ⟨.ofBool b, rfl, fun s => by rw [toValue]; rfl⟩
  | .int n, _ => .inr ⟨.int n, rfl, fun s => by rw [toValue]; rfl⟩
  | .unsigned n, _ => .inr ⟨.int n.toInt64, rfl, fun s => by rw [toValue]; rfl⟩
  | .big n, _ => .inr ⟨.int (Number.wrapBig n), rfl, fun s => by rw [toValue]; rfl⟩
  | .double x, _ => .inr ⟨.double x, rfl, fun s => by rw [toValue]; rfl⟩
  | .text t, _ => .inr ⟨.text t, rfl, fun s => by rw [toValue]; rfl⟩
  | .number written, _ => by
    cases hinteger : Number.integer? written.toList with
    | some n =>
      refine .inr ⟨.int (Int64.ofInt n), rfl, fun s => ?_⟩
      rw [toValue, numberValue_eq hinteger]
    | none =>
      cases hdouble : Double.read? written with
      | some x =>
        refine .inr ⟨.double x, rfl, fun s => ?_⟩
        rw [toValue, numberValue_of_double hinteger hdouble]
      | none =>
        refine .inl ⟨.unsupportedNumber written, fun s => ?_⟩
        rw [toValue, numberValue_unsupported hinteger hdouble]
  | .pointer target, h => by
    simp only [toValue]
    exact toValue_of_isScalar (show target.isScalar = true from h)
  | .value v, h => .inr ⟨v, h, fun s => by rw [toValue]; rfl⟩

/-- A key without a text ends the conversion of a map, and any other key gives its text. -/
theorem keyTexts_cons {key : HostData} (h : key.isScalar = true) (data : HostData)
    (rest : List (HostData × HostData)) (s : Store) :
    (∃ c, keyText key = .error c ∧ keyTexts ((key, data) :: rest) s = .error c) ∨
      ∃ t, keyText key = .ok t ∧ keyTexts ((key, data) :: rest) s =
        (keyTexts rest >>= fun others => pure ((t, data.toValue) :: others)) s := by
  rcases toValue_of_isScalar h with ⟨c, hc⟩ | ⟨v, hscalar, hv⟩
  · refine .inl ⟨c, by rw [keyText, hc]; rfl, ?_⟩
    rw [keyTexts]
    change Build.andThen key.toValue _ s = _
    rw [Build.andThen, hc]
  · refine .inr ⟨Store.text {} v, by rw [keyText, hv]; rfl, ?_⟩
    have htext : (Build.of fun s => (s.text v, s)) s = .ok (Store.text {} v, s) := by
      rw [Value.text_of_isScalar hscalar {} s]
      rfl
    rw [keyTexts, Build.bind_of_ok (hv s), Build.bind_of_ok htext]

/-- The text of a key that has one. -/
def textOf (key : HostData) : Text := (keyText key).toOption.getD ""

theorem textOf_eq {key : HostData} {t : Text} (h : keyText key = .ok t) : textOf key = t := by
  rw [textOf, h]
  rfl

section Entries

variable {entries : List (HostData × HostData)}
  (hscalar : ∀ key ∈ entries.map Prod.fst, key.isScalar = true) (s : Store)
include hscalar

theorem keyTexts_of_texts (htexts : ∀ key ∈ entries.map Prod.fst, ∃ t, keyText key = .ok t) :
    keyTexts entries s =
      .ok (entries.map fun entry => (textOf entry.1, entry.2.toValue), s) := by
  induction entries with
  | nil => rfl
  | cons entry entries ih =>
    obtain ⟨key, data⟩ := entry
    rw [List.map_cons, List.forall_mem_cons] at hscalar htexts
    obtain ⟨t, ht⟩ := htexts.1
    rcases keyTexts_cons hscalar.1 data entries s with ⟨c, hc, -⟩ | ⟨u, hu, hread⟩
    · rw [hc] at ht
      cases ht
    · rw [hread, Build.bind_of_ok (ih hscalar.2 htexts.2), List.map_cons, textOf_eq hu]
      rfl

theorem keyTexts_of_cause {c : Cause}
    (hcause : ∃ key ∈ entries.map Prod.fst, keyText key = .error c)
    (honly : ∀ key ∈ entries.map Prod.fst, ∀ c', keyText key = .error c' → c' = c) :
    keyTexts entries s = .error c := by
  induction entries with
  | nil =>
    obtain ⟨_, hmem, -⟩ := hcause
    cases hmem
  | cons entry entries ih =>
    obtain ⟨key, data⟩ := entry
    rw [List.map_cons, List.forall_mem_cons] at hscalar honly
    rcases keyTexts_cons hscalar.1 data entries s with ⟨c', hc', hread⟩ | ⟨t, ht, hread⟩
    · rw [hread, honly.1 c' hc']
    · obtain ⟨other, hmem, hother⟩ := hcause
      rcases List.mem_cons.mp hmem with rfl | hmem
      · rw [ht] at hother
        cases hother
      · have hrest := ih hscalar.2 ⟨other, hmem, hother⟩ honly.2
        rw [hread]
        change Build.andThen (keyTexts entries) _ s = _
        rw [Build.andThen, hrest]

end Entries

/-! ## Entries in order -/

/-- Entries of different keys are sorted in one way. -/
theorem sortedByKey_eq_of_perm {α : Type} {as bs : List (Text × α)}
    (hnodup : (as.map Prod.fst).Nodup) (hperm : as.Perm bs) : sortedByKey as = sortedByKey bs := by
  have hsorted := (sortedByKey_perm as).trans (hperm.trans (sortedByKey_perm bs).symm)
  refine hsorted.eq_of_pairwise ?_ (pairwise_sortedByKey as) (pairwise_sortedByKey bs)
  intro a b ha hb hab hba
  have ha := (sortedByKey_perm as).subset ha
  have hb := hperm.symm.subset ((sortedByKey_perm bs).subset hb)
  exact List.inj_on_of_nodup_map hnodup ha hb (Text.le_antisymm hab hba)

/-- Entries of different keys whose values agree key by key. -/
theorem perm_map_of_keys {κ α β : Type} {g : α → β} {as bs : List (κ × α)}
    (hnodup : (as.map Prod.fst).Nodup) (hkeys : (as.map Prod.fst).Perm (bs.map Prod.fst))
    (hvalues : ∀ key x y, (key, x) ∈ as → (key, y) ∈ bs → g x = g y) :
    (as.map fun a => (a.1, g a.2)).Perm (bs.map fun b => (b.1, g b.2)) := by
  have nodup {cs : List (κ × α)} (hcs : (cs.map Prod.fst).Nodup) :
      (cs.map fun c => (c.1, g c.2)).Nodup := by
    apply List.Nodup.of_map Prod.fst
    rwa [List.map_map]
  -- each side has an entry for every key of the other
  have mem {cs ds : List (κ × α)} (hsub : cs.map Prod.fst ⊆ ds.map Prod.fst)
      (hvalues : ∀ key x y, (key, x) ∈ cs → (key, y) ∈ ds → g x = g y) :
      (cs.map fun c => (c.1, g c.2)) ⊆ ds.map fun d => (d.1, g d.2) := by
    intro p hp
    obtain ⟨⟨key, x⟩, hx, rfl⟩ := List.mem_map.mp hp
    obtain ⟨⟨_, y⟩, hy, rfl⟩ := List.mem_map.mp (hsub (List.mem_map_of_mem hx))
    rw [hvalues _ x y hx hy]
    exact List.mem_map_of_mem hy
  rw [List.perm_ext_iff_of_nodup (nodup hnodup) (nodup (hkeys.nodup_iff.mp hnodup))]
  intro p
  constructor
  · exact fun hp => mem hkeys.subset hvalues hp
  · exact fun hp => mem hkeys.symm.subset (fun key x y hx hy => (hvalues key y x hy hx).symm) hp

theorem object_eq_of_perm {as bs : List (Text × Build Value)} (hnodup : (as.map Prod.fst).Nodup)
    (hperm : as.Perm bs) : Build.object as = Build.object bs := by
  rw [Build.object, Build.object, sortedByKey_eq_of_perm hnodup hperm]

theorem toValues_congr {items items' : List HostData}
    (h : List.Forall₂ (fun x y => x.toValue = y.toValue) items items') :
    toValues items = toValues items' := by
  induction h with
  | nil => rfl
  | cons hx _ ih => rw [toValues, toValues, hx, ih]

section KeyedMap

variable {entries entries' : List (HostData × HostData)}
  (hscalar : ∀ key ∈ entries.map Prod.fst, key.isScalar = true)
  (hpairwise : (entries.map Prod.fst).Pairwise Distinguished)
include hpairwise

/-- Keys that all have texts are different and have different texts. -/
theorem nodup_of_texts (htexts : ∀ key ∈ entries.map Prod.fst, ∃ t, keyText key = .ok t) :
    (entries.map Prod.fst).Nodup ∧ ((entries.map Prod.fst).map textOf).Nodup := by
  have hne : (entries.map Prod.fst).Pairwise fun a b => textOf a ≠ textOf b := by
    apply hpairwise.imp_of_mem
    intro a b ha hb hab heq
    obtain ⟨t, ht⟩ := htexts a ha
    obtain ⟨u, hu⟩ := htexts b hb
    rw [textOf_eq ht, textOf_eq hu] at heq
    exact hab.texts t ht (heq ▸ hu)
  constructor
  · exact hne.imp fun h heq => h (congrArg textOf heq)
  · rw [List.Nodup, List.pairwise_map]
    exact hne

/-- Keys that have no text are refused for one reason. -/
theorem cause_eq {key key' : HostData} (hmem : key ∈ entries.map Prod.fst)
    (hmem' : key' ∈ entries.map Prod.fst) {c c' : Cause} (hc : keyText key = .error c)
    (hc' : keyText key' = .error c') : c' = c := by
  have hself : ∀ a ∈ entries.map Prod.fst, SameCause a a := by
    intro a _ c c' ha hb
    rw [ha] at hb
    exact Except.error.inj hb
  have hsame : (entries.map Prod.fst).Pairwise SameCause := hpairwise.imp fun h => h.causes
  have hflip : (entries.map Prod.fst).Pairwise (flip SameCause) :=
    hpairwise.imp fun h c c' ha hb => (h.causes c' c hb ha).symm
  exact (hsame.forall_of_forall_of_flip hself hflip hmem hmem' c c' hc hc').symm

include hscalar

theorem keyedMap_congr (hkeys : (entries.map Prod.fst).Perm (entries'.map Prod.fst))
    (hvalues : ∀ key x y, (key, x) ∈ entries → (key, y) ∈ entries' → x.toValue = y.toValue)
    (s : Store) :
    (keyTexts entries >>= Build.object) s = (keyTexts entries' >>= Build.object) s := by
  have hscalar' : ∀ key ∈ entries'.map Prod.fst, key.isScalar = true :=
    fun key hkey => hscalar key (hkeys.mem_iff.mpr hkey)
  by_cases htexts : ∀ key ∈ entries.map Prod.fst, ∃ t, keyText key = .ok t
  · have htexts' : ∀ key ∈ entries'.map Prod.fst, ∃ t, keyText key = .ok t :=
      fun key hkey => htexts key (hkeys.mem_iff.mpr hkey)
    obtain ⟨hnodup, hnodup'⟩ := nodup_of_texts hpairwise htexts
    have hperm := (perm_map_of_keys hnodup hkeys hvalues).map (Prod.map textOf id)
    rw [List.map_map, List.map_map] at hperm
    rw [Build.bind_of_ok (keyTexts_of_texts hscalar s htexts),
      Build.bind_of_ok (keyTexts_of_texts hscalar' s htexts')]
    refine congrFun (object_eq_of_perm ?_ hperm) s
    rw [List.map_map] at hnodup' ⊢
    exact hnodup'
  · -- one key is refused, and all that are have the same cause
    obtain ⟨key, hkey, hnone⟩ : ∃ key ∈ entries.map Prod.fst, ¬ ∃ t, keyText key = .ok t := by
      simpa using htexts
    cases hcause : keyText key with
    | ok t => exact absurd ⟨t, hcause⟩ hnone
    | error c =>
      have honly : ∀ other ∈ entries.map Prod.fst, ∀ c', keyText other = .error c' → c' = c :=
        fun other hother c' hc' => cause_eq hpairwise hkey hother hcause hc'
      have hread := keyTexts_of_cause hscalar s ⟨key, hkey, hcause⟩ honly
      have hread' := keyTexts_of_cause hscalar' s ⟨key, hkeys.mem_iff.mp hkey, hcause⟩
        fun other hother => honly other (hkeys.mem_iff.mpr hother)
      change Build.andThen (keyTexts entries) _ s = Build.andThen (keyTexts entries') _ s
      rw [Build.andThen, Build.andThen, hread, hread']

end KeyedMap

/-- If the keys of every map can be told apart, the value or failure of data does not depend on the
    order in which maps are enumerated. -/
theorem toValue_eq_of_reordered {x y : HostData} (h : x.Reordered y) (hx : x.Unambiguous) :
    x.toValue = y.toValue := by
  induction h with
  | refl x => rfl
  | pointer _ ih =>
    cases hx with
    | pointer htarget => rw [toValue, toValue, ih htarget]
  | @list items items' hlength _ ih =>
    cases hx with
    | list hitems =>
      have hall : List.Forall₂ (fun x y => x.toValue = y.toValue) items items' :=
        List.forall₂_iff_zip.mpr
          ⟨hlength, fun hab => ih _ _ hab (hitems _ (List.of_mem_zip hab).1)⟩
      rw [toValue, toValue, toValues_congr hall]
  | @map entries entries' hkeys _ ih =>
    cases hx with
    | map hnodup hitems =>
      have hperm := perm_map_of_keys hnodup hkeys fun key x y hx hy =>
        ih key x y hx hy (hitems x (List.mem_map_of_mem hx))
      rw [toValue, toValue, entryValues_eq_map, entryValues_eq_map]
      apply object_eq_of_perm _ hperm
      rwa [List.map_map]
  | @keyedMap entries entries' hkeys _ ih =>
    cases hx with
    | keyedMap hscalar hpairwise hitems =>
      have hvalues : ∀ key x y, (key, x) ∈ entries → (key, y) ∈ entries' →
          x.toValue = y.toValue :=
        fun key x y hx hy => ih key x y hx hy (hitems x (List.mem_map_of_mem hx))
      funext s
      rw [toValue, toValue]
      exact keyedMap_congr hscalar hpairwise hkeys hvalues s

/-- A map of two keys with an inner map, in one order of enumeration. -/
def ordered : HostData :=
  .keyedMap [(.int 2, .text "a"), (.text "1", .map [("p", .bool true), ("q", .list [])])]

/-- The same data, enumerated in another order. -/
def turned : HostData :=
  .keyedMap [(.text "1", .map [("q", .list []), ("p", .bool true)]), (.int 2, .text "a")]

/-- Two entries are the other way round. -/
theorem forall_of_swap {κ α : Type} {R : α → α → Prop} {k k' : κ} {x x' y y' : α} (hk : k ≠ k')
    (hx : R x y) (hx' : R x' y') :
    ∀ key a b, (key, a) ∈ [(k, x), (k', x')] → (key, b) ∈ [(k', y'), (k, y)] → R a b := by
  intro key a b ha hb
  simp only [List.mem_cons, Prod.mk.injEq, List.not_mem_nil, or_false] at ha hb
  rcases ha with ⟨rfl, rfl⟩ | ⟨rfl, rfl⟩
  · rcases hb with ⟨heq, -⟩ | ⟨-, rfl⟩
    · exact absurd heq hk
    · exact hx
  · rcases hb with ⟨-, rfl⟩ | ⟨heq, -⟩
    · exact hx'
    · exact absurd heq.symm hk

theorem ordered_reordered : ordered.Reordered turned := by
  refine .keyedMap (List.Perm.swap (text "1") (int 2) [])
    (forall_of_swap ?_ (.refl _) (.map (List.Perm.swap (Text.ofString "q") "p" []) ?_))
  · intro heq
    cases heq
  · exact forall_of_swap (by decide) (.refl _) (.refl _)

theorem keyText_int (n : Int64) : keyText (.int n) = .ok (toString n.toInt) := by
  rw [keyText, toValue]
  rfl

theorem keyText_text (t : Text) : keyText (.text t) = .ok t := by
  rw [keyText, toValue]
  rfl

theorem ordered_unambiguous : ordered.Unambiguous := by
  have hinner : Unambiguous (.map [("p", .bool true), ("q", .list [])]) := by
    refine .map (by decide) ?_
    rw [List.map_cons, List.map_cons, List.map_nil, List.forall_mem_cons, List.forall_mem_singleton]
    exact ⟨.bool true, .list (List.forall_mem_nil _)⟩
  refine .keyedMap ?_ ?_ ?_
  · rw [List.map_cons, List.map_cons, List.map_nil, List.forall_mem_cons, List.forall_mem_singleton]
    exact ⟨rfl, rfl⟩
  · refine List.pairwise_pair.mpr ⟨?_, ?_⟩
    · intro t ht hu
      rw [keyText_int] at ht
      rw [keyText_text] at hu
      cases hu
      exact absurd ht (by decide)
    · intro c c' hc
      rw [keyText_int] at hc
      cases hc
  · rw [List.map_cons, List.map_cons, List.map_nil, List.forall_mem_cons, List.forall_mem_singleton]
    exact ⟨.text "a", hinner⟩

theorem toValue_eq_of_reordered_ordered :
    ordered.Reordered turned ∧ ordered.Unambiguous ∧ ordered.toValue = turned.toValue :=
  ⟨ordered_reordered, ordered_unambiguous,
    toValue_eq_of_reordered ordered_reordered ordered_unambiguous⟩

/-- A number and a text that are the same key of an object. -/
def numberFirst : HostData := .keyedMap [(.int 1, .text "a"), (.text "1", .text "b")]

/-- The same data, enumerated in another order. -/
def textFirst : HostData := .keyedMap [(.text "1", .text "b"), (.int 1, .text "a")]

/-- Entries of one text: the later one counts. -/
theorem toValue_pair {k k' : HostData} (hk : k.isScalar = true) (hk' : k'.isScalar = true)
    {t x y : Text} (ht : keyText k = .ok t) (ht' : keyText k' = .ok t) :
    (keyedMap [(k, .text x), (k', .text y)]).toValue {} =
      .ok (.object 0, { objects := #[.ofList [(t, .text y)]] }) := by
  have hscalar : ∀ key ∈ [(k, HostData.text x), (k', .text y)].map Prod.fst,
      key.isScalar = true :=
    List.forall_mem_cons.mpr ⟨hk, List.forall_mem_singleton.mpr hk'⟩
  have htexts : ∀ key ∈ [(k, HostData.text x), (k', .text y)].map Prod.fst,
      ∃ t, keyText key = .ok t :=
    List.forall_mem_cons.mpr ⟨⟨t, ht⟩, List.forall_mem_singleton.mpr ⟨t, ht'⟩⟩
  have hsorted : sortedByKey [(t, toValue (.text x)), (t, toValue (.text y))] =
      [(t, toValue (.text x)), (t, toValue (.text y))] := by
    apply List.mergeSort_of_pairwise
    exact List.pairwise_pair.mpr (decide_eq_true (Text.le_refl t))
  rw [toValue, Build.bind_of_ok (keyTexts_of_texts hscalar {} htexts), List.map_cons, List.map_cons,
    List.map_nil, textOf_eq ht, textOf_eq ht', Build.object, hsorted, toValue, toValue]
  have hput : Members.ofList [(t, .text x), (t, .text y)] = .ofList [(t, .text y)] := by
    simp [Members.ofList, Members.putAll, Members.put, Assoc.insert, Members.empty, Members.has,
      Members.get?]
  change Except.ok _ = _
  rw [hput]
  rfl

theorem toValue_sameText : numberFirst.Reordered textFirst ∧
    numberFirst.toValue {} = .ok (.object 0, { objects := #[.ofList [("1", .text "b")]] }) ∧
    textFirst.toValue {} = .ok (.object 0, { objects := #[.ofList [("1", .text "a")]] }) := by
  have hint : keyText (.int 1) = .ok "1" := keyText_int 1
  have htext := keyText_text "1"
  refine ⟨.keyedMap (List.Perm.swap (text "1") (int 1) []) ?_, toValue_pair rfl rfl hint htext,
    toValue_pair rfl rfl htext hint⟩
  refine forall_of_swap ?_ (.refl _) (.refl _)
  intro heq
  cases heq

end HostData

end ExprLang
