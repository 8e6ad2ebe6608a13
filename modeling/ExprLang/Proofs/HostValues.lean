import ExprLang.HostData
import ExprLang.Proofs.Alike
import ExprLang.Proofs.Texts
import Mathlib.Data.List.Nodup

/-!
# Values of host data

Host data that stands for plain data becomes a value of like data, in containers of its own, and the
members of every new object are in the order of their keys (`HostData.Means.makes`).
-/

namespace ExprLang

/-- Keys in ascending order, each of them once. -/
def Ascending (keys : List Text) : Prop := keys.Pairwise (· < ·)

theorem Ascending.nodup {keys : List Text} (h : Ascending keys) : keys.Nodup := by
  apply List.Pairwise.imp _ h
  intro a b hlt
  exact Text.ne_of_lt hlt

theorem pairwise_sortedByKey {α : Type} (entries : List (Text × α)) :
    (sortedByKey entries).Pairwise fun a b => a.1 ≤ b.1 := by
  have hsorted : (sortedByKey entries).Pairwise fun a b => decide (a.1 ≤ b.1) = true := by
    apply List.pairwise_mergeSort
    · intro a b c hab hbc
      rw [decide_eq_true_eq] at *
      exact Text.le_trans hab hbc
    · intro a b
      rw [Bool.or_eq_true, decide_eq_true_eq, decide_eq_true_eq]
      exact Text.le_total a.1 b.1
  apply hsorted.imp
  intro a b hab
  exact of_decide_eq_true hab

theorem sortedByKey_perm {α : Type} (entries : List (Text × α)) :
    (sortedByKey entries).Perm entries :=
  List.mergeSort_perm _ _

/-- Entries that are sorted by different keys have them in ascending order. -/
theorem ascending_sortedByKey {α : Type} {entries : List (Text × α)}
    (h : (entries.map Prod.fst).Nodup) : Ascending ((sortedByKey entries).map Prod.fst) := by
  have hnodup : ((sortedByKey entries).map Prod.fst).Nodup :=
    ((sortedByKey_perm entries).map Prod.fst).nodup_iff.mpr h
  rw [Ascending]
  rw [List.Nodup] at hnodup
  rw [List.pairwise_map] at hnodup ⊢
  apply (hnodup.and (pairwise_sortedByKey entries)).imp
  intro a b hab
  exact Text.lt_of_le_of_ne hab.2 hab.1

/-- Entries of different keys are all the last of their keys. -/
theorem lastOfEach_eq_self {κ α : Type} {same : κ → κ → Bool} {entries : List (κ × α)}
    (h : entries.Pairwise fun a b => same b.1 a.1 = false) : lastOfEach same entries = entries := by
  induction h with
  | nil => rfl
  | @cons entry entries hentry _ ih =>
    have hnone : (entries.any fun other => same other.1 entry.1) = false := by
      rw [List.any_eq_false]
      intro other hother
      rw [hentry other hother]
      exact Bool.false_ne_true
    rw [lastOfEach, hnone, ih]
    rfl

/-- Host data stands for plain data, whatever the order is that a map lists its entries in. -/
inductive HostData.Means : HostData → Data → Prop
  | int (n : Int64) : Means (.int n) (.int n)
  | unsigned (n : UInt64) : Means (.unsigned n) (.int n.toInt64)
  | number {written : String} {n : Int64} (h : numberValue written = .ok (.int n)) :
    Means (.number written) (.int n)
  | text (t : Text) : Means (.text t) (.text t)
  | list {items : List HostData} {data : List Data} (hitems : List.Forall₂ Means items data) :
    Means (.list items) (.list data)
  | map {entries : List (Text × HostData)} {data : List (Text × Data)}
    (hkeys : (entries.map Prod.fst).Perm (data.map Prod.fst))
    (hitems : ∀ key x d, (key, x) ∈ entries → (key, d) ∈ data → Means x d) :
    Means (.map entries) (.map data)
  | keyedMap {entries : List (Text × HostData)} {data : List (Text × Data)}
    (hkeys : (entries.map Prod.fst).Perm (data.map Prod.fst))
    (hitems : ∀ key x d, (key, x) ∈ entries → (key, d) ∈ data → Means x d) :
    Means (.keyedMap (entries.map fun entry => (.text entry.1, entry.2))) (.map data)

namespace Build

theorem bind_of_ok {α β : Type} {x : Build α} {f : α → Build β} {s t : Store} {a : α}
    (h : x s = .ok (a, t)) : (x >>= f) s = f a t := by
  show Build.andThen x f s = _
  rw [Build.andThen, h]

/-- Making a value always succeeds, leaves the containers that there are alone, and gives a value of
    data like some other, with all keys in order. -/
def Makes (x : Build Value) (d : Data) : Prop :=
  ∀ s, ∃ v t, x s = .ok (v, t) ∧ s.Extends t ∧
    ∃ made, t.Holds v made ∧ d.Alike made ∧ made.AllKeys Ascending

/-- Entries that are made of data are in order inside, and each is like the data of its key. -/
structure EntriesOf (data made : List (Text × Data)) : Prop where
  alike : ∀ entry ∈ made, ∃ d, (entry.1, d) ∈ data ∧ d.Alike entry.2
  ordered : ∀ entry ∈ made, entry.2.AllKeys Ascending

theorem sequence_makes {entries : List (Text × Build Value)} {data : List (Text × Data)}
    (h : ∀ entry ∈ entries, ∃ d, (entry.1, d) ∈ data ∧ entry.2.Makes d) (s : Store) :
    ∃ vs t made, sequence entries s = .ok (vs, t) ∧ s.Extends t ∧
      vs.map Prod.fst = entries.map Prod.fst ∧ made.map Prod.fst = entries.map Prod.fst ∧
      List.Forall₂ t.Holds (vs.map Prod.snd) (made.map Prod.snd) ∧ EntriesOf data made := by
  induction entries generalizing s with
  | nil =>
    exact ⟨[], s, [], rfl, .refl s, rfl, rfl, .nil, List.forall_mem_nil _, List.forall_mem_nil _⟩
  | cons entry entries ih =>
    obtain ⟨key, x⟩ := entry
    obtain ⟨⟨d, hd, hx⟩, hrest⟩ := List.forall_mem_cons.mp h
    obtain ⟨v, t, hv, hst, item, hholds, halike, hkeys⟩ := hx s
    obtain ⟨vs, u, made, hvs, htu, hnames, hnames', hall, hmade⟩ := ih hrest t
    refine ⟨(key, v) :: vs, u, (key, item) :: made, ?_, hst.trans htu, ?_, ?_, ?_, ?_, ?_⟩
    · rw [sequence, bind_of_ok hv, bind_of_ok hvs]
      rfl
    · rw [List.map_cons, List.map_cons, hnames]
    · rw [List.map_cons, List.map_cons, hnames']
    · exact .cons (hholds.mono htu) hall
    · exact List.forall_mem_cons.mpr ⟨⟨d, hd, halike⟩, hmade.alike⟩
    · exact List.forall_mem_cons.mpr ⟨hkeys, hmade.ordered⟩

/-- An object of entries, each of which is made of the data of its key. -/
theorem object_makes {entries : List (Text × Build Value)} {data : List (Text × Data)}
    (hkeys : (entries.map Prod.fst).Perm (data.map Prod.fst)) (hnodup : (data.map Prod.fst).Nodup)
    (h : ∀ entry ∈ entries, ∃ d, (entry.1, d) ∈ data ∧ entry.2.Makes d) :
    (object entries).Makes (.map data) := by
  intro s
  have hsorted : ∀ entry ∈ sortedByKey entries, ∃ d, (entry.1, d) ∈ data ∧ entry.2.Makes d :=
    fun entry hentry => h entry ((sortedByKey_perm entries).subset hentry)
  have hascending : Ascending ((sortedByKey entries).map Prod.fst) :=
    ascending_sortedByKey (hkeys.nodup_iff.mpr hnodup)
  obtain ⟨vs, t, made, hvs, hst, hnames, hnames', hall, hmade⟩ := sequence_makes hsorted s
  have hdistinct : (vs.map Prod.fst).Nodup := hnames ▸ hascending.nodup
  refine ⟨.object t.objects.size, (t.newObject (Members.ofList vs)).2, ?_,
    hst.trans (t.newObject_extends _), .map made, ?_, ?_, ?_⟩
  · rw [object, bind_of_ok hvs]
    rfl
  · apply Store.Holds.object Array.getElem?_push_size (.ofList vs)
    · rw [Members.keys_ofList hdistinct, hnames, hnames']
    · rw [Members.entries_ofList hdistinct]
      exact hall.imp fun v d hv => hv.mono (t.newObject_extends _)
  · apply Data.Alike.map
    · rw [hnames']
      exact hkeys.symm.trans ((sortedByKey_perm entries).map Prod.fst).symm
    · intro key a b ha hb
      obtain ⟨d, hd, halike⟩ := hmade.alike (key, b) hb
      cases List.inj_on_of_nodup_map hnodup ha hd rfl
      exact halike
  · apply Data.AllKeys.map
    · rw [hnames']
      exact hascending
    · intro item hitem
      obtain ⟨entry, hentry, rfl⟩ := List.mem_map.mp hitem
      exact hmade.ordered entry hentry

end Build

namespace HostData

theorem toValues_makes {items : List HostData} {data : List Data}
    (h : List.Forall₂ (fun x d => x.toValue.Makes d) items data) (s : Store) :
    ∃ vs t made, toValues items s = .ok (vs, t) ∧ s.Extends t ∧ List.Forall₂ t.Holds vs made ∧
      List.Forall₂ Data.Alike data made ∧ ∀ item ∈ made, item.AllKeys Ascending := by
  induction h generalizing s with
  | nil => exact ⟨[], s, [], rfl, .refl s, .nil, .nil, List.forall_mem_nil _⟩
  | cons hx _ ih =>
    obtain ⟨v, t, hv, hst, item, hholds, halike, hkeys⟩ := hx s
    obtain ⟨vs, u, made, hvs, htu, hall, hmade, hordered⟩ := ih t
    refine ⟨v :: vs, u, item :: made, ?_, hst.trans htu, .cons (hholds.mono htu) hall,
      .cons halike hmade, List.forall_mem_cons.mpr ⟨hkeys, hordered⟩⟩
    rw [toValues, Build.bind_of_ok hv, Build.bind_of_ok hvs]
    rfl

theorem entryValues_eq_map (entries : List (Text × HostData)) :
    entryValues entries = entries.map fun entry => (entry.1, entry.2.toValue) := by
  induction entries with
  | nil => rfl
  | cons entry entries ih => rw [entryValues, ih, List.map_cons]

/-- Keys that are texts are known by themselves. -/
theorem keyTexts_eq (entries : List (Text × HostData)) (s : Store) :
    keyTexts (entries.map fun entry => (.text entry.1, entry.2)) s =
      .ok (entries.map fun entry => (entry.1, entry.2.toValue), s) := by
  induction entries with
  | nil => rfl
  | cons entry entries ih =>
    have hkey : (toValue (.text entry.1)) s = .ok (.text entry.1, s) := by rw [toValue]; rfl
    have htext : (Build.of fun s => (s.text (.text entry.1), s)) s = .ok (entry.1, s) := rfl
    rw [List.map_cons, keyTexts, Build.bind_of_ok hkey, Build.bind_of_ok htext, Build.bind_of_ok ih]
    rfl

/-- An object of entries, each of which makes the data of its key. -/
theorem object_makes {entries : List (Text × HostData)} {data : List (Text × Data)}
    (hperm : (entries.map Prod.fst).Perm (data.map Prod.fst)) (hnodup : (data.map Prod.fst).Nodup)
    (h : ∀ key x d, (key, x) ∈ entries → (key, d) ∈ data → x.toValue.Makes d) :
    (Build.object (entries.map fun entry => (entry.1, entry.2.toValue))).Makes (.map data) := by
  apply Build.object_makes _ hnodup
  · intro entry hentry
    obtain ⟨⟨key, x⟩, hx, rfl⟩ := List.mem_map.mp hentry
    have hkey : key ∈ data.map Prod.fst := hperm.subset (List.mem_map_of_mem hx)
    obtain ⟨⟨_, d⟩, hd, rfl⟩ := List.mem_map.mp hkey
    exact ⟨d, hd, h _ x d hx hd⟩
  · rw [List.map_map]
    exact hperm

theorem Means.makes {x : HostData} {d : Data} (h : x.Means d) (hkeys : d.AllKeys List.Nodup) :
    x.toValue.Makes d := by
  induction d using Data.induct generalizing x with
  | int n =>
    intro s
    refine ⟨.int n, s, ?_, .refl s, .int n, .int n, .int n, .int n⟩
    cases h with
    | int _ =>
      rw [toValue]
      rfl
    | unsigned _ =>
      rw [toValue]
      rfl
    | number hvalue => rw [toValue, hvalue]
  | double y => cases h
  | text t =>
    intro s
    cases h
    refine ⟨.text t, s, ?_, .refl s, .text t, .text t, .text t, .text t⟩
    rw [toValue]
    rfl
  | list data ih =>
    intro s
    obtain _ | _ | _ | hinner | _ := hkeys
    cases h with
    | list hitems =>
      have hmakes := forall₂_imp_of_mem hitems fun d hd y hy => ih d hd hy (hinner d hd)
      obtain ⟨vs, t, made, hvs, hst, hall, halike, hordered⟩ := toValues_makes hmakes s
      refine ⟨.array t.arrays.size, (t.newArray vs.toArray).2, ?_,
        hst.trans (t.newArray_extends _), .list made, ?_, ?_, .list hordered⟩
      · rw [toValue, Build.bind_of_ok hvs]
        rfl
      · apply Store.Holds.array (Array.getElem?_push_size)
        exact hall.imp fun v d hv => hv.mono (t.newArray_extends _)
      · apply Data.Alike.list halike.length_eq
        intro a b hab
        exact (List.forall₂_iff_zip.mp halike).2 hab
  | map data ih =>
    obtain _ | _ | _ | _ | ⟨hnodup, hinner⟩ := hkeys
    cases h with
    | map hperm hitems =>
      rw [toValue, entryValues_eq_map]
      apply object_makes hperm hnodup
      intro key y d hy hd
      have hitem : d ∈ data.map Prod.snd := List.mem_map_of_mem hd
      exact ih d hitem (hitems key y d hy hd) (hinner d hitem)
    | @keyedMap entries _ hperm hitems =>
      intro s
      rw [toValue, Build.bind_of_ok (keyTexts_eq entries s)]
      refine object_makes hperm hnodup ?_ s
      intro key y d hy hd
      have hitem : d ∈ data.map Prod.snd := List.mem_map_of_mem hd
      exact ih d hitem (hitems key y d hy hd) (hinner d hitem)

end HostData

end ExprLang
