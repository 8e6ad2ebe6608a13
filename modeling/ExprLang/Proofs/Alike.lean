import ExprLang.Proofs.Comparison
import ExprLang.Proofs.Members
import ExprLang.Proofs.PlainData
import Mathlib.Data.List.Nodup
import Mathlib.Data.List.Zip

/-!
# Data up to the order of entries

Two pieces of data are alike if they differ in nothing but the order in which their maps list their
entries. Values that unfold into such data are equal, whatever their order is
(`Store.Holds.equal?_of_alike`), and no others are (`Store.Holds.alike_of_equal?`).
-/

namespace ExprLang

namespace Data

/-- The same data, but for the order of the entries of maps. -/
inductive Alike : Data → Data → Prop
  | int (n : Int64) : Alike (.int n) (.int n)
  | double (x : Double) : Alike (.double x) (.double x)
  | text (t : Text) : Alike (.text t) (.text t)
  | list {items items' : List Data} (hlength : items.length = items'.length)
    (hitems : ∀ a b, (a, b) ∈ items.zip items' → Alike a b) : Alike (.list items) (.list items')
  | map {entries entries' : List (Text × Data)}
    (hkeys : (entries.map Prod.fst).Perm (entries'.map Prod.fst))
    (hitems : ∀ key a b, (key, a) ∈ entries → (key, b) ∈ entries' → Alike a b) :
    Alike (.map entries) (.map entries')

theorem Alike.refl {d : Data} (hkeys : d.AllKeys List.Nodup) : d.Alike d := by
  induction d using induct with
  | int n => exact .int n
  | double x => exact .double x
  | text t => exact .text t
  | list items ih =>
    obtain _ | _ | _ | hinner | _ := hkeys
    have hsame : List.Forall₂ Alike items items :=
      List.forall₂_same.mpr fun item hitem => ih item hitem (hinner item hitem)
    apply Alike.list rfl
    intro a b hab
    exact (List.forall₂_iff_zip.mp hsame).2 hab
  | map entries ih =>
    obtain _ | _ | _ | _ | ⟨hnodup, hinner⟩ := hkeys
    apply Alike.map (.refl _)
    intro key a b ha hb
    cases List.inj_on_of_nodup_map hnodup ha hb rfl
    have hitem : a ∈ entries.map Prod.snd := List.mem_map_of_mem ha
    exact ih a hitem (hinner a hitem)

theorem Alike.symm {d d' : Data} (h : d.Alike d') : d'.Alike d := by
  induction h with
  | int n => exact .int n
  | double x => exact .double x
  | text t => exact .text t
  | @list items items' hlength _ ih =>
    apply Alike.list hlength.symm
    intro b a hab
    apply ih a b
    rw [← List.zip_swap]
    exact List.mem_map_of_mem hab
  | map hkeys _ ih =>
    apply Alike.map hkeys.symm
    intro key b a hb ha
    exact ih key a b ha hb

end Data

namespace Store

theorem allEqual_eq_true {α : Type} {test : α → Option Bool} {as : List α}
    (h : ∀ a ∈ as, test a = some true) : allEqual test as = some true := by
  induction as with
  | nil => rfl
  | cons a as ih =>
    obtain ⟨ha, has⟩ := List.forall_mem_cons.mp h
    rw [allEqual, ha]
    exact ih has

theorem of_allEqual_eq_true {α : Type} {test : α → Option Bool} {as : List α}
    (h : allEqual test as = some true) : ∀ a ∈ as, test a = some true := by
  induction as with
  | nil => exact List.forall_mem_nil _
  | cons a as ih =>
    rw [allEqual] at h
    split at h
    · next ha => exact List.forall_mem_cons.mpr ⟨ha, ih h⟩
    · next ha => exact absurd h ha

/-- There is an answer if there is one for each. -/
theorem exists_allEqual {α : Type} {test : α → Option Bool} {as : List α}
    (h : ∀ a ∈ as, ∃ b, test a = some b) : ∃ b, allEqual test as = some b := by
  induction as with
  | nil => exact ⟨true, rfl⟩
  | cons a as ih =>
    obtain ⟨⟨b, hb⟩, has⟩ := List.forall_mem_cons.mp h
    cases b with
    | true =>
      obtain ⟨b, hall⟩ := ih has
      exact ⟨b, by rw [allEqual, hb]; exact hall⟩
    | false => exact ⟨false, by rw [allEqual, hb]⟩

/-- What is related to each of two items side by side stands side by side, too. -/
theorem exists_of_mem_zip {α β : Type} {R : α → β → Prop} {xs xs' : List α} {ys ys' : List β}
    (h : List.Forall₂ R xs ys) (h' : List.Forall₂ R xs' ys') {x x' : α}
    (hmem : (x, x') ∈ xs.zip xs') : ∃ y y', (y, y') ∈ ys.zip ys' ∧ R x y ∧ R x' y' := by
  induction h generalizing xs' ys' with
  | nil => cases hmem
  | cons hx _ ih =>
    cases h' with
    | nil => cases hmem
    | cons hx' hxs' =>
      rw [List.zip_cons_cons] at hmem ⊢
      rcases List.mem_cons.mp hmem with heq | hmem
      · cases heq
        exact ⟨_, _, List.mem_cons_self, hx, hx'⟩
      · obtain ⟨y, y', hyy, hR⟩ := ih hxs' hmem
        exact ⟨y, y', List.mem_cons_of_mem _ hyy, hR⟩

section Entries

variable {s : Store} {members : Members} {entries : List (Text × Data)}
  (hwell : members.WellFormed) (hkeys : members.keys = entries.map Prod.fst)
  (hitems : List.Forall₂ s.Holds (members.entries.map Prod.snd) (entries.map Prod.snd))
include hwell hkeys hitems

/-- A member unfolds into an entry. -/
theorem exists_of_mem_entries {key : Text} {v : Value} (hmem : (key, v) ∈ members.entries) :
    ∃ d, (key, d) ∈ entries ∧ s.Holds v d := by
  obtain ⟨⟨_, d⟩, hentry, rfl, hv⟩ := exists_of_forall₂ (forall₂_entries hwell hkeys hitems) hmem
  exact ⟨d, hentry, hv⟩

/-- An entry is unfolded from a member. -/
theorem exists_member_of_mem {key : Text} {d : Data} (hmem : (key, d) ∈ entries) :
    ∃ v, (key, v) ∈ members.entries ∧ s.Holds v d := by
  have hentries := (forall₂_entries hwell hkeys hitems).flip
  obtain ⟨⟨_, v⟩, hmember, rfl, hv⟩ := exists_of_forall₂ hentries hmem
  exact ⟨v, hmember, hv⟩

end Entries

namespace Holds

variable {s : Store} {v w : Value} {d d' : Data}

/-- Two containers whose pairs of values inside are all equal are equal. -/
theorem equalWithin_of_compare {ps : List (Option (Value × Value))} {budget : Nat}
    (hcompare : s.compare v w = .inl true ∨ s.compare v w = .inr ps)
    (hps : ∀ p ∈ ps, ∃ v w, p = some (v, w) ∧ s.equalWithin budget v w = some true) :
    s.equalWithin (budget + 1) v w = some true := by
  rw [equalWithin_succ]
  rcases hcompare with h | h
  · rw [h]
    rfl
  · rw [h]
    apply allEqual_eq_true
    intro p hp
    obtain ⟨v, w, rfl, hvw⟩ := hps p hp
    exact hvw

theorem compare_array {i j : Nat} (h : (s.elements i).size = (s.elements j).size) :
    s.compare (.array i) (.array j) = .inl true ∨ s.compare (.array i) (.array j) =
      .inr (((s.elements i).toList.zip (s.elements j).toList).map some) := by
  rw [compare]
  by_cases hij : i = j
  · rw [if_pos hij]
    exact .inl rfl
  · rw [if_neg hij, if_neg (not_not.mpr h)]
    exact .inr rfl

theorem compare_object {i j : Nat} (h : (s.members i).size = (s.members j).size) :
    s.compare (.object i) (.object j) = .inl true ∨ s.compare (.object i) (.object j) =
      .inr ((s.members i).entries.map fun entry =>
        ((s.members j).get? entry.1).map fun other => (entry.2, other)) := by
  rw [compare]
  by_cases hij : i = j
  · rw [if_pos hij]
    exact .inl rfl
  · rw [if_neg hij, if_neg (not_not.mpr h)]
    exact .inr rfl

theorem equalWithin_of_alike (hv : s.Holds v d) (hw : s.Holds w d') (h : d.Alike d')
    {budget : Nat} (hbudget : sizeOf d ≤ budget) : s.equalWithin budget v w = some true := by
  induction h generalizing v w budget with
  | int n =>
    cases hv
    cases hw
    simp [equalWithin]
  | double x => cases hv
  | text t =>
    cases hv
    cases hw
    simp [equalWithin]
  | @list items items' hlength _ ih =>
    obtain _ | _ | ⟨hcell, hitems⟩ | _ := hv
    obtain _ | _ | ⟨hcell', hitems'⟩ | _ := hw
    have hpos : 0 < budget := by
      rw [Data.list.sizeOf_spec] at hbudget
      omega
    obtain ⟨budget, rfl⟩ := Nat.exists_eq_succ_of_ne_zero hpos.ne'
    have hsize := hitems.length_eq.trans (hlength.trans hitems'.length_eq.symm)
    rw [Array.length_toList, Array.length_toList, ← elements_eq hcell,
      ← elements_eq hcell'] at hsize
    apply equalWithin_of_compare (compare_array hsize)
    intro p hp
    obtain ⟨⟨x, y⟩, hxy, rfl⟩ := List.mem_map.mp hp
    rw [elements_eq hcell, elements_eq hcell'] at hxy
    obtain ⟨a, b, hab, hx, hy⟩ := exists_of_mem_zip hitems hitems' hxy
    have hlt := Data.sizeOf_lt_of_mem_list (List.of_mem_zip hab).1
    exact ⟨x, y, rfl, ih a b hab hx hy (by omega)⟩
  | @map entries entries' hperm _ ih =>
    obtain _ | _ | _ | @⟨i, members, _, hcell, hwell, hnames, hitems⟩ := hv
    obtain _ | _ | _ | @⟨j, members', _, hcell', hwell', hnames', hitems'⟩ := hw
    have hpos : 0 < budget := by
      rw [Data.map.sizeOf_spec] at hbudget
      omega
    obtain ⟨budget, rfl⟩ := Nat.exists_eq_succ_of_ne_zero hpos.ne'
    have hperm' : members.keys.Perm members'.keys := by rwa [hnames, hnames']
    have hsize : (s.members i).size = (s.members j).size := by
      rw [members_eq hcell, members_eq hcell']
      exact hperm'.length_eq
    apply equalWithin_of_compare (compare_object hsize)
    intro p hp
    obtain ⟨⟨key, x⟩, hx, rfl⟩ := List.mem_map.mp hp
    rw [members_eq hcell] at hx
    rw [members_eq hcell']
    -- the same key is found on the other side
    have hkey : key ∈ members'.keys := hperm'.subset (Members.mem_entries.mp hx).1
    rw [hnames'] at hkey
    obtain ⟨⟨key', b⟩, hb, heq⟩ := List.mem_map.mp hkey
    obtain rfl : key = key' := heq.symm
    obtain ⟨y, hy, hyb⟩ := exists_member_of_mem hwell' hnames' hitems' hb
    have hget := (Members.mem_entries.mp hy).2
    obtain ⟨a, ha, hxa⟩ := exists_of_mem_entries hwell hnames hitems hx
    have hlt : sizeOf a < sizeOf (Data.map entries) :=
      Data.sizeOf_lt_of_mem_map (List.mem_map_of_mem ha)
    refine ⟨x, y, by rw [hget]; rfl, ?_⟩
    exact ih key a b ha hb hxa hyb (by omega)

/-- Values of data that are alike are equal. -/
theorem equal?_of_alike (hv : s.Holds v d) (hw : s.Holds w d') (h : d.Alike d') :
    s.equal? v w = some true := by
  have hwithin := equalWithin_of_alike hv hw h
    (Nat.le_add_right (sizeOf d) (s.containers * s.containers + 1))
  rwa [equalWithin_eq_equal?] at hwithin
  omega

/-! ## Equal values -/

/-- Two values that are equal are settled at once or hold pairs of equal values. -/
theorem compare_of_equalWithin {budget : Nat} (h : s.equalWithin budget v w = some true) :
    s.compare v w = .inl true ∨ ∃ ps rest, s.compare v w = .inr ps ∧
      ∀ p ∈ ps, ∃ x y, p = some (x, y) ∧ s.equalWithin rest x y = some true := by
  cases budget with
  | zero =>
    rw [equalWithin_zero] at h
    cases hcompare : s.compare v w with
    | inl b =>
      rw [hcompare] at h
      cases h
      exact .inl rfl
    | inr ps =>
      rw [hcompare] at h
      cases h
  | succ budget =>
    rw [equalWithin_succ] at h
    cases hcompare : s.compare v w with
    | inl b =>
      rw [hcompare] at h
      cases h
      exact .inl rfl
    | inr ps =>
      rw [hcompare] at h
      refine .inr ⟨ps, budget, rfl, fun p hp => ?_⟩
      have htest := of_allEqual_eq_true h p hp
      cases p with
      | none => cases htest
      | some pair => exact ⟨pair.1, pair.2, rfl, htest⟩

/-- Values are not equal if something is missing in one of them. -/
theorem not_equal_of_missing (h : s.compare v w = .inr [none]) {budget : Nat} :
    s.equalWithin budget v w ≠ some true := by
  intro hequal
  rcases compare_of_equalWithin hequal with hc | ⟨ps, rest, hc, hps⟩
  · rw [h] at hc
    cases hc
  · rw [h] at hc
    cases hc
    obtain ⟨_, _, heq, -⟩ := hps none List.mem_cons_self
    cases heq

theorem equal_arrays {i j budget : Nat}
    (h : s.equalWithin budget (.array i) (.array j) = some true) :
    i = j ∨ ((s.elements i).size = (s.elements j).size ∧ ∃ rest, ∀ x y,
      (x, y) ∈ (s.elements i).toList.zip (s.elements j).toList →
        s.equalWithin rest x y = some true) := by
  by_cases hij : i = j
  · exact .inl hij
  by_cases hsize : (s.elements i).size = (s.elements j).size
  · have hcompare := compare_of_equalWithin h
    rw [compare, if_neg hij, if_neg (not_not.mpr hsize)] at hcompare
    obtain hc | ⟨ps, rest, hc, hps⟩ := hcompare
    · cases hc
    · cases hc
      refine .inr ⟨hsize, rest, fun x y hxy => ?_⟩
      obtain ⟨x', y', heq, hequal⟩ := hps _ (List.mem_map_of_mem hxy)
      cases heq
      exact hequal
  · exact absurd h (not_equal_of_missing (by rw [compare, if_neg hij, if_pos hsize]))

theorem equal_objects {i j budget : Nat}
    (h : s.equalWithin budget (.object i) (.object j) = some true) :
    i = j ∨ ((s.members i).size = (s.members j).size ∧ ∃ rest, ∀ key x,
      (key, x) ∈ (s.members i).entries →
        ∃ y, (s.members j).get? key = some y ∧ s.equalWithin rest x y = some true) := by
  by_cases hij : i = j
  · exact .inl hij
  by_cases hsize : (s.members i).size = (s.members j).size
  · have hcompare := compare_of_equalWithin h
    rw [compare, if_neg hij, if_neg (not_not.mpr hsize)] at hcompare
    obtain hc | ⟨ps, rest, hc, hps⟩ := hcompare
    · cases hc
    · cases hc
      refine .inr ⟨hsize, rest, fun key x hx => ?_⟩
      obtain ⟨x', y, heq, hequal⟩ := hps _ (List.mem_map_of_mem hx)
      obtain ⟨y', hy, heq⟩ := Option.map_eq_some_iff.mp heq
      cases heq
      exact ⟨y, hy, hequal⟩
  · exact absurd h (not_equal_of_missing (by rw [compare, if_neg hij, if_pos hsize]))

/-- If all keys of one object are found in another, which has no more, they have the same keys. -/
theorem keys_perm_of_found {members members' : Members} (h : members.WellFormed)
    (h' : members'.WellFormed) (hsize : members.size = members'.size)
    (hfound : ∀ key x, (key, x) ∈ members.entries → ∃ y, members'.get? key = some y) :
    members.keys.Perm members'.keys := by
  have hsubset : members.keys ⊆ members'.keys := by
    intro key hkey
    obtain ⟨x, hx⟩ := Members.has_iff_exists.mp (h.mem_keys.mp hkey)
    obtain ⟨y, hy⟩ := hfound key x (h.mem_entries.mpr hx)
    exact h'.mem_keys.mpr (Members.has_iff_exists.mpr ⟨y, hy⟩)
  exact (List.subperm_of_subset h.nodup hsubset).perm_of_length_le hsize.ge

/-- Objects unfold into maps that are alike if the members of one are found in the other, with
    values that unfold into data that are alike. -/
theorem alike_map_of_found {members members' : Members} {entries entries' : List (Text × Data)}
    (hnames : members.keys = entries.map Prod.fst)
    (hitems : List.Forall₂ s.Holds (members.entries.map Prod.snd) (entries.map Prod.snd))
    (hnames' : members'.keys = entries'.map Prod.fst)
    (hitems' : List.Forall₂ s.Holds (members'.entries.map Prod.snd) (entries'.map Prod.snd))
    (hwell : members.WellFormed) (hwell' : members'.WellFormed)
    (hsize : members.size = members'.size) {R : Value → Value → Prop}
    (hfound : ∀ key x, (key, x) ∈ members.entries → ∃ y, members'.get? key = some y ∧ R x y)
    (halike : ∀ a ∈ entries.map Prod.snd, ∀ b ∈ entries'.map Prod.snd, ∀ x y, s.Holds x a →
      s.Holds y b → R x y → a.Alike b) :
    (Data.map entries).Alike (.map entries') := by
  apply Data.Alike.map
  · rw [← hnames, ← hnames']
    refine keys_perm_of_found hwell hwell' hsize fun key x hx => ?_
    obtain ⟨y, hy, -⟩ := hfound key x hx
    exact ⟨y, hy⟩
  · intro key a b ha hb
    obtain ⟨x, hx, hxa⟩ := exists_member_of_mem hwell hnames hitems ha
    obtain ⟨y, hy, hyb⟩ := exists_member_of_mem hwell' hnames' hitems' hb
    obtain ⟨z, hz, hxz⟩ := hfound key x hx
    obtain rfl : y = z := Option.some.inj ((hwell'.mem_entries.mp hy).symm.trans hz)
    exact halike a (List.mem_map_of_mem ha) b (List.mem_map_of_mem hb) x y hxa hyb hxz

theorem alike_of_equalWithin (hv : s.Holds v d) (hw : s.Holds w d') {budget : Nat}
    (h : s.equalWithin budget v w = some true) : d.Alike d' := by
  induction d using Data.induct generalizing v w d' budget with
  | int n =>
    cases hv
    rcases compare_of_equalWithin h with hc | ⟨_, _, hc, -⟩
    · cases hw with
      | int m =>
        obtain rfl : n = m := by simpa [compare] using hc
        exact .int n
      | _ => cases hc
    · cases hw <;> cases hc
  | double x => cases hv
  | text t =>
    cases hv
    rcases compare_of_equalWithin h with hc | ⟨_, _, hc, -⟩
    · cases hw with
      | text u =>
        obtain rfl : t = u := by simpa [compare] using hc
        exact .text t
      | _ => cases hc
    · cases hw <;> cases hc
  | list items ih =>
    have hrefl := Data.Alike.refl hv.allKeys_nodup
    have hwhole := hv
    obtain _ | _ | @⟨i, elems, _, hcell, hitems⟩ | _ := hv
    cases hw with
    | @array j elems' items' hcell' hitems' =>
      rcases equal_arrays h with rfl | ⟨hsize, rest, hequal⟩
      · rw [← hwhole.unique (.array hcell' hitems')]
        exact hrefl
      · rw [elements_eq hcell, elements_eq hcell'] at hsize hequal
        apply Data.Alike.list
        · rw [← hitems.length_eq, ← hitems'.length_eq]
          exact hsize
        · intro a b hab
          obtain ⟨x, y, hxy, hx, hy⟩ := exists_of_mem_zip hitems.flip hitems'.flip hab
          have ha := (List.of_mem_zip hab).1
          exact ih a ha hx hy (hequal x y hxy)
    | _ => rcases compare_of_equalWithin h with hc | ⟨_, _, hc, -⟩ <;> cases hc
  | map entries ih =>
    have hrefl := Data.Alike.refl hv.allKeys_nodup
    have hwhole := hv
    obtain _ | _ | _ | @⟨i, members, _, hcell, hwell, hnames, hitems⟩ := hv
    cases hw with
    | @object j members' entries' hcell' hwell' hnames' hitems' =>
      rcases equal_objects h with rfl | ⟨hsize, rest, hequal⟩
      · rw [← hwhole.unique (.object hcell' hwell' hnames' hitems')]
        exact hrefl
      · rw [members_eq hcell, members_eq hcell'] at hsize hequal
        refine alike_map_of_found hnames hitems hnames' hitems' hwell hwell' hsize hequal ?_
        intro a ha b hb x y hx hy hxy
        exact ih a ha hx hy hxy
    | _ => rcases compare_of_equalWithin h with hc | ⟨_, _, hc, -⟩ <;> cases hc

/-- Equal values unfold into data that are alike. -/
theorem alike_of_equal? (hv : s.Holds v d) (hw : s.Holds w d') (h : s.equal? v w = some true) :
    d.Alike d' :=
  alike_of_equalWithin hv hw h

/-- What a comparison goes on with unfolds into smaller data. -/
theorem exists_inside (hv : s.Holds v d) {ps : List (Option (Value × Value))}
    (hcompare : s.compare v w = .inr ps) {x y : Value} (hp : some (x, y) ∈ ps) :
    ∃ item, s.Holds x item ∧ sizeOf item < sizeOf d := by
  cases hv with
  | int n => cases w <;> cases hcompare
  | text t => cases w <;> cases hcompare
  | @array i elems items hcell hitems =>
    cases w with
    | array j =>
      rw [compare] at hcompare
      split at hcompare
      · cases hcompare
      · split at hcompare
        · cases hcompare
          cases hp with | tail _ hp => cases hp
        · cases hcompare
          obtain ⟨pair, hpair, heq⟩ := List.mem_map.mp hp
          cases heq
          have hx := (List.of_mem_zip hpair).1
          rw [elements_eq hcell] at hx
          obtain ⟨item, hitem, hholds⟩ := exists_of_forall₂ hitems hx
          exact ⟨item, hholds, Data.sizeOf_lt_of_mem_list hitem⟩
    | _ => cases hcompare
  | @object i members entries hcell hwell hnames hitems =>
    cases w with
    | object j =>
      rw [compare] at hcompare
      split at hcompare
      · cases hcompare
      · split at hcompare
        · cases hcompare
          cases hp with | tail _ hp => cases hp
        · cases hcompare
          obtain ⟨⟨key, x⟩, hx, heq⟩ := List.mem_map.mp hp
          obtain ⟨_, -, heq⟩ := Option.map_eq_some_iff.mp heq
          cases heq
          rw [members_eq hcell] at hx
          obtain ⟨item, hitem, hholds⟩ := exists_of_mem_entries hwell hnames hitems hx
          exact ⟨item, hholds, Data.sizeOf_lt_of_mem_map (List.mem_map_of_mem hitem)⟩
    | _ => cases hcompare

/-- A comparison with a value that unfolds into data comes to an end. -/
theorem exists_equalWithin (hv : s.Holds v d) (w : Value) {budget : Nat}
    (hbudget : sizeOf d ≤ budget) : ∃ b, s.equalWithin budget v w = some b := by
  induction budget generalizing v w d with
  | zero =>
    cases hv <;> simp at hbudget
  | succ budget ih =>
    rw [equalWithin_succ]
    cases hcompare : s.compare v w with
    | inl b => exact ⟨b, rfl⟩
    | inr ps =>
      apply exists_allEqual
      intro p hp
      cases p with
      | none => exact ⟨false, rfl⟩
      | some pair =>
        obtain ⟨item, hholds, hlt⟩ := hv.exists_inside hcompare hp
        exact ih hholds pair.2 (by omega)

theorem exists_equal? (hv : s.Holds v d) (w : Value) : ∃ b, s.equal? v w = some b := by
  obtain ⟨b, hb⟩ := hv.exists_equalWithin w
    (Nat.le_add_right (sizeOf d) (s.containers * s.containers + 1))
  rw [equalWithin_eq_equal? (by omega)] at hb
  exact ⟨b, hb⟩

end Holds

end Store

end ExprLang
