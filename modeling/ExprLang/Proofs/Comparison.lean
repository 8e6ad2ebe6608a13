import ExprLang.Proofs.Rendering
import Mathlib.Data.List.ProdSigma

/-!
# Comparison of linked stores

Comparing two containers comes down to comparing pairs of what is in them. A comparison that is
decided at all is decided within a budget of all pairs of containers: the pairs on the way to its
answer are all different, for each is decided later than the next. Linked stores therefore give the
same answers, however many other containers they have.
-/

namespace ExprLang

namespace Store

/-! ## Steps of a comparison -/

/-- A comparison of two values: its answer, or the pairs of values inside that must be equal, where
    something may be missing. -/
def compare (s : Store) : Value → Value → Bool ⊕ List (Option (Value × Value))
  | .int m, .int n => .inl (decide (m = n))
  | .int m, .double y => .inl ((Double.ofInt m.toInt).equals y)
  | .double x, .int n => .inl (x.equals (Double.ofInt n.toInt))
  | .double x, .double y => .inl (x.equals y)
  | .text a, .text b => .inl (decide (a = b))
  | .function i, .function j => .inl (decide (i = j))
  | .scope i, .scope j => .inl (decide (i = j))
  | .array i, .array j =>
    if i = j then .inl true
    else if (s.elements i).size ≠ (s.elements j).size then .inr [none]
    else .inr (((s.elements i).toList.zip (s.elements j).toList).map some)
  | .object i, .object j =>
    if i = j then .inl true
    else if (s.members i).size ≠ (s.members j).size then .inr [none]
    else .inr ((s.members i).entries.map fun entry =>
      ((s.members j).get? entry.1).map fun other => (entry.2, other))
  | _, _ => .inl false

/-- The answer for a pair of values inside two containers. -/
def answerWithin (s : Store) (budget : Nat) : Option (Value × Value) → Option Bool
  | none => some false
  | some (v, w) => s.equalWithin budget v w

/-- The answer of a comparison, given the answers for the pairs inside. -/
def answer (test : Option (Value × Value) → Option Bool) :
    Bool ⊕ List (Option (Value × Value)) → Option Bool
  | .inl b => some b
  | .inr ps => allEqual test ps

theorem allEqual_map {α β : Type} (f : α → β) (test : β → Option Bool) (as : List α) :
    allEqual test (as.map f) = allEqual (fun a => test (f a)) as := by
  induction as with
  | nil => rfl
  | cons a as ih => simp only [List.map_cons, allEqual, ih]

section Steps

variable (s : Store) (v w : Value)

/-- Without a budget there is an answer only if nothing inside matters. -/
theorem equalWithin_zero : s.equalWithin 0 v w = (s.compare v w).getLeft? := by
  cases v with
  | array i =>
    cases w with
    | array j =>
      rw [equalWithin, compare]
      split
      · rfl
      · split <;> rfl
    | _ => rfl
  | object i =>
    cases w with
    | object j =>
      rw [equalWithin, compare]
      split
      · rfl
      · split <;> rfl
    | _ => rfl
  | _ => cases w <;> rfl

theorem equalWithin_succ (budget : Nat) :
    s.equalWithin (budget + 1) v w = answer (s.answerWithin budget) (s.compare v w) := by
  cases v with
  | array i =>
    cases w with
    | array j =>
      rw [equalWithin, compare]
      split
      · rfl
      · split
        · rfl
        · rw [answer, allEqual_map]
          rfl
    | _ => rfl
  | object i =>
    cases w with
    | object j =>
      rw [equalWithin, compare]
      split
      · rfl
      · split
        · rfl
        · rw [answer, allEqual_map]
          congr 1
          funext entry
          cases (s.members j).get? entry.1 <;> rfl
    | _ => rfl
  | _ => cases w <;> rfl

/-- Two containers that have a pair of values inside are cells of the store. -/
theorem mem_containerList_of_compare {ps : List (Option (Value × Value))} {p : Value × Value}
    (h : s.compare v w = .inr ps) (hp : some p ∈ ps) :
    v ∈ s.containerList ∧ w ∈ s.containerList := by
  cases v with
  | array i =>
    cases w with
    | array j =>
      rw [compare] at h
      split at h
      · cases h
      · split at h
        · cases h
          cases hp with | tail _ hp => cases hp
        · cases h
          obtain ⟨q, hq, -⟩ := List.mem_map.mp hp
          obtain ⟨hx, hy⟩ := List.of_mem_zip (a := q.1) (b := q.2) hq
          exact ⟨array_mem_containerList (List.ne_nil_of_mem hx),
            array_mem_containerList (List.ne_nil_of_mem hy)⟩
    | _ => cases h
  | object i =>
    cases w with
    | object j =>
      rw [compare] at h
      split at h
      · cases h
      · split at h
        · cases h
          cases hp with | tail _ hp => cases hp
        · cases h
          obtain ⟨entry, hentry, hother⟩ := List.mem_map.mp hp
          obtain ⟨other, hget, -⟩ := Option.map_eq_some_iff.mp hother
          exact ⟨object_mem_containerList (Members.mem_vals_of_mem_entries hentry),
            object_mem_containerList (Members.mem_vals_of_get? hget)⟩
    | _ => cases h
  | _ => cases w <;> cases h

end Steps

/-! ## How much of a budget is needed -/

section Tests

variable {α : Type} {test test' : α → Option Bool} {as : List α}

/-- Tests that know more give the answers that are known already. -/
theorem allEqual_mono (h : ∀ a b, test a = some b → test' a = some b) {b : Bool}
    (hall : allEqual test as = some b) : allEqual test' as = some b := by
  induction as with
  | nil => exact hall
  | cons a as ih =>
    rw [allEqual] at hall ⊢
    cases hta : test a with
    | none =>
      rw [hta] at hall
      cases hall
    | some c =>
      rw [hta] at hall
      rw [h a c hta]
      cases c with
      | true => exact ih hall
      | false => exact hall

/-- If tests that know more have an answer and the others have none, they differ at some place. -/
theorem exists_undecided (h : ∀ a b, test a = some b → test' a = some b)
    (hnone : allEqual test as = none) (hsome : allEqual test' as ≠ none) :
    ∃ a ∈ as, test a = none ∧ test' a ≠ none := by
  induction as with
  | nil => cases hnone
  | cons a as ih =>
    rw [allEqual] at hnone hsome
    cases hta : test a with
    | none =>
      refine ⟨a, List.mem_cons_self, hta, ?_⟩
      intro hta'
      rw [hta'] at hsome
      exact hsome rfl
    | some c =>
      rw [hta] at hnone
      rw [h a c hta] at hsome
      cases c with
      | true =>
        obtain ⟨a', ha', hundecided⟩ := ih hnone hsome
        exact ⟨a', List.mem_cons_of_mem _ ha', hundecided⟩
      | false => cases hnone

end Tests

section Budget

variable {s : Store} {v w : Value}

/-- An answer stays with a greater budget. -/
theorem equalWithin_mono_succ {budget : Nat} {b : Bool} (h : s.equalWithin budget v w = some b) :
    s.equalWithin (budget + 1) v w = some b := by
  induction budget generalizing v w b with
  | zero =>
    rw [equalWithin_zero, Sum.getLeft?_eq_some_iff] at h
    rw [equalWithin_succ, h, answer]
  | succ budget ih =>
    rw [equalWithin_succ] at h ⊢
    cases hc : s.compare v w with
    | inl b' =>
      rw [hc] at h
      exact h
    | inr ps =>
      rw [hc] at h
      refine allEqual_mono ?_ h
      intro p b' hp
      cases p with
      | none => exact hp
      | some p => exact ih hp

/-- A comparison that is decided by a budget of one more. -/
def DecidedAfter (s : Store) (budget : Nat) (v w : Value) : Prop :=
  s.equalWithin budget v w = none ∧ s.equalWithin (budget + 1) v w ≠ none

/-- One of the comparisons inside is the last one to be decided. -/
theorem DecidedAfter.inside {budget : Nat} (h : s.DecidedAfter (budget + 1) v w) :
    ∃ ps p, s.compare v w = .inr ps ∧ some p ∈ ps ∧ s.DecidedAfter budget p.1 p.2 := by
  obtain ⟨hnone, hsome⟩ := h
  rw [equalWithin_succ] at hnone hsome
  cases hc : s.compare v w with
  | inl b =>
    rw [hc] at hnone
    cases hnone
  | inr ps =>
    rw [hc] at hnone hsome
    have hmono : ∀ p b, s.answerWithin budget p = some b →
        s.answerWithin (budget + 1) p = some b := by
      intro p b hp
      cases p with
      | none => exact hp
      | some p => exact equalWithin_mono_succ hp
    obtain ⟨p, hp, hundecided⟩ := exists_undecided hmono hnone hsome
    cases p with
    | none => cases hundecided.1
    | some p => exact ⟨ps, p, rfl, hp, hundecided⟩

/-- The pairs of containers on the way to a late decision, which are all different: the outer ones
    are decided later. -/
theorem DecidedAfter.exists_chain {budget : Nat} (h : s.DecidedAfter budget v w) :
    ∃ chain : List (Value × Value), chain.length = budget ∧ chain.Nodup ∧
      (∀ p ∈ chain, p ∈ s.containerList ×ˢ s.containerList) ∧
      ∀ p ∈ chain, s.equalWithin (budget + 1) p.1 p.2 ≠ none := by
  induction budget generalizing v w with
  | zero => exact ⟨[], rfl, List.nodup_nil, nofun, nofun⟩
  | succ budget ih =>
    obtain ⟨ps, p, hc, hp, hinside⟩ := h.inside
    obtain ⟨chain, hlength, hnodup, hmem, hdecided⟩ := ih hinside
    obtain ⟨hv, hw⟩ := mem_containerList_of_compare s v w hc hp
    refine ⟨(v, w) :: chain, ?_, ?_, ?_, ?_⟩
    · rw [List.length_cons, hlength]
    · refine List.nodup_cons.mpr ⟨?_, hnodup⟩
      intro hin
      exact hdecided _ hin h.1
    · exact List.forall_mem_cons.mpr ⟨List.mem_product.mpr ⟨hv, hw⟩, hmem⟩
    · refine List.forall_mem_cons.mpr ⟨h.2, ?_⟩
      intro q hq hnone
      obtain ⟨b, hb⟩ := Option.ne_none_iff_exists'.mp (hdecided q hq)
      rw [equalWithin_mono_succ hb] at hnone
      cases hnone

theorem DecidedAfter.le {budget : Nat} (h : s.DecidedAfter budget v w) :
    budget ≤ s.containers * s.containers := by
  obtain ⟨chain, hlength, hnodup, hmem, -⟩ := h.exists_chain
  have hle := (List.subperm_of_subset hnodup hmem).length_le
  rwa [hlength, List.length_product, s.length_containerList] at hle

/-- A budget of more than all pairs of containers gives the answer. -/
theorem equalWithin_eq_equal? {budget : Nat} (h : s.containers * s.containers < budget) :
    s.equalWithin budget v w = s.equal? v w := by
  induction budget, h using Nat.le_induction with
  | base => rfl
  | succ budget hle ih =>
    rw [← ih]
    cases hb : s.equalWithin budget v w with
    | some b => exact equalWithin_mono_succ hb
    | none =>
      by_contra hsome
      have hlate : s.DecidedAfter budget v w := ⟨hb, hsome⟩
      exact absurd hlate.le (Nat.not_le.mpr hle)

end Budget

/-! ## Linked stores -/

/-- Tests that agree on the places of two lists give the same answer. -/
theorem allEqual_congr {α β : Type} {test : α → Option Bool} {test' : β → Option Bool}
    {as : List α} {bs : List β} (h : List.Forall₂ (fun a b => test a = test' b) as bs) :
    allEqual test as = allEqual test' bs := by
  induction h with
  | nil => rfl
  | cons hab _ ih => rw [allEqual, allEqual, hab, ih]

/-- Pairs of values that are linked one by one. -/
def PairLinked (L : Links) (p q : Value × Value) : Prop :=
  p.1.Linked L q.1 ∧ p.2.Linked L q.2

/-- Comparisons that have the same answer, or come down to comparing linked values. -/
inductive ComparesAlike (L : Links) : Bool ⊕ List (Option (Value × Value)) →
    Bool ⊕ List (Option (Value × Value)) → Prop
  | inl (b : Bool) : ComparesAlike L (.inl b) (.inl b)
  | inr {ps qs : List (Option (Value × Value))}
    (h : List.Forall₂ (Option.Rel (PairLinked L)) ps qs) : ComparesAlike L (.inr ps) (.inr qs)

namespace ComparesAlike

variable {L : Links} {c d : Bool ⊕ List (Option (Value × Value))} (h : ComparesAlike L c d)
include h

theorem getLeft?_eq : c.getLeft? = d.getLeft? := by
  cases h <;> rfl

theorem answer_eq {test test' : Option (Value × Value) → Option Bool}
    (hnone : test none = test' none)
    (hsome : ∀ p q, PairLinked L p q → test (some p) = test' (some q)) :
    answer test c = answer test' d := by
  cases h with
  | inl b => rfl
  | inr hps =>
    refine allEqual_congr (hps.imp ?_)
    intro p q hpq
    cases hpq with
    | none => exact hnone
    | some hpq => exact hsome _ _ hpq

end ComparesAlike

theorem forall₂_zip {L : Links} {vs ws vs' ws' : List Value} (h : Value.AllLinked L vs ws)
    (h' : Value.AllLinked L vs' ws') :
    List.Forall₂ (Option.Rel (PairLinked L)) ((vs.zip vs').map some) ((ws.zip ws').map some) := by
  unfold Value.AllLinked at h h'
  induction h generalizing vs' ws' with
  | nil => exact .nil
  | cons hv _ ih =>
    cases h' with
    | nil => exact .nil
    | cons hv' rest => exact .cons (.some ⟨hv, hv'⟩) (ih rest)

/-- The entries of an object beside those of another that have the same keys. -/
theorem forall₂_lookup {L : Links} {m n m' n' : Members} (h : m.Linked L n) (h' : m'.Linked L n') :
    List.Forall₂ (Option.Rel (PairLinked L))
      (m.entries.map fun entry => (m'.get? entry.1).map fun other => (entry.2, other))
      (n.entries.map fun entry => (n'.get? entry.1).map fun other => (entry.2, other)) := by
  rw [List.forall₂_map_left_iff, List.forall₂_map_right_iff]
  refine List.Forall₂.imp ?_ h.entries
  rintro ⟨key, v⟩ ⟨_, w⟩ ⟨rfl, hv⟩
  rcases rel_cases (h'.get? key) with ⟨hx, hy⟩ | ⟨x, y, hx, hy, hxy⟩
  · rw [hx, hy]
    exact .none
  · rw [hx, hy]
    exact .some ⟨hv, hxy⟩

namespace Linked

variable {L : Links} {ok : Function → Prop} {s t : Store} (h : s.Linked L ok t) (hL : L.Ordered)
  {v w v' w' : Value}
include h hL

theorem compare_alike (hv : v.Linked L w) (hv' : v'.Linked L w') :
    ComparesAlike L (s.compare v v') (t.compare w w') := by
  cases hv with
  | @array a b hab =>
    cases hv' with
    | @array a' b' hab' =>
      have hsize := List.Forall₂.length_eq (h.elements hab)
      have hsize' := List.Forall₂.length_eq (h.elements hab')
      rw [Array.length_toList, Array.length_toList] at hsize hsize'
      rw [compare, compare, hsize, hsize']
      by_cases hsame : a = a'
      · rw [if_pos hsame, if_pos ((hL.arrays.eq_iff hab hab').mp hsame)]
        exact .inl true
      · rw [if_neg hsame, if_neg (mt (hL.arrays.eq_iff hab hab').mpr hsame)]
        split
        · exact .inr (.cons .none .nil)
        · exact .inr (forall₂_zip (h.elements hab) (h.elements hab'))
    | _ => exact .inl _
  | @object a b hab =>
    cases hv' with
    | @object a' b' hab' =>
      have hother := h.members hab'
      rw [compare, compare, (h.members hab).size_eq, hother.size_eq]
      by_cases hsame : a = a'
      · rw [if_pos hsame, if_pos ((hL.objects.eq_iff hab hab').mp hsame)]
        exact .inl true
      · rw [if_neg hsame, if_neg (mt (hL.objects.eq_iff hab hab').mpr hsame)]
        split
        · exact .inr (.cons .none .nil)
        · exact .inr (forall₂_lookup (h.members hab) hother)
    | _ => exact .inl _
  | function hf =>
    cases hv' with
    | function hf' =>
      simp only [compare, hL.functions.eq_iff hf hf']
      exact .inl _
    | _ => exact .inl _
  | scope hf =>
    cases hv' with
    | scope hf' =>
      simp only [compare, hL.frames.eq_iff hf hf']
      exact .inl _
    | _ => exact .inl _
  | _ => cases hv' <;> exact .inl _

theorem equalWithin_eq (hv : v.Linked L w) (hv' : v'.Linked L w') (budget : Nat) :
    s.equalWithin budget v v' = t.equalWithin budget w w' := by
  induction budget generalizing v w v' w' with
  | zero =>
    rw [equalWithin_zero, equalWithin_zero]
    exact (h.compare_alike hL hv hv').getLeft?_eq
  | succ budget ih =>
    rw [equalWithin_succ, equalWithin_succ]
    refine (h.compare_alike hL hv hv').answer_eq rfl ?_
    intro p q hpq
    exact ih hpq.1 hpq.2

/-- Linked values are equal in one store exactly if they are in the other. -/
theorem equal?_eq (hv : v.Linked L w) (hv' : v'.Linked L w') : s.equal? v v' = t.equal? w w' := by
  have hs : s.containers * s.containers <
      s.containers * s.containers + t.containers * t.containers + 1 := by omega
  have ht : t.containers * t.containers <
      s.containers * s.containers + t.containers * t.containers + 1 := by omega
  rw [← equalWithin_eq_equal? hs, ← equalWithin_eq_equal? ht]
  exact h.equalWithin_eq hL hv hv' _

end Linked

end Store

end ExprLang
