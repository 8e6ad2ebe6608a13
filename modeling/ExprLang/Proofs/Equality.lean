import ExprLang.Proofs.Alike
import ExprLang.Proofs.Encoding
import ExprLang.Proofs.WellFormed
import Mathlib.Data.Finset.Card

/-!
# The laws of equality

Equality of two containers goes through one of them only and compares sizes, and it is settled at
once if both are the same. Read one layer at a time (`Store.Equal.layer`, `Store.Layer.equal`), it
is the same from both sides. On values that do not hold themselves every comparison has an answer,
and the laws of equality hold layer by layer (`Store.equal?_lawful`).
-/

namespace ExprLang

theorem Double.equals_comm (x y : Double) : x.equals y = y.equals x := by
  have hkeys : decide (x.orderKey = y.orderKey) = decide (y.orderKey = x.orderKey) :=
    decide_eq_decide.mpr eq_comm
  rw [equals, equals, Bool.and_comm (!x.isNaN), hkeys]

namespace Store

open Relation (ReflTransGen TransGen)

/-! ## Values that do not hold themselves -/

/-- Nothing that a value reaches reaches itself. -/
def Acyclic (s : Store) (v : Value) : Prop :=
  ∀ w, ReflTransGen s.Part v w → ¬ TransGen s.Part w w

/-- No double is among what a value reaches. -/
def NoDoubles (s : Store) (v : Value) : Prop :=
  ∀ w, ReflTransGen s.Part v w → w.kind ≠ .double

section Reach

variable {s : Store} {v w : Value}

theorem Acyclic.part (h : s.Acyclic v) (hw : s.Part v w) : s.Acyclic w :=
  fun u hu => h u (.head hw hu)

theorem NoDoubles.part (h : s.NoDoubles v) (hw : s.Part v w) : s.NoDoubles w :=
  fun u hu => h u (.head hw hu)

theorem Part.mem_containerList (h : s.Part v w) : v ∈ s.containerList := by
  cases h with
  | element h => exact array_mem_containerList (List.ne_nil_of_mem h)
  | member h => exact object_mem_containerList (Members.mem_vals_of_mem_entries h)

open Classical in
/-- The containers that a value reaches. -/
noncomputable def reached (s : Store) (v : Value) : Finset Value :=
  s.containerList.toFinset.filter (ReflTransGen s.Part v)

theorem mem_reached : w ∈ s.reached v ↔ w ∈ s.containerList ∧ ReflTransGen s.Part v w := by
  classical
  rw [reached, Finset.mem_filter, List.mem_toFinset]

/-- The parts of a value reach fewer containers than the value itself. -/
theorem Acyclic.card_reached_lt (h : s.Acyclic v) (hw : s.Part v w) :
    (s.reached w).card < (s.reached v).card := by
  apply Finset.card_lt_card
  refine ⟨fun u hu => ?_, fun hsubset => ?_⟩
  · obtain ⟨hcell, hreach⟩ := mem_reached.mp hu
    exact mem_reached.mpr ⟨hcell, .head hw hreach⟩
  · have hback := mem_reached.mp (hsubset (mem_reached.mpr ⟨hw.mem_containerList, .refl⟩))
    exact h v .refl (.head' hw hback.2)

/-- What holds of a value if it holds of its parts holds of every value that does not hold
    itself. -/
theorem Acyclic.induct {motive : Value → Prop} (h : s.Acyclic v)
    (step : ∀ v, s.Acyclic v → (∀ w, s.Part v w → motive w) → motive v) : motive v := by
  induction hcard : (s.reached v).card using Nat.strong_induction_on generalizing v with
  | _ card ih =>
    subst hcard
    exact step v h fun w hw => ih _ (h.card_reached_lt hw) (h.part hw) rfl

end Reach

/-! ## One layer -/

/-- Values that are equal if values related by `R` are: numbers by their value, arrays place by
    place, objects key by key, and the rest, like a container with itself, by identity. -/
inductive Layer (s : Store) (R : Value → Value → Prop) : Value → Value → Prop
  | int (n : Int64) : Layer s R (.int n) (.int n)
  | intDouble {n : Int64} {x : Double} (h : (Double.ofInt n.toInt).equals x = true) :
    Layer s R (.int n) (.double x)
  | doubleInt {x : Double} {n : Int64} (h : x.equals (Double.ofInt n.toInt) = true) :
    Layer s R (.double x) (.int n)
  | double {x y : Double} (h : x.equals y = true) : Layer s R (.double x) (.double y)
  | text (t : Text) : Layer s R (.text t) (.text t)
  | function (id : Nat) : Layer s R (.function id) (.function id)
  | scope (id : Nat) : Layer s R (.scope id) (.scope id)
  | sameArray (id : Nat) : Layer s R (.array id) (.array id)
  | array {i j : Nat} (h : List.Forall₂ R (s.elements i).toList (s.elements j).toList) :
    Layer s R (.array i) (.array j)
  | sameObject (id : Nat) : Layer s R (.object id) (.object id)
  | object {i j : Nat} (hkeys : ∀ key, key ∈ (s.members i).keys ↔ key ∈ (s.members j).keys)
    (h : ∀ key x y, (s.members i).get? key = some x → (s.members j).get? key = some y → R x y) :
    Layer s R (.object i) (.object j)

/-- Values that are found equal. -/
def Equal (s : Store) (v w : Value) : Prop := s.equal? v w = some true

section Answers

variable {s : Store} {v w : Value}

/-- An answer within some budget is the answer. -/
theorem equal?_of_equalWithin {budget : Nat} {b : Bool} (h : s.equalWithin budget v w = some b) :
    s.equal? v w = some b := by
  have hmore (extra : Nat) : s.equalWithin (budget + extra) v w = some b := by
    induction extra with
    | zero => exact h
    | succ extra ih => exact equalWithin_mono_succ ih
  rw [← hmore (s.containers * s.containers + 1), equalWithin_eq_equal? (by omega)]

/-- The answer depends on one step of the comparison, and on the answers for what is inside. -/
theorem equal?_eq_answer : s.equal? v w =
    answer (s.answerWithin (s.containers * s.containers + 1)) (s.compare v w) := by
  rw [← equalWithin_succ, equalWithin_eq_equal? (by omega)]

theorem equal_of_settled (h : s.compare v w = .inl true) : s.Equal v w := by
  rw [Equal, equal?_eq_answer, h]
  rfl

theorem equal_of_compare {ps : List (Option (Value × Value))}
    (hcompare : s.compare v w = .inl true ∨ s.compare v w = .inr ps)
    (hps : ∀ p ∈ ps, ∃ x y, p = some (x, y) ∧ s.Equal x y) : s.Equal v w :=
  equal?_of_equalWithin (Holds.equalWithin_of_compare hcompare hps)

theorem equal_arrays_iff {i j : Nat} : s.Equal (.array i) (.array j) ↔
    i = j ∨ List.Forall₂ s.Equal (s.elements i).toList (s.elements j).toList := by
  constructor
  · intro h
    rcases Holds.equal_arrays h with rfl | ⟨hsize, rest, hequal⟩
    · exact .inl rfl
    · refine .inr (List.forall₂_iff_zip.mpr ⟨hsize, fun {x y} hxy => ?_⟩)
      exact equal?_of_equalWithin (hequal x y hxy)
  · rintro (rfl | h)
    · exact equal_of_settled (by rw [compare, if_pos rfl])
    · refine equal_of_compare (Holds.compare_array h.length_eq) fun p hp => ?_
      obtain ⟨⟨x, y⟩, hxy, rfl⟩ := List.mem_map.mp hp
      exact ⟨x, y, rfl, (List.forall₂_iff_zip.mp h).2 hxy⟩

theorem WellFormed.members (hs : s.WellFormed) (id : Nat) : (s.members id).WellFormed := by
  unfold Store.members
  rw [Array.getD_eq_getD_getElem?]
  cases hcell : s.objects[id]? with
  | none => exact .empty
  | some m => exact hs.keys m (Array.mem_of_getElem? hcell)

/-- Two objects are equal if they are the same or have equal members under the same keys. -/
theorem equal_objects_iff (hs : s.WellFormed) {i j : Nat} : s.Equal (.object i) (.object j) ↔
    i = j ∨ (∀ key, key ∈ (s.members i).keys ↔ key ∈ (s.members j).keys) ∧
      ∀ key x y, (s.members i).get? key = some x → (s.members j).get? key = some y →
        s.Equal x y := by
  have hi := hs.members i
  have hj := hs.members j
  constructor
  · intro h
    rcases Holds.equal_objects h with rfl | ⟨hsize, rest, hequal⟩
    · exact .inl rfl
    · have hperm : (s.members i).keys.Perm (s.members j).keys := by
        refine Holds.keys_perm_of_found hi hj hsize fun key x hx => ?_
        obtain ⟨y, hy, -⟩ := hequal key x hx
        exact ⟨y, hy⟩
      refine .inr ⟨fun key => hperm.mem_iff, fun key x y hx hy => ?_⟩
      obtain ⟨z, hz, hxz⟩ := hequal key x (hi.mem_entries.mpr hx)
      obtain rfl : z = y := Option.some.inj (hz.symm.trans hy)
      exact equal?_of_equalWithin hxz
  · rintro (rfl | ⟨hkeys, hmembers⟩)
    · exact equal_of_settled (by rw [compare, if_pos rfl])
    · -- no key comes twice, so the same keys are equally many
      have hsize : (s.members i).size = (s.members j).size :=
        ((List.perm_ext_iff_of_nodup hi.nodup hj.nodup).mpr hkeys).length_eq
      refine equal_of_compare (Holds.compare_object hsize) fun p hp => ?_
      obtain ⟨⟨key, x⟩, hx, rfl⟩ := List.mem_map.mp hp
      have hget := hi.mem_entries.mp hx
      obtain ⟨y, hy⟩ := hj.mem_keys_iff.mp ((hkeys key).mp (hi.mem_keys_iff.mpr ⟨x, hget⟩))
      exact ⟨x, y, by rw [hy]; rfl, hmembers key x y hget hy⟩

theorem Equal.layer (hs : s.WellFormed) (h : s.Equal v w) : s.Layer s.Equal v w := by
  cases v with
  | int m =>
    cases w with
    | int n =>
      obtain rfl : m = n := of_decide_eq_true (Option.some.inj h)
      exact .int m
    | double y => exact .intDouble (Option.some.inj h)
    | _ => cases h
  | double x =>
    cases w with
    | int n => exact .doubleInt (Option.some.inj h)
    | double y => exact .double (Option.some.inj h)
    | _ => cases h
  | text t =>
    cases w with
    | text u =>
      obtain rfl : t = u := of_decide_eq_true (Option.some.inj h)
      exact .text t
    | _ => cases h
  | array i =>
    cases w with
    | array j =>
      rcases equal_arrays_iff.mp h with rfl | helems
      · exact .sameArray i
      · exact .array helems
    | _ => cases h
  | object i =>
    cases w with
    | object j =>
      rcases (equal_objects_iff hs).mp h with rfl | ⟨hkeys, hmembers⟩
      · exact .sameObject i
      · exact .object hkeys hmembers
    | _ => cases h
  | function i =>
    cases w with
    | function j =>
      obtain rfl : i = j := of_decide_eq_true (Option.some.inj h)
      exact .function i
    | _ => cases h
  | scope i =>
    cases w with
    | scope j =>
      obtain rfl : i = j := of_decide_eq_true (Option.some.inj h)
      exact .scope i
    | _ => cases h

theorem Layer.equal (hs : s.WellFormed) (h : s.Layer s.Equal v w) : s.Equal v w := by
  cases h with
  | int n => exact congrArg some (decide_eq_true rfl)
  | intDouble h => exact congrArg some h
  | doubleInt h => exact congrArg some h
  | double h => exact congrArg some h
  | text t => exact congrArg some (decide_eq_true rfl)
  | function id => exact congrArg some (decide_eq_true rfl)
  | scope id => exact congrArg some (decide_eq_true rfl)
  | sameArray id => exact equal_arrays_iff.mpr (.inl rfl)
  | array h => exact equal_arrays_iff.mpr (.inr h)
  | sameObject id => exact (equal_objects_iff hs).mpr (.inl rfl)
  | object hkeys h => exact (equal_objects_iff hs).mpr (.inr ⟨hkeys, h⟩)

/-- Comparisons go down to parts of the first value. -/
theorem part_of_compare {ps : List (Option (Value × Value))} {x y : Value}
    (h : s.compare v w = .inr ps) (hp : some (x, y) ∈ ps) : s.Part v x := by
  cases v with
  | array i =>
    cases w with
    | array j =>
      rw [compare] at h
      split at h
      · cases h
      · split at h
        · cases h
          cases hp with | tail _ hp => cases hp
        · cases h
          obtain ⟨pair, hpair, heq⟩ := List.mem_map.mp hp
          cases heq
          exact .element (List.of_mem_zip hpair).1
    | _ => cases h
  | object i =>
    cases w with
    | object j =>
      rw [compare] at h
      split at h
      · cases h
      · split at h
        · cases h
          cases hp with | tail _ hp => cases hp
        · cases h
          obtain ⟨⟨key, x⟩, hx, heq⟩ := List.mem_map.mp hp
          obtain ⟨_, -, heq⟩ := Option.map_eq_some_iff.mp heq
          cases heq
          exact .member hx
    | _ => cases h
  | _ => cases w <;> cases h

/-- A comparison of a value that does not hold itself comes to an end. -/
theorem Acyclic.exists_equal? (h : s.Acyclic v) (w : Value) : ∃ b, s.equal? v w = some b := by
  refine h.induct (motive := fun v => ∀ w, ∃ b, s.equal? v w = some b) ?_ w
  intro v _ ih w
  rw [equal?_eq_answer]
  cases hcompare : s.compare v w with
  | inl b => exact ⟨b, rfl⟩
  | inr ps =>
    refine exists_allEqual fun p hp => ?_
    cases p with
    | none => exact ⟨false, rfl⟩
    | some pair => exact ih pair.1 (part_of_compare hcompare hp) pair.2

end Answers

/-! ## The laws -/

theorem forall₂_trans_of_mem {α : Type} {R : α → α → Prop} {xs ys zs : List α}
    (h : List.Forall₂ R xs ys) (h' : List.Forall₂ R ys zs)
    (htrans : ∀ x ∈ xs, ∀ y ∈ ys, ∀ z ∈ zs, R x y → R y z → R x z) : List.Forall₂ R xs zs := by
  induction h generalizing zs with
  | nil =>
    cases h'
    exact .nil
  | cons hxy _ ih =>
    obtain _ | ⟨hyz, h'⟩ := h'
    refine .cons (htrans _ List.mem_cons_self _ List.mem_cons_self _ List.mem_cons_self hxy hyz)
      (ih h' fun x hx y hy z hz => ?_)
    exact htrans x (List.mem_cons_of_mem _ hx) y (List.mem_cons_of_mem _ hy) z
      (List.mem_cons_of_mem _ hz)

section Laws

variable {s : Store} (hs : s.WellFormed) {a b c : Value}

include hs

theorem part_of_get? {id : Nat} {key : Text} {v : Value}
    (h : (s.members id).get? key = some v) : s.Part (.object id) v :=
  .member ((hs.members id).mem_entries.mpr h)

theorem Acyclic.equal_symm (ha : s.Acyclic a) (hab : s.Equal a b) : s.Equal b a := by
  refine ha.induct (motive := fun a => ∀ b, s.Equal a b → s.Equal b a) ?_ b hab
  intro a _ ih b hab
  refine Layer.equal hs ?_
  cases hab.layer hs with
  | int n => exact .int n
  | intDouble h => exact .doubleInt (by rwa [Double.equals_comm])
  | doubleInt h => exact .intDouble (by rwa [Double.equals_comm])
  | double h => exact .double (by rwa [Double.equals_comm])
  | text t => exact .text t
  | function id => exact .function id
  | scope id => exact .scope id
  | sameArray id => exact .sameArray id
  | array h => exact .array (forall₂_imp_of_mem h.flip fun x hx y => ih x (.element hx) y)
  | sameObject id => exact .sameObject id
  | object hkeys h =>
    refine .object (fun key => (hkeys key).symm) fun key y x hy hx => ?_
    exact ih x (part_of_get? hs hx) y (h key x y hx hy)

theorem NoDoubles.equal_refl (ha : s.NoDoubles a) : s.Equal a a := by
  refine Layer.equal hs ?_
  cases a with
  | int n => exact .int n
  | double x => exact absurd rfl (ha _ .refl)
  | text t => exact .text t
  | array id => exact .sameArray id
  | object id => exact .sameObject id
  | function id => exact .function id
  | scope id => exact .scope id

theorem Acyclic.equal_trans (hacyclic : s.Acyclic a) (ha : s.NoDoubles a) (hb : s.NoDoubles b)
    (hc : s.NoDoubles c) (hab : s.Equal a b) (hbc : s.Equal b c) : s.Equal a c := by
  refine hacyclic.induct (motive := fun a => ∀ b c, s.NoDoubles a → s.NoDoubles b →
    s.NoDoubles c → s.Equal a b → s.Equal b c → s.Equal a c) ?_ b c ha hb hc hab hbc
  intro a _ ih b c ha hb hc hab hbc
  cases hab.layer hs with
  | int n => exact hbc
  | intDouble _ => exact absurd rfl (hb _ .refl)
  | doubleInt _ => exact absurd rfl (ha _ .refl)
  | double _ => exact absurd rfl (ha _ .refl)
  | text t => exact hbc
  | function id => exact hbc
  | scope id => exact hbc
  | sameArray id => exact hbc
  | array h =>
    cases hbc.layer hs with
    | sameArray id => exact hab
    | array h' =>
      refine Layer.equal hs (.array (forall₂_trans_of_mem h h' ?_))
      intro x hx y hy z hz
      exact ih x (.element hx) y z (ha.part (.element hx)) (hb.part (.element hy))
        (hc.part (.element hz))
  | sameObject id => exact hbc
  | @object i j hkeys h =>
    cases hbc.layer hs with
    | sameObject id => exact hab
    | @object _ k hkeys' h' =>
      refine Layer.equal hs (.object (fun key => (hkeys key).trans (hkeys' key)) ?_)
      intro key x z hx hz
      -- the key has a member in the object between them
      have hkey := (hkeys key).mp ((hs.members i).mem_keys_iff.mpr ⟨x, hx⟩)
      obtain ⟨y, hy⟩ := (hs.members j).mem_keys_iff.mp hkey
      have hpart := part_of_get? hs hx
      exact ih x hpart y z (ha.part hpart) (hb.part (part_of_get? hs hy))
        (hc.part (part_of_get? hs hz)) (h key x y hx hy) (h' key y z hy hz)

/-- Objects without doubles are equal exactly if they have equal members under the same keys. -/
theorem NoDoubles.equal_objects_iff {i j : Nat} (hi : s.NoDoubles (.object i)) :
    s.Equal (.object i) (.object j) ↔
      (∀ key, key ∈ (s.members i).keys ↔ key ∈ (s.members j).keys) ∧
      ∀ key x y, (s.members i).get? key = some x → (s.members j).get? key = some y →
        s.Equal x y := by
  refine (Store.equal_objects_iff hs).trans ⟨?_, .inr⟩
  rintro (rfl | h)
  · refine ⟨fun _ => Iff.rfl, fun key x y hx hy => ?_⟩
    obtain rfl := Option.some.inj (hx.symm.trans hy)
    exact (hi.part (part_of_get? hs hx)).equal_refl hs
  · exact h

end Laws

/-- Equality is lawful in every well-formed store. Two values that do not hold themselves are
    compared with the same answer from both sides. Where no doubles are in them, equality is
    reflexive and transitive, and objects are equal exactly if they have the same keys, in whatever
    order, with equal members under them. Functions and scopes are equal to themselves alone. -/
theorem equal?_lawful {s : Store} (hs : s.WellFormed) :
    (∀ a b, s.Acyclic a → s.Acyclic b →
      ∃ answer, s.equal? a b = some answer ∧ s.equal? b a = some answer) ∧
    (∀ a, s.Acyclic a → s.NoDoubles a → s.equal? a a = some true) ∧
    (∀ a b c, s.Acyclic a → s.NoDoubles a → s.Acyclic b → s.NoDoubles b → s.Acyclic c →
      s.NoDoubles c → s.equal? a b = some true → s.equal? b c = some true →
        s.equal? a c = some true) ∧
    (∀ i j, s.Acyclic (.object i) → s.NoDoubles (.object i) → s.Acyclic (.object j) →
      s.NoDoubles (.object j) →
        (s.equal? (.object i) (.object j) = some true ↔
          (∀ key, key ∈ (s.members i).keys ↔ key ∈ (s.members j).keys) ∧
          ∀ key x y, (s.members i).get? key = some x → (s.members j).get? key = some y →
            s.equal? x y = some true)) ∧
    (∀ i w, s.equal? (.function i) w = some true ↔ w = .function i) ∧
    (∀ i w, s.equal? (.scope i) w = some true ↔ w = .scope i) := by
  refine ⟨?_, fun a _ ha => ha.equal_refl hs, ?_, fun i j _ hi _ _ => hi.equal_objects_iff hs,
    ?_, ?_⟩
  · intro a b ha hb
    obtain ⟨answer, hab⟩ := ha.exists_equal? b
    obtain ⟨answer', hba⟩ := hb.exists_equal? a
    have hiff : s.Equal a b ↔ s.Equal b a := ⟨ha.equal_symm hs, hb.equal_symm hs⟩
    rw [Equal, Equal, hab, hba, Option.some.injEq, Option.some.injEq] at hiff
    exact ⟨answer, hab, by rw [hba, Bool.eq_iff_iff.mpr hiff]⟩
  · intro a b c ha ha' _ hb' _ hc'
    exact ha.equal_trans hs ha' hb' hc'
  · intro i w
    constructor
    · intro h
      cases Equal.layer hs h with | function => rfl
    · rintro rfl
      exact Layer.equal hs (.function i)
  · intro i w
    constructor
    · intro h
      cases Equal.layer hs h with | scope => rfl
    · rintro rfl
      exact Layer.equal hs (.scope i)

/-- Values are not inside themselves if what is inside ranks lower. -/
theorem acyclic_of_rank {s : Store} {rank : Value → Nat}
    (h : ∀ v w, s.Part v w → rank w < rank v) (v : Value) : s.Acyclic v := by
  intro w _ hcircle
  have hlt : ∀ {u}, TransGen s.Part w u → rank u < rank w := by
    intro u hu
    induction hu with
    | single hu => exact h _ _ hu
    | tail _ hu ih => exact (h _ _ hu).trans ih
  exact Nat.lt_irrefl _ (hlt hcircle)

end Store

/-- Two objects with the same members in different orders, and arrays inside that are copies of each
    other. -/
def reorderedCopies : Store :=
  { arrays := #[#[.int 7, .function 0], #[.int 7, .function 0]]
    objects := #[.ofList [("a", .text "x"), ("b", .array 0)],
      .ofList [("b", .array 1), ("a", .text "x")]] }

/-- How deep a value of `reorderedCopies` can be. -/
def reorderedRank : Value → Nat
  | .object _ => 2
  | .array _ => 1
  | _ => 0

theorem reorderedCopies_part {v w : Value} (h : reorderedCopies.Part v w) :
    reorderedRank w < reorderedRank v ∧ w.kind ≠ .double := by
  cases h with
  | @element id _ h =>
    have hmem : w = .int 7 ∨ w = .function 0 := by
      rcases id with _ | _ | id
      · simpa [reorderedCopies, Store.elements] using h
      · simpa [reorderedCopies, Store.elements] using h
      · simp [reorderedCopies, Store.elements] at h
    rcases hmem with rfl | rfl <;> simp [reorderedRank, Value.kind]
  | @member id key _ h =>
    have hmem : w = .text "x" ∨ w = .array 0 ∨ w = .array 1 := by
      have hvals := Members.mem_vals_of_mem_entries h
      have hlisted : ∀ id < 2, ∀ entry ∈ (reorderedCopies.members id).vals,
          entry.2 = .text "x" ∨ entry.2 = .array 0 ∨ entry.2 = .array 1 := by decide
      rcases Nat.lt_or_ge id 2 with hid | hid
      · exact hlisted id hid _ hvals
      · simp [reorderedCopies, Store.members, Members.empty, hid.not_gt] at hvals
    rcases hmem with rfl | rfl | rfl <;> simp [reorderedRank, Value.kind]

theorem reorderedCopies_wellFormed : reorderedCopies.WellFormed := by
  have hvalue (v : Value) (hv : v.kind ≠ .scope) : v.Within 0 := by
    rintro id rfl
    exact absurd rfl hv
  have hmembers (m : Members) (hm : ∀ entry ∈ m.vals, entry.2.kind ≠ .scope) : m.Within 0 :=
    fun key v hmem => hvalue v (hm (key, v) hmem)
  have harray : ∀ v ∈ (#[.int 7, .function 0] : Array Value).toList, v.Within 0 :=
    fun v hv => hvalue v ((by decide : ∀ v ∈ [.int 7, .function 0], Value.kind v ≠ .scope) v hv)
  have harrays := (Store.WellFormed.empty.newArray harray).newArray harray
  have hfirst := harrays.newObject (m := .ofList [("a", .text "x"), ("b", .array 0)])
    (hmembers _ (by decide)) (.ofList _)
  exact hfirst.newObject (m := .ofList [("b", .array 1), ("a", .text "x")])
    (hmembers _ (by decide)) (.ofList _)

theorem acyclic_reorderedCopies (v : Value) : reorderedCopies.Acyclic v :=
  Store.acyclic_of_rank (fun _ _ h => (reorderedCopies_part h).1) v

theorem noDoubles_reorderedCopies (id : Nat) : reorderedCopies.NoDoubles (.object id) := by
  intro w hw
  rcases hw.cases_tail with heq | ⟨u, -, hpart⟩
  · rw [heq]
    exact Value.Kind.noConfusion
  · exact (reorderedCopies_part hpart).2

theorem equal?_lawful_reorderedCopies :
    reorderedCopies.WellFormed ∧ reorderedCopies.Acyclic (.object 0) ∧
    reorderedCopies.Acyclic (.object 1) ∧ reorderedCopies.NoDoubles (.object 0) ∧
    reorderedCopies.NoDoubles (.object 1) ∧
    (∃ answer, reorderedCopies.equal? (.object 0) (.object 1) = some answer ∧
      reorderedCopies.equal? (.object 1) (.object 0) = some answer) ∧
    reorderedCopies.equal? (.object 0) (.object 1) = some true ∧
    reorderedCopies.equal? (.object 0) (.object 0) = some true ∧
    (reorderedCopies.equal? (.object 0) (.object 1) = some true ↔
      (∀ key, key ∈ (reorderedCopies.members 0).keys ↔ key ∈ (reorderedCopies.members 1).keys) ∧
      ∀ key x y, (reorderedCopies.members 0).get? key = some x →
        (reorderedCopies.members 1).get? key = some y →
          reorderedCopies.equal? x y = some true) := by
  have ha := acyclic_reorderedCopies
  have hn := noDoubles_reorderedCopies
  have hforth : reorderedCopies.equal? (.object 0) (.object 1) = some true := by decide
  have hback : reorderedCopies.equal? (.object 1) (.object 0) = some true := by decide
  obtain ⟨hsymm, -, htrans, hobjects, -⟩ := Store.equal?_lawful reorderedCopies_wellFormed
  exact ⟨reorderedCopies_wellFormed, ha _, ha _, hn 0, hn 1, hsymm _ _ (ha _) (ha _), hforth,
    htrans _ _ _ (ha _) (hn 0) (ha _) (hn 1) (ha _) (hn 0) hforth hback,
    hobjects 0 1 (ha _) (hn 0) (ha _) (hn 1)⟩

end ExprLang
