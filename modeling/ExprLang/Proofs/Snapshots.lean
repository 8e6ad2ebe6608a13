import ExprLang.Proofs.Intact
import ExprLang.Proofs.Isolation

/-!
# Loops over snapshots

A loop over a container goes through the items that the container has when it has been evaluated,
one round each and in their order, whatever the rounds do to the container
(`Engine.loopEach_rounds`). The items of an array are its elements, those of an object or a scope
pairs of key and value. The pairs are made before the first round, and the one that a round takes is
still what it was made as: it lies in a cell that nothing refers to, which the rounds before cannot
have got hold of.
-/

namespace ExprLang

/-! ## Loose cells -/

/-- Every cell stands for itself, but those of a set stand for none. -/
def Links.avoiding (P : Cell → Prop) : Links where
  frames := fun a b => a = b ∧ ¬ P (.frame a)
  arrays := fun a b => a = b ∧ ¬ P (.array a)
  objects := fun a b => a = b ∧ ¬ P (.object a)
  functions := fun a b => a = b ∧ ¬ P (.function a)

/-- Cells of a store that no cell refers to. -/
structure Store.Loose (s : Store) (P : Cell → Prop) : Prop where
  has : ∀ c, P c → s.Has c
  unreferenced : ∀ c content, s.cell? c = some content → ∀ d ∈ content.cells, ¬ P d

section Loose

variable {P Q : Cell → Prop} {s s' t : Store}

theorem orderPreserving_of_eq {r : Nat → Nat → Prop} (h : ∀ a b, r a b → a = b) :
    OrderPreserving r where
  lt_iff := by
    intro a b a' b' hab hab'
    rw [h a b hab, h a' b' hab']

theorem Links.avoiding_ordered (P : Cell → Prop) : (avoiding P).Ordered :=
  ⟨orderPreserving_of_eq fun _ _ => And.left, orderPreserving_of_eq fun _ _ => And.left,
    orderPreserving_of_eq fun _ _ => And.left, orderPreserving_of_eq fun _ _ => And.left,
    fun _ _ => trivial⟩

theorem Links.avoiding_anti (h : ∀ c, P c → Q c) : avoiding Q ≤ avoiding P where
  frames := fun hab => ⟨hab.1, mt (h _) hab.2⟩
  arrays := fun hab => ⟨hab.1, mt (h _) hab.2⟩
  objects := fun hab => ⟨hab.1, mt (h _) hab.2⟩
  functions := fun hab => ⟨hab.1, mt (h _) hab.2⟩
  nodes := id

theorem Links.avoiding_le_same : avoiding P ≤ .same :=
  ⟨And.left, And.left, And.left, And.left, id⟩

theorem Links.pairs_avoiding {c d : Cell} : (avoiding P).Pairs c d ↔ c = d ∧ ¬ P c := by
  constructor
  · intro h
    cases h with
    | frame h => exact ⟨congrArg Cell.frame h.1, h.2⟩
    | array h => exact ⟨congrArg Cell.array h.1, h.2⟩
    | object h => exact ⟨congrArg Cell.object h.1, h.2⟩
    | function h => exact ⟨congrArg Cell.function h.1, h.2⟩
  · rintro ⟨rfl, h⟩
    cases c with
    | frame id => exact .frame ⟨rfl, h⟩
    | array id => exact .array ⟨rfl, h⟩
    | object id => exact .object ⟨rfl, h⟩
    | function id => exact .function ⟨rfl, h⟩

theorem sharedOrNew_iff {R : Nat → Prop} {size : Nat} (h : ∀ a, ¬ R a → a < size) (a b : Nat) :
    sharedOrNew R size size a b ↔ a = b ∧ R a := by
  constructor
  · rintro (⟨rfl, hR, -⟩ | ⟨i, rfl, rfl⟩)
    · exact ⟨rfl, hR⟩
    · refine ⟨rfl, by_contra fun hR => ?_⟩
      exact absurd (h _ hR) (Nat.not_lt.mpr (Nat.le_add_right _ _))
  · rintro ⟨rfl, hR⟩
    exact Store.sharedOrNew_self R hR size

/-- In a store beside itself, avoiding some of its cells is sharing all the others. -/
theorem Links.across_eq_avoiding (h : ∀ c, P c → s.Has c) :
    across (fun c => ¬ P c) s s = avoiding P := by
  simp only [across, avoiding, Links.mk.injEq, and_true]
  refine ⟨?_, ?_, ?_, ?_⟩ <;> funext a b <;> apply propext <;> apply sharedOrNew_iff <;>
    intro a ha
  · exact Store.has_frame.mp (h _ (not_not.mp ha))
  · exact Store.has_array.mp (h _ (not_not.mp ha))
  · exact Store.has_object.mp (h _ (not_not.mp ha))
  · exact Store.has_function.mp (h _ (not_not.mp ha))

/-- What is there already is none of the cells that are not there. -/
theorem Store.present_le_avoiding (h : ∀ c, P c → ¬ s.Has c) : s.present ≤ .avoiding P where
  frames := fun hab => ⟨hab.1, fun hP => h _ hP (has_frame.mpr hab.2)⟩
  arrays := fun hab => ⟨hab.1, fun hP => h _ hP (has_array.mpr hab.2)⟩
  objects := fun hab => ⟨hab.1, fun hP => h _ hP (has_object.mpr hab.2)⟩
  functions := fun hab => ⟨hab.1, fun hP => h _ hP (has_function.mpr hab.2)⟩
  nodes := id

namespace Store.Loose

theorem linked (h : s.Loose P) : s.Linked (.avoiding P) (fun _ => True) s := by
  have hclosed : s.Closed fun c => ¬ P c := fun c content _ hc => h.unreferenced c content hc
  have hself : ∀ c, ¬ P c → (Links.across (fun c => ¬ P c) s s).Pairs c c := fun _ hc =>
    pairs_across_self (R := fun c => ¬ P c) hc
  have hlinked : s.Linked (.across (fun c => ¬ P c) s s) (fun _ => True) s :=
    linked_across hclosed (fun _ _ => rfl) hself fun _ _ _ _ => trivial
  rwa [Links.across_eq_avoiding h.has] at hlinked

/-- Loose cells are as they were and still loose if they are avoided. -/
theorem kept {ok : Function → Prop} (h : s.Loose P) (hlinked : s'.Linked (.avoiding P) ok t)
    (hkept : s.Kept (.avoiding P) s') : s'.Loose P ∧ ∀ c, P c → s'.cell? c = s.cell? c := by
  have hsame : ∀ c, P c → s'.cell? c = s.cell? c := by
    intro c hc
    rw [← Links.across_eq_avoiding h.has] at hkept
    exact hkept.cell?_eq (h.has c hc) (not_not.mpr hc)
  refine ⟨⟨?_, ?_⟩, hsame⟩
  · intro c hc
    rw [Has, hsame c hc]
    exact h.has c hc
  · intro c content hc d hd
    by_cases hP : P c
    · rw [hsame c hP] at hc
      exact h.unreferenced c content hc d hd
    · have hcell := hlinked.cell? (Links.pairs_avoiding.mpr ⟨rfl, hP⟩)
      rw [hc] at hcell
      rcases rel_cases hcell with ⟨hnone, -⟩ | ⟨a, b, ha, -, hab⟩
      · cases hnone
      · cases ha
        obtain ⟨e, he⟩ := hab.exists_pair hd
        exact (Links.pairs_avoiding.mp he).2

end Store.Loose

end Loose

/-- A machine that has met literals of scalar values only, and cells of its store that nothing
    refers to. -/
structure Machine.Loose (m : Machine) (P : Cell → Prop) : Prop where
  store : m.store.Loose P
  literals : Literal.AllScalar m.literals

namespace Simulation

/-- A run beside itself that does not get hold of some cells. -/
def loose (P : Cell → Prop) (start : Store) (depth : Nat) : Simulation :=
  region (Links.avoiding_ordered P) (fun _ => True) (fun _ _ _ => trivial) start depth True

/-- Evaluation in a scope does not get hold of cells that are avoided. -/
theorem loose_visit (engine : Engine) (fuel : Nat) {P : Cell → Prop} {scope : Nat}
    (hscope : ¬ P (.frame scope)) (e : Expr) (start : Store) (depth : Nat) :
    (loose P start depth).Sim 0 (.avoiding P) Value.Linked
      (fun _ => (engine.interp fuel).visit scope e)
      (fun _ => (engine.interp fuel).visit scope e) := by
  have hips : (loose P start depth).Interps 0 (fun _ => True) (fun _ => engine.interp fuel)
      (fun _ => engine.interp fuel) := by
    rw [← monitorPlain_interp engine fuel 0]
    exact (inStep_monitors engine).interpsUnder (.inl ⟨trivial, rfl⟩)
  have hframe : (Links.avoiding P).frames scope scope := ⟨rfl, hscope⟩
  exact hips.visit hframe ⟨trivial, fun _ _ => trivial⟩

/-- A computation that does not get hold of loose cells leaves them as they are, and loose. -/
theorem Sim.loose {α : Type} {A : Links → α → α → Prop} {P : Cell → Prop} {x : EvalM α}
    {m m' : Machine} {a : α}
    (h : (Simulation.loose P m.store m.depth).Sim 0 (.avoiding P) A (fun _ => x) (fun _ => x))
    (hm : m.Loose P) (hx : x m = .done a m') :
    m'.Loose P ∧ (∀ c, P c → m'.store.cell? c = m.store.cell? c) ∧ ∃ b, A (.avoiding P) a b := by
  have hstart : (Simulation.loose P m.store m.depth).Machines 0 m m :=
    ⟨⟨hm.store.linked, .refl _ _⟩, rfl, rfl, rfl, ⟨rfl, hm.literals⟩, ⟨rfl, rfl⟩⟩
  have hend := (h m m hstart le_rfl).ends
  rw [hx] at hend
  obtain ⟨b, n, -, hm', -, hab⟩ := hend
  obtain ⟨hloose, hsame⟩ := hm.store.kept hm'.store.1 hm'.store.2
  exact ⟨⟨hloose, hm'.literals.2⟩, hsame, b, hab⟩

end Simulation

/-! ## Items -/

/-- What a loop takes from a container for one round: an element, or a pair of key and value, which
    is an array of its own. -/
inductive LoopItem where
  | element (v : Value)
  | pair (id : Nat) (key : Text) (v : Value)

namespace LoopItem

/-- The value of the round. -/
def value : LoopItem → Value
  | .element v => v
  | .pair id _ _ => .array id

/-- The cell that was made for an item. -/
def cell? : LoopItem → Option Cell
  | .element _ => none
  | .pair id _ _ => some (.array id)

/-- The cells that were made for some items. -/
def cells (items : List LoopItem) : List Cell := items.filterMap cell?

/-- What the cell of an item was made with. -/
def content? : LoopItem → Option (Array Value)
  | .element _ => none
  | .pair _ key v => some #[.text key, v]

/-- An item that is as it was taken: a pair has its key and its value, and no cell refers to it. -/
inductive Held (s : Store) : LoopItem → Prop
  | element (v : Value) : Held s (.element v)
  | pair {id : Nat} {key : Text} {v : Value}
    (hpair : s.cell? (.array id) = some (.array #[.text key, v]))
    (hfresh : ∀ c content, s.cell? c = some content → .array id ∉ content.cells) :
    Held s (.pair id key v)

/-- Pairs for some members, in new arrays from `next` on. -/
def pairs (next : Nat) : List (Text × Value) → List LoopItem
  | [] => []
  | (key, v) :: rest => .pair next key v :: pairs (next + 1) rest

theorem exists_of_mem_pairs {next : Nat} {entries : List (Text × Value)} {item : LoopItem}
    (h : item ∈ pairs next entries) :
    ∃ i key v, entries[i]? = some (key, v) ∧ item = .pair (next + i) key v := by
  induction entries generalizing next with
  | nil => cases h
  | cons entry entries ih =>
    obtain ⟨key, v⟩ := entry
    rcases List.mem_cons.mp h with rfl | hrest
    · exact ⟨0, key, v, rfl, rfl⟩
    · obtain ⟨i, key', v', hentry, rfl⟩ := ih hrest
      exact ⟨i + 1, key', v', hentry, by rw [Nat.add_right_comm, Nat.add_assoc]⟩

/-- None of the pairs has the array of a later one. -/
theorem pairwise_pairs (next : Nat) (entries : List (Text × Value)) :
    (pairs next entries).Pairwise fun item later => ∀ c ∈ later.cell?, c ∉ item.value.cell? := by
  induction entries generalizing next with
  | nil => exact .nil
  | cons entry entries ih =>
    refine .cons (fun later hlater c hc hid => ?_) (ih (next + 1))
    obtain ⟨i, key, v, -, rfl⟩ := exists_of_mem_pairs hlater
    have heq : Cell.array next = .array (next + 1 + i) := Option.some.inj (hid.trans hc.symm)
    rw [Cell.array.injEq] at heq
    omega

theorem filterMap_content?_pairs (next : Nat) (entries : List (Text × Value)) :
    (pairs next entries).filterMap content? =
      entries.map fun entry => #[.text entry.1, entry.2] := by
  induction entries generalizing next with
  | nil => rfl
  | cons entry entries ih => exact congrArg (_ :: ·) (ih (next + 1))

end LoopItem

namespace Store

/-- The items of a container, with new arrays for the pairs. -/
def snapshot (s : Store) : Value → Option (List LoopItem)
  | .array id => some ((s.elements id).toList.map .element)
  | .object id => some (LoopItem.pairs s.arrays.size (s.members id).entries)
  | .scope id => some (LoopItem.pairs s.arrays.size (s.bindings id).entries)
  | _ => none

/-- Adds the arrays of some items. -/
def withItems (s : Store) (items : List LoopItem) : Store :=
  { s with arrays := s.arrays ++ (items.filterMap LoopItem.content?).toArray }

theorem withItems_elements (s : Store) (vs : List Value) :
    s.withItems (vs.map .element) = s := by
  have hnone : (vs.map LoopItem.element).filterMap LoopItem.content? = [] := by
    rw [List.filterMap_map]
    exact List.filterMap_eq_nil_iff.mpr fun _ _ => rfl
  rw [withItems, hnone, Array.append_empty]

end Store

namespace Eval

theorem pairs_eq (entries : List (Text × Value)) (s : Store) :
    pairs entries s = ((LoopItem.pairs s.arrays.size entries).map LoopItem.value,
      s.withItems (LoopItem.pairs s.arrays.size entries)) := by
  induction entries generalizing s with
  | nil => simp [pairs, LoopItem.pairs, Store.withItems]
  | cons entry entries ih =>
    obtain ⟨key, v⟩ := entry
    simp only [pairs, ih, Store.newArray, LoopItem.pairs, List.map_cons, LoopItem.value,
      Store.withItems, LoopItem.filterMap_content?_pairs, List.filterMap_cons, LoopItem.content?,
      Array.push_eq_append, Array.append_assoc]
    simp

/-- Taking the items of a container adds the arrays of the pairs and changes nothing else. -/
theorem items_eq {m : Machine} {v : Value} {items : List LoopItem}
    (h : m.store.snapshot v = some items) :
    Eval.items v m =
      .done (items.map LoopItem.value) { m with store := m.store.withItems items } := by
  cases v with
  | array id =>
    cases h
    rw [Store.withItems_elements, List.map_map]
    exact congrArg (Outcome.done · m) (List.map_id _).symm
  | object id =>
    cases h
    simp only [Eval.items, EvalM.update, pairs_eq]
  | scope id =>
    cases h
    simp only [Eval.items, EvalM.update, pairs_eq]
  | _ => cases h

end Eval

/-! ## Rounds -/

/-- The rounds of a loop for some items, from a slot and a machine to those after the last round,
    with the values of the body: an item is as it was taken, it is written to the slot, and the body
    is run. -/
inductive Rounds (body : EvalM Value) :
    Slot → Machine → List LoopItem → List Value → Slot → Machine → Prop
  | none (slot : Slot) (m : Machine) : Rounds body slot m [] [] slot m
  | next {slot slot₁ slot' : Slot} {m m₁ m₂ m' : Machine} {item : LoopItem} {items : List LoopItem}
    {result : Value} {results : List Value} (hitem : item.Held m.store)
    (hwrite : Interp.write slot item.value m = .done slot₁ m₁) (hbody : body m₁ = .done result m₂)
    (hrest : Rounds body slot₁ m₂ items results slot' m') :
    Rounds body slot m (item :: items) (result :: results) slot' m'

/-- How the round for an item ends a loop: because the item cannot be written, or because of the
    body. -/
inductive Breaks (body : EvalM Value) (slot : Slot) (m : Machine) (item : LoopItem) :
    Outcome Value → Prop
  | write {f : Fault} {m' : Machine} (hitem : item.Held m.store)
    (hwrite : Interp.write slot item.value m = .failed f m') :
    Breaks body slot m item (.failed f m')
  | body {slot₁ : Slot} {f : Fault} {m₁ m' : Machine} (hitem : item.Held m.store)
    (hwrite : Interp.write slot item.value m = .done slot₁ m₁) (hbody : body m₁ = .failed f m') :
    Breaks body slot m item (.failed f m')
  | endless {slot₁ : Slot} {m₁ : Machine} (hitem : item.Held m.store)
    (hwrite : Interp.write slot item.value m = .done slot₁ m₁) (hbody : body m₁ = .outOfFuel) :
    Breaks body slot m item .outOfFuel

theorem Interp.write_ne_outOfFuel (slot : Slot) (v : Value) (m : Machine) :
    Interp.write slot v m ≠ .outOfFuel := by
  intro h
  unfold Interp.write at h
  split at h <;> cases h

theorem Eval.forEach_cons (body : EvalM Value) (slot : Slot) (v : Value) (vs : List Value)
    (result : Value) (m : Machine) :
    forEach body slot (v :: vs) result m =
      EvalM.andThen (Interp.write slot v)
        (fun slot => EvalM.andThen body (forEach body slot vs)) m := rfl

/-- The items that are still to come before a round: they are as they were taken, the slot does not
    lie in one of them, and none is the value of an earlier one. -/
structure Pending (items : List LoopItem) (slot : Slot) (m : Machine) : Prop where
  held : ∀ item ∈ items, item.Held m.store
  apart : items.Pairwise fun item later => ∀ c ∈ later.cell?, c ∉ item.value.cell?
  slot : slot.Linked (.avoiding (· ∈ LoopItem.cells items)) slot
  literals : Literal.AllScalar m.literals

theorem LoopItem.Held.loose {items : List LoopItem} {s : Store} (h : ∀ item ∈ items, item.Held s) :
    s.Loose (· ∈ LoopItem.cells items) where
  has := by
    intro c hc
    obtain ⟨item, hitem, hcell⟩ := List.mem_filterMap.mp hc
    cases h item hitem with
    | element v => cases hcell
    | pair hpair hfresh =>
      cases hcell
      exact Store.has_of_cell? hpair
  unreferenced := by
    intro c content hcontent d hd hmem
    obtain ⟨item, hitem, hcell⟩ := List.mem_filterMap.mp hmem
    cases h item hitem with
    | element v => cases hcell
    | pair hpair hfresh =>
      cases hcell
      exact hfresh c content hcontent hd

/-- Items whose cells are as they were, and still loose, are held. -/
theorem LoopItem.Held.of_loose {items : List LoopItem} {s s' : Store}
    (h : ∀ item ∈ items, item.Held s) (hloose : s'.Loose (· ∈ LoopItem.cells items))
    (hsame : ∀ c ∈ LoopItem.cells items, s'.cell? c = s.cell? c) :
    ∀ item ∈ items, item.Held s' := by
  intro item hitem
  cases h item hitem with
  | element v => exact .element v
  | @pair id key v hpair hfresh =>
    have hmem : Cell.array id ∈ LoopItem.cells items :=
      List.mem_filterMap.mpr ⟨_, hitem, rfl⟩
    refine .pair ((hsame _ hmem).trans hpair) fun c content hcontent hid => ?_
    exact hloose.unreferenced c content hcontent _ hid hmem

theorem LoopItem.frame_notMem_cells (items : List LoopItem) (id : Nat) :
    Cell.frame id ∉ cells items := by
  intro h
  obtain ⟨item, -, hcell⟩ := List.mem_filterMap.mp h
  cases item <;> cases hcell

namespace Engine

variable (engine : Engine) (fuel scope : Nat) (body : Expr)

/-- A round leaves the items to come as they are. -/
theorem pending_of_round {slot slot₁ : Slot} {m m₁ m₂ : Machine} {item : LoopItem}
    {items : List LoopItem} {result : Value} (h : Pending (item :: items) slot m)
    (hwrite : Interp.write slot item.value m = .done slot₁ m₁)
    (hbody : (engine.interp fuel).visit scope body m₁ = .done result m₂) :
    Pending items slot₁ m₂ := by
  have hheld := List.forall_mem_cons.mp h.held
  obtain ⟨hitem, hapart⟩ := List.pairwise_cons.mp h.apart
  have hm : m.Loose (· ∈ LoopItem.cells items) := ⟨LoopItem.Held.loose hheld.2, h.literals⟩
  -- neither the slot nor the item of the round lies in an item to come
  have hslot : slot.Linked (.avoiding (· ∈ LoopItem.cells items)) slot := by
    refine h.slot.mono (Links.avoiding_anti fun c hc => ?_)
    obtain ⟨later, hlater, hcell⟩ := List.mem_filterMap.mp hc
    exact List.mem_filterMap.mpr ⟨later, List.mem_cons_of_mem _ hlater, hcell⟩
  have hvalue : item.value.Linked (.avoiding (· ∈ LoopItem.cells items)) item.value := by
    refine Value.linked_self fun c hc => Links.pairs_avoiding.mpr ⟨rfl, fun hmem => ?_⟩
    obtain ⟨later, hlater, hcell⟩ := List.mem_filterMap.mp hmem
    exact hitem later hlater c hcell hc
  obtain ⟨hm₁, hsame₁, slot', hslot'⟩ := (Simulation.Sim.write hslot hvalue).loose hm hwrite
  obtain rfl := Slot.linked_equal.mp (hslot'.mono Links.avoiding_le_same)
  have hvisit := Simulation.loose_visit engine fuel (LoopItem.frame_notMem_cells items scope) body
  obtain ⟨hm₂, hsame₂, -⟩ := (hvisit m₁.store m₁.depth).loose hm₁ hbody
  have hsame : ∀ c ∈ LoopItem.cells items, m₂.store.cell? c = m.store.cell? c :=
    fun c hc => (hsame₂ c hc).trans (hsame₁ c hc)
  exact ⟨LoopItem.Held.of_loose hheld.2 hm₂.store hsame, hapart, hslot', hm₂.literals⟩

/-- A loop makes its rounds until the items are used up or a round ends it. -/
theorem forEach_rounds {items : List LoopItem} {slot : Slot} {m : Machine}
    (h : Pending items slot m) (result : Value) :
    let visit := (engine.interp fuel).visit scope body
    let o := Eval.forEach visit slot (items.map LoopItem.value) result m
    ∃ gone results slot' m', Rounds visit slot m gone results slot' m' ∧
      (gone = items ∧ o = .done (results.getLastD result) m' ∨
        ∃ item left, items = gone ++ item :: left ∧ Breaks visit slot' m' item o) := by
  intro visit
  induction items generalizing slot m result with
  | nil => exact ⟨[], [], slot, m, .none slot m, .inl ⟨rfl, rfl⟩⟩
  | cons item items ih =>
    have hitem := h.held item List.mem_cons_self
    -- a round that ends the loop is its first
    have hbreaks {o : Outcome Value} (ho : Breaks visit slot m item o) :
        ∃ gone results slot' m', Rounds visit slot m gone results slot' m' ∧
          (gone = item :: items ∧ o = .done (results.getLastD result) m' ∨
            ∃ item' left, item :: items = gone ++ item' :: left ∧ Breaks visit slot' m' item' o) :=
      ⟨[], [], slot, m, .none slot m, .inr ⟨item, items, rfl, ho⟩⟩
    simp only [List.map_cons, Eval.forEach_cons, EvalM.andThen]
    cases hwrite : Interp.write slot item.value m with
    | failed f m' => exact hbreaks (.write hitem hwrite)
    | outOfFuel => exact absurd hwrite (Interp.write_ne_outOfFuel slot item.value m)
    | done slot₁ m₁ =>
      simp only
      cases hbody : visit m₁ with
      | failed f m' => exact hbreaks (.body hitem hwrite hbody)
      | outOfFuel => exact hbreaks (.endless hitem hwrite hbody)
      | done r m₂ =>
        simp only
        have hnext := pending_of_round engine fuel scope body h hwrite hbody
        obtain ⟨gone, results, slot', m', hrounds, hend⟩ := ih hnext r
        refine ⟨item :: gone, r :: results, slot', m', .next hitem hwrite hbody hrounds, ?_⟩
        rw [List.getLastD_cons]
        refine hend.imp (fun hdone => ⟨congrArg (item :: ·) hdone.1, hdone.2⟩) ?_
        rintro ⟨item', left, rfl, hbreak⟩
        exact ⟨item', left, rfl, hbreak⟩

end Engine

/-! ## The first round -/

/-- A cell of a store with the arrays of some items was there before or is such an array. -/
theorem Store.cell?_withItems {s : Store} {items : List LoopItem} {c : Cell} {content : Content}
    (h : (s.withItems items).cell? c = some content) :
    s.cell? c = some content ∨ ∃ item ∈ items, item.content?.map Content.array = some content := by
  cases c with
  | array id =>
    simp only [cell?, withItems, Array.getElem?_append] at h
    split at h
    · exact .inl h
    · obtain ⟨elems, helems, rfl⟩ := Option.map_eq_some_iff.mp h
      rw [List.getElem?_toArray] at helems
      obtain ⟨item, hitem, hcontent⟩ := List.mem_filterMap.mp (List.mem_of_getElem? helems)
      exact .inr ⟨item, hitem, by rw [hcontent, Option.map_some]⟩
  | _ => exact .inl h

namespace Pending

variable {m : Machine} {slot : Slot}

theorem elements (hm : m.Intact) (hslot : slot.Linked m.store.present slot) (vs : List Value) :
    Pending (vs.map .element) slot { m with store := m.store.withItems (vs.map .element) } where
  held := List.forall_mem_map.mpr fun v _ => .element v
  apart := List.pairwise_map.mpr (List.pairwise_of_forall fun _ _ _ hc => by cases hc)
  slot := by
    refine hslot.mono (Store.present_le_avoiding fun c hc => ?_)
    obtain ⟨item, hitem, hcell⟩ := List.mem_filterMap.mp hc
    obtain ⟨v, -, rfl⟩ := List.mem_map.mp hitem
    cases hcell
  literals := hm.literals

/-- The pairs of members are in new arrays, which nothing has referred to. -/
theorem pairs (hm : m.Intact) (hslot : slot.Linked m.store.present slot)
    {members : Members} (hcells : ∀ c ∈ members.cells, m.store.Has c) :
    let items := LoopItem.pairs m.store.arrays.size members.entries
    Pending items slot { m with store := m.store.withItems items } := by
  intro items
  have hnew (i : Nat) : ¬ m.store.Has (.array (m.store.arrays.size + i)) := fun h =>
    absurd (Store.has_array.mp h) (Nat.not_lt.mpr (Nat.le_add_right _ _))
  refine ⟨?_, ?_, ?_, hm.literals⟩
  · intro item hitem
    obtain ⟨i, key, v, hentry, rfl⟩ := LoopItem.exists_of_mem_pairs hitem
    refine .pair ?_ fun c content hc hid => hnew i ?_
    · simp only [Store.cell?, Store.withItems, Array.getElem?_append]
      rw [if_neg (Nat.not_lt.mpr (Nat.le_add_right _ _)), Nat.add_sub_cancel_left,
        List.getElem?_toArray, LoopItem.filterMap_content?_pairs, List.getElem?_map, hentry,
        Option.map_some, Option.map_some]
    · rcases Store.cell?_withItems hc with hold | ⟨other, hother, hcontent⟩
      · exact hm.store.cells_in hold _ hid
      · obtain ⟨j, key', v', hentry', rfl⟩ := LoopItem.exists_of_mem_pairs hother
        cases hcontent
        obtain ⟨w, hw, hcell⟩ := List.mem_filterMap.mp hid
        rcases List.mem_pair.mp hw with rfl | rfl
        · cases hcell
        · have hval := Members.mem_vals_of_mem_entries (List.mem_of_getElem? hentry')
          exact hcells _ (List.mem_filterMap.mpr ⟨_, hval, hcell⟩)
  · exact LoopItem.pairwise_pairs _ members.entries
  · refine hslot.mono (Store.present_le_avoiding fun c hc => ?_)
    obtain ⟨item, hitem, hcell⟩ := List.mem_filterMap.mp hc
    obtain ⟨i, key, v, -, rfl⟩ := LoopItem.exists_of_mem_pairs hitem
    cases hcell
    exact hnew i

/-- All items are to come when a container has been evaluated. -/
theorem of_snapshot (hm : m.Intact) (hslot : slot.Linked m.store.present slot) {v : Value}
    {items : List LoopItem} (h : m.store.snapshot v = some items) :
    Pending items slot { m with store := m.store.withItems items } := by
  cases v with
  | array id =>
    cases h
    exact elements hm hslot _
  | object id =>
    cases h
    exact pairs hm hslot (hm.store.members_in id)
  | scope id =>
    cases h
    exact pairs hm hslot (hm.store.bindings_in id)
  | _ => cases h

end Pending

namespace Engine

/-- A loop over a container makes one round for each item that the container has when it has been
    evaluated, in their order, until a round ends it. The round begins with writing the item to the
    target, which is an element or a new pair of the key and the value it had then. The result is
    that of the last round, or zero. -/
theorem loopEach_rounds (engine : Engine) (fuel : Nat) {scope : Nat} {target : Target}
    {container body : Expr} {m m₁ m₂ : Machine} {slot : Slot} {v : Value} {items : List LoopItem}
    (hm : m.Intact) (hscope : m.store.Has (.frame scope))
    (hslot : (engine.interp fuel).resolve scope target m = .done slot m₁)
    (hv : (engine.interp fuel).visit scope container m₁ = .done v m₂)
    (hitems : m₂.store.snapshot v = some items) :
    let visit := (engine.interp fuel).visit scope body
    let o := (engine.interp fuel).callForm scope .loopEach [.ref target, container, body] m
    ∃ gone results slot' m',
      Rounds visit slot { m₂ with store := m₂.store.withItems items } gone results slot' m' ∧
      (gone = items ∧ o = .done (results.getLastD .zero) m' ∨
        ∃ item left, items = gone ++ item :: left ∧ Breaks visit slot' m' item o) := by
  intro visit o
  obtain ⟨hm₁, hle₁, hslot₁⟩ := hm.resolve hscope hslot
  have hscope₁ := Store.has_frame.mpr (hle₁.frames ⟨rfl, Store.has_frame.mp hscope⟩).2
  obtain ⟨hm₂, hle₂, -⟩ := hm₁.visit hscope₁ hv
  have hpending := Pending.of_snapshot hm₂ (hslot₁.mono hle₂) hitems
  have ho : o = Eval.forEach visit slot (items.map LoopItem.value) .zero
      { m₂ with store := m₂.store.withItems items } := by
    change EvalM.andThen ((engine.interp fuel).resolve scope target) _ m = _
    simp only [EvalM.andThen, hslot]
    change EvalM.andThen ((engine.interp fuel).visit scope container) _ m₁ = _
    simp only [EvalM.andThen, hv]
    change EvalM.andThen (Eval.items v) _ m₂ = _
    simp only [EvalM.andThen, Eval.items_eq hitems]
    rfl
  rw [ho]
  exact forEach_rounds engine fuel scope body hpending .zero

/-- A root with the built-in functions and an object of two members. -/
def objectRoom : Store :=
  (Store.empty.newRoot.2.newObject (.ofList [("A", .int 1), ("B", .int 2)])).2.bind 0 "O"
    (.object 0)

theorem intact_objectRoom : objectRoom.Intact := by
  have hobject := Store.Intact.empty.newRoot.newObject (m := .ofList [("A", .int 1), ("B", .int 2)])
    (fun c hc => by cases hc) (.ofList _)
  refine hobject.bind 0 "O" fun c hc => ?_
  cases hc
  exact Store.has_object.mpr (by decide +kernel)

/-- `FOREACH(O.K, O, O)` writes the pairs of `A` and `B` into the object that it goes through, which
    gets a member `K` that has no round. -/
theorem loopEach_rounds_objectRoom :
    let m : Machine := { store := objectRoom }
    let object := Expr.ref (.name "O" .start)
    let target := Target.member object "K" .start
    let items := [LoopItem.pair 0 "A" (.int 1), .pair 1 "B" (.int 2)]
    let visit := (Engine.interp {} 3).visit 0 object
    let o := (Engine.interp {} 3).callForm 0 .loopEach [.ref target, object, object] m
    (m.Intact ∧ m.store.Has (.frame 0) ∧
      (Engine.interp {} 3).resolve 0 target m = .done (.member 0 "K") m ∧
      visit m = .done (.object 0) m ∧ m.store.snapshot (.object 0) = some items ∧
      o.machine?.map (fun m' => (m'.store.members 0).entries) =
        some [(("A" : Text), Value.int 1), ("B", .int 2), ("K", .array 1)]) ∧
    ∃ gone results slot' m',
      Rounds visit (.member 0 "K") { m with store := m.store.withItems items } gone results slot'
        m' ∧
      (gone = items ∧ o = .done (results.getLastD .zero) m' ∨
        ∃ item left, items = gone ++ item :: left ∧ Breaks visit slot' m' item o) := by
  intro m object target items visit o
  have hm : m.Intact := ⟨intact_objectRoom, fun p hp => by cases hp⟩
  have hscope : m.store.Has (.frame 0) := Store.has_frame.mpr (by decide +kernel)
  have hread : Slot.read m.store (.name 0 "O") = .ok (.object 0) := by
    have hlookup : m.store.lookup? 0 "O" = some (.object 0) := by decide +kernel
    rw [Slot.read, hlookup]
  have hvisit : visit m = .done (.object 0) m := by
    change EvalM.locating .start (fun m => EvalM.check (Slot.read m.store (.name 0 "O")) m) m = _
    simp only [EvalM.locating, EvalM.mapFault, hread]
    rfl
  have hresolve : (Engine.interp {} 3).resolve 0 target m = .done (.member 0 "K") m := by
    change EvalM.locating .start (EvalM.andThen visit _) m = _
    simp only [EvalM.locating, EvalM.mapFault, EvalM.andThen, hvisit]
    rfl
  exact ⟨⟨hm, hscope, hresolve, hvisit, rfl, by decide +kernel⟩,
    loopEach_rounds {} 3 hm hscope hresolve hvisit rfl⟩

end Engine

end ExprLang
