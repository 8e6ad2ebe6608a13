import ExprLang.Proofs.Intact

/-!
# Slots

A slot is found once and may be written much later, when the store has changed. Writing it changes
one place of the store at most: a name where the nearest frame of the chain has it, or a new last
name of the slot's own frame, an element of an array or a new last one, a member of an object. What
is written is what is read then, all other places are as they were, and a writing that fails does
nothing (`Interp.write_effect`).
-/

namespace ExprLang

/-! ## Places -/

/-- A place of a store that can hold a value. -/
inductive Place where
  | binding (frame : Nat) (key : Text)
  | element (array index : Nat)
  | member (object : Nat) (key : Text)
  deriving DecidableEq

/-- The value at a place. -/
def Store.at? (s : Store) : Place → Option Value
  | .binding frame key => (s.bindings frame).get? key
  | .element array index => (s.elements array)[index]?
  | .member object key => (s.members object).get? key

theorem modify_eq_setIfInBounds {α : Type} {xs : Array α} {a : Nat} {x : α} (h : xs[a]? = some x)
    (f : α → α) : xs.modify a f = xs.setIfInBounds a (f x) := by
  apply Array.ext_getElem?
  intro i
  rw [Array.getElem?_modify, Array.getElem?_setIfInBounds]
  by_cases hi : a = i
  · subst hi
    rw [if_pos rfl, if_pos rfl, h, if_pos (Array.getElem?_eq_some_iff.mp h).1, Option.map_some]
  · rw [if_neg hi, if_neg hi]

namespace Store

variable {s : Store} {a : Nat}

/-! ## Places after a writing -/

theorem bind_eq {f : Frame} (hf : s.frames[a]? = some f) (key : Text) (v : Value) :
    s.bind a key v =
      { s with frames := s.frames.setIfInBounds a { f with members := f.members.put key v } } := by
  rw [bind, modify_eq_setIfInBounds hf]

theorem setElement_eq {elems : Array Value} (helems : s.arrays[a]? = some elems) (index : Nat)
    (v : Value) :
    s.setElement a index v =
      { s with
        arrays := s.arrays.setIfInBounds a
          (if index < elems.size then elems.setIfInBounds index v else elems.push v) } := by
  rw [setElement, modify_eq_setIfInBounds helems]

theorem setMember_eq {m : Members} (hm : s.objects[a]? = some m) (key : Text) (v : Value) :
    s.setMember a key v = { s with objects := s.objects.setIfInBounds a (m.put key v) } := by
  rw [setMember, modify_eq_setIfInBounds hm]

theorem bindings_bind (ha : s.Has (.frame a)) (key : Text) (v : Value) (id : Nat) :
    (s.bind a key v).bindings id = if a = id then (s.bindings id).put key v else s.bindings id := by
  have hlt := has_frame.mp ha
  simp only [bindings, bind, Array.getElem?_modify]
  by_cases hid : a = id
  · subst hid
    simp only [if_pos, Array.getElem?_eq_getElem hlt, Option.map_some]
  · simp only [if_neg hid]

theorem elements_setElement (ha : s.Has (.array a)) (index : Nat) (v : Value) (id : Nat) :
    (s.setElement a index v).elements id =
      if a = id then
        if index < (s.elements id).size then (s.elements id).setIfInBounds index v
        else (s.elements id).push v
      else s.elements id := by
  have hlt := has_array.mp ha
  simp only [elements, setElement, Array.getD_eq_getD_getElem?, Array.getElem?_modify]
  by_cases hid : a = id
  · subst hid
    simp only [if_pos, Array.getElem?_eq_getElem hlt, Option.map_some, Option.getD_some]
  · simp only [if_neg hid]

theorem members_setMember (ha : s.Has (.object a)) (key : Text) (v : Value) (id : Nat) :
    (s.setMember a key v).members id =
      if a = id then (s.members id).put key v else s.members id := by
  have hlt := has_object.mp ha
  simp only [members, setMember, Array.getD_eq_getD_getElem?, Array.getElem?_modify]
  by_cases hid : a = id
  · subst hid
    simp only [if_pos, Array.getElem?_eq_getElem hlt, Option.map_some, Option.getD_some]
  · simp only [if_neg hid]

/-- A name is bound in its place and nowhere else. -/
theorem at?_bind (ha : s.Has (.frame a)) (key : Text) (v : Value) (p : Place) :
    (s.bind a key v).at? p = if p = .binding a key then some v else s.at? p := by
  cases p with
  | binding id key' =>
    simp only [at?, bindings_bind ha, Place.binding.injEq]
    by_cases hid : a = id
    · simp only [hid, if_pos, Members.get?_put, true_and]
    · simp only [if_neg hid, Ne.symm hid, false_and, if_false]
  | element array index => exact (if_neg fun h => by cases h).symm
  | member object key' => exact (if_neg fun h => by cases h).symm

theorem at?_setElement (ha : s.Has (.array a)) {index : Nat}
    (hindex : index ≤ (s.elements a).size) (v : Value) (p : Place) :
    (s.setElement a index v).at? p = if p = .element a index then some v else s.at? p := by
  cases p with
  | element id i =>
    simp only [at?, elements_setElement ha, Place.element.injEq]
    by_cases hid : a = id
    · subst hid
      simp only [if_pos, true_and]
      split
      · next hlt =>
        rw [Array.getElem?_setIfInBounds]
        by_cases hi : index = i
        · subst hi
          rw [if_pos rfl, if_pos hlt, if_pos rfl]
        · rw [if_neg hi, if_neg (Ne.symm hi)]
      · next hge =>
        rw [Array.getElem?_push, show index = (s.elements a).size by omega]
    · simp only [if_neg hid, Ne.symm hid, false_and, if_false]
  | binding frame key => exact (if_neg fun h => by cases h).symm
  | member object key => exact (if_neg fun h => by cases h).symm

theorem at?_setMember (ha : s.Has (.object a)) (key : Text) (v : Value) (p : Place) :
    (s.setMember a key v).at? p = if p = .member a key then some v else s.at? p := by
  cases p with
  | member id key' =>
    simp only [at?, members_setMember ha, Place.member.injEq]
    by_cases hid : a = id
    · simp only [hid, if_pos, Members.get?_put, true_and]
    · simp only [if_neg hid, Ne.symm hid, false_and, if_false]
  | binding frame key' => exact (if_neg fun h => by cases h).symm
  | element array index => exact (if_neg fun h => by cases h).symm

/-! ## The frame that a name is written in -/

variable {key : Text} {id : Nat}

/-- Along a chain of ever older frames, the owner of a name is the first that has it. -/
theorem Intact.owner?_eq_find? (h : s.Intact) {chain : List Nat}
    (hchain : Frame.Chain s.frames id chain) :
    s.owner? key id = chain.find? fun id => (s.bindings id).has key := by
  induction hchain with
  | @last id f hf hparent =>
    rw [owner?, List.find?_cons]
    simp only [hf, hparent, bindings]
    cases f.members.has key <;> rfl
  | @link id parent f chain hf hparent _ ih =>
    rw [owner?, List.find?_cons]
    simp only [hf, hparent, bindings, if_pos (h.older id parent f hf hparent)]
    cases f.members.has key with
    | true => rfl
    | false => exact ih

/-- Who owns a name depends on the parents of frames and on who has the name. -/
theorem owner?_congr {s' : Store}
    (h : ∀ id : Nat, s'.frames[id]?.map (fun f => (f.parent, f.members.has key)) =
      s.frames[id]?.map fun f => (f.parent, f.members.has key)) (id : Nat) :
    s'.owner? key id = s.owner? key id := by
  induction id using Nat.strongRecOn with
  | ind id ih =>
    have hid := h id
    rw [owner?, owner?]
    cases hf : s.frames[id]? with
    | none =>
      rw [hf, Option.map_none, Option.map_eq_none_iff] at hid
      rw [hid]
    | some f =>
      rw [hf, Option.map_some, Option.map_eq_some_iff] at hid
      obtain ⟨f', hf', heq⟩ := hid
      obtain ⟨hparent, hhas⟩ := Prod.mk.injEq .. ▸ heq
      simp only [hf', hparent, hhas]
      cases hp : f.parent with
      | none => rfl
      | some parent =>
        simp only
        by_cases hlt : parent < id
        · rw [ih parent hlt]
        · rw [if_neg hlt, if_neg hlt]

/-- Writing a name where it is found leaves it there. -/
theorem owner?_bind_owner {owner : Nat} (h : s.owner? key id = some owner) (v : Value) :
    (s.bind owner key v).owner? key id = some owner := by
  rw [← h]
  refine owner?_congr (fun a => ?_) id
  simp only [bind, Array.getElem?_modify]
  split
  · next heq =>
    subst heq
    cases hf : s.frames[owner]? with
    | none => rfl
    | some f =>
      have hhas := has_of_owner? h
      simp only [bindings, hf] at hhas
      simp only [Option.map_some, Members.has, Members.get?_put, if_pos, Option.isSome_some]
      rw [← hhas, Members.has]
  · rfl

/-- A name that is written in a frame itself is found there. -/
theorem owner?_bind_self (hid : s.Has (.frame id)) (v : Value) :
    (s.bind id key v).owner? key id = some id := by
  have hlt := has_frame.mp hid
  rw [owner?]
  simp only [bind, Array.getElem?_modify, if_pos, Array.getElem?_eq_getElem hlt, Option.map_some,
    Members.has, Members.get?_put, Option.isSome_some]

/-- The frame that a name is written in is there, and the name is found in it then. -/
theorem lookup?_bind (hid : s.Has (.frame id)) (v : Value) :
    s.Has (.frame ((s.owner? key id).getD id)) ∧
      (s.bind ((s.owner? key id).getD id) key v).lookup? id key = some v := by
  have hwritten {owner : Nat} (hthere : s.Has (.frame owner))
      (howner : (s.bind owner key v).owner? key id = some owner) :
      (s.bind owner key v).lookup? id key = some v := by
    simp only [lookup?, howner, bindings_bind hthere, if_pos, Members.get?_put]
  cases howner : s.owner? key id with
  | none => exact ⟨hid, hwritten hid (owner?_bind_self hid v)⟩
  | some owner =>
    have hthere := has_frame.mpr (lt_of_owner? howner)
    exact ⟨hthere, hwritten hthere (owner?_bind_owner howner v)⟩

end Store

/-! ## Slots that are found and written later -/

namespace Slot

/-- The slots that can be found in a store: a name seen from a frame, what an index or a member of
    a value comes to, and a value of its own. -/
inductive Made (s : Store) : Slot → Prop
  | name {scope : Nat} (hscope : s.Has (.frame scope)) (key : Text) : Made s (.name scope key)
  | index {base key : Value} {slot : Slot} (hbase : base.In s) (h : ofIndex s base key = .ok slot) :
    Made s slot
  | member {base : Value} (hbase : base.In s) (key : Text) : Made s (.ofMember base key)
  | immediate (v : Value) : Made s (.immediate v)

/-- The cell that a slot lies in. -/
def container? : Slot → Option Cell
  | .name scope _ => some (.frame scope)
  | .element array _ => some (.array array)
  | .member object _ => some (.object object)
  | .immediate _ => none

/-- The container of a slot is there, also when the store has grown since the slot was found. -/
theorem Made.has_container {s s' : Store} {slot : Slot} (h : slot.Made s) (hgrows : s.Grows s') :
    ∀ c ∈ slot.container?, s'.Has c := by
  intro c hc
  apply hgrows.has
  cases h with
  | name hscope key =>
    cases hc
    exact hscope
  | @index base key slot hbase h =>
    cases base with
    | array id =>
      cases key with
      | int index =>
        cases h
        exact hbase c hc
      | _ => cases h
    | _ =>
      cases h
      first
        | exact hbase c hc
        | cases hc
  | @member base hbase key =>
    cases base with
    | object id => exact hbase c hc
    | scope id => exact hbase c hc
    | _ => cases hc
  | immediate v => cases hc

/-- What writing `v` to a slot does to a store: the place that is written, if there is one, and the
    store after it. -/
inductive Effect (v : Value) (s : Store) : Slot → Option Place → Store → Prop
  /-- A name that some frame of the chain has is written in the nearest such frame. -/
  | rebound {scope owner root : Nat} {key : Text} {chain : List Nat} {parent : Option Nat}
    {names : List Text} {before after : List (Text × Value)} {old : Value}
    (hchain : Frame.Chain s.frames scope chain)
    (hnearest : chain.find? (fun id => (s.bindings id).has key) = some owner)
    (hf : s.frames[owner]? = some ⟨parent, root, ⟨names, before ++ (key, old) :: after⟩⟩) :
    Effect v s (.name scope key) (some (.binding owner key))
      { s with
        frames := s.frames.setIfInBounds owner
          ⟨parent, root, ⟨names, before ++ (key, v) :: after⟩⟩ }
  /-- A name that no frame of the chain has becomes the last one of the slot's own frame. -/
  | bound {scope : Nat} {key : Text} {chain : List Nat} {f : Frame}
    (hchain : Frame.Chain s.frames scope chain)
    (hnone : chain.find? (fun id => (s.bindings id).has key) = none)
    (hf : s.frames[scope]? = some f) :
    Effect v s (.name scope key) (some (.binding scope key))
      { s with
        frames := s.frames.setIfInBounds scope
          { f with members := ⟨f.members.keys ++ [key], f.members.vals ++ [(key, v)]⟩ } }
  | replaced {array i : Nat} {index : Int64} {elems : Array Value}
    (helems : s.arrays[array]? = some elems) (hindex : index.toInt = i) (hi : i < elems.size) :
    Effect v s (.element array index) (some (.element array i))
      { s with arrays := s.arrays.setIfInBounds array (elems.setIfInBounds i v) }
  | appended {array : Nat} {index : Int64} {elems : Array Value}
    (helems : s.arrays[array]? = some elems) (hindex : index.toInt = elems.size) :
    Effect v s (.element array index) (some (.element array elems.size))
      { s with arrays := s.arrays.setIfInBounds array (elems.push v) }
  | member {object : Nat} {key : Text} {keys : List Text}
    {before after : List (Text × Value)} {old : Value}
    (hm : s.objects[object]? = some ⟨keys, before ++ (key, old) :: after⟩) :
    Effect v s (.member object key) (some (.member object key))
      { s with objects := s.objects.setIfInBounds object ⟨keys, before ++ (key, v) :: after⟩ }
  | newMember {object : Nat} {key : Text} {m : Members} (hm : s.objects[object]? = some m)
    (hkey : key ∉ m.keys) :
    Effect v s (.member object key) (some (.member object key))
      { s with
        objects := s.objects.setIfInBounds object ⟨m.keys ++ [key], m.vals ++ [(key, v)]⟩ }
  | immediate {old : Value} : Effect v s (.immediate old) none s

/-- What a writing that succeeds comes to: its effect, and the slot afterwards, which is another
    one only if it lies in no container. Every place but the one written holds what it held. -/
structure Written (v : Value) (s : Store) (slot : Slot) (place : Option Place) (slot' : Slot)
    (s' : Store) : Prop where
  effect : slot.Effect v s place s'
  slot_eq : place = none ∨ slot' = slot
  read_eq : slot'.read s' = .ok v
  at?_eq : ∀ p, s'.at? p = if some p = place then some v else s.at? p

variable {s : Store}

theorem effect_name (hs : s.Intact) {scope : Nat} (hscope : s.Has (.frame scope)) (key : Text)
    (v : Value) :
    Effect v s (.name scope key) (some (.binding ((s.owner? key scope).getD scope) key))
      (s.bind ((s.owner? key scope).getD scope) key v) := by
  have hlt := Store.has_frame.mp hscope
  obtain ⟨chain, hchain, -⟩ := hs.chains scope _ (Array.getElem?_eq_getElem hlt)
  have hfind : s.owner? key scope = _ := hs.owner?_eq_find? hchain
  cases howner : s.owner? key scope with
  | none =>
    rw [howner] at hfind
    have hnew : s.frames[scope].members.has key = false := by
      rw [← Bool.not_eq_true]
      intro hhas
      rw [Store.owner?, Array.getElem?_eq_getElem hlt] at howner
      simp only [hhas, if_true] at howner
      cases howner
    rw [Option.getD_none, Store.bind_eq (Array.getElem?_eq_getElem hlt),
      Members.put_of_not_has hnew]
    exact .bound hchain hfind.symm (Array.getElem?_eq_getElem hlt)
  | some owner =>
    rw [howner] at hfind
    have hlt' := Store.lt_of_owner? howner
    have hhas := Store.has_of_owner? howner
    simp only [Store.bindings, Array.getElem?_eq_getElem hlt'] at hhas
    obtain ⟨before, old, after, hvals, hput⟩ := Members.put_of_has hhas v
    have hf : s.frames[owner]? =
        some ⟨s.frames[owner].parent, s.frames[owner].root,
          ⟨s.frames[owner].members.keys, before ++ (key, old) :: after⟩⟩ := by
      rw [Array.getElem?_eq_getElem hlt', ← hvals]
    rw [Option.getD_some, Store.bind_eq (Array.getElem?_eq_getElem hlt'), hput]
    exact .rebound hchain hfind.symm hf

theorem written_name (hs : s.Intact) {scope : Nat} (hscope : s.Has (.frame scope)) (key : Text)
    (v : Value) :
    Written v s (.name scope key) (some (.binding ((s.owner? key scope).getD scope) key))
      (.name scope key) (s.bind ((s.owner? key scope).getD scope) key v) where
  effect := effect_name hs hscope key v
  slot_eq := .inr rfl
  read_eq := by
    rw [read, (Store.lookup?_bind hscope v).2]
  at?_eq := by
    simpa only [Option.some.injEq] using Store.at?_bind (Store.lookup?_bind hscope v).1 key v

theorem written_element {array : Nat} (harray : s.Has (.array array)) {index : Int64} {i : Nat}
    (hindex : index.toInt = i) (hi : i ≤ (s.elements array).size) (v : Value) :
    Written v s (.element array index) (some (.element array i)) (.element array index)
      (s.setElement array i v) := by
  have hlt := Store.has_array.mp harray
  have helems := Array.getElem?_eq_getElem hlt
  have heq : s.elements array = s.arrays[array] := by
    rw [Store.elements, Array.getD_eq_getD_getElem?, helems, Option.getD_some]
  have hat := Store.at?_setElement harray hi v
  refine ⟨?_, .inr rfl, ?_, ?_⟩
  · rw [Store.setElement_eq helems]
    rw [heq] at hi
    rcases Nat.lt_or_eq_of_le hi with hi | rfl
    · rw [if_pos hi]
      exact .replaced helems hindex hi
    · rw [if_neg (Nat.lt_irrefl _)]
      exact .appended helems hindex
  · have hread := hat (.element array i)
    rw [if_pos rfl, Store.at?] at hread
    rw [read, hindex, if_pos (Int.natCast_nonneg i), Int.toNat_natCast]
    simp only [hread]
  · simpa only [Option.some.injEq] using hat

theorem written_member (hs : s.Intact) {object : Nat} (hobject : s.Has (.object object))
    (key : Text) (v : Value) :
    Written v s (.member object key) (some (.member object key)) (.member object key)
      (s.setMember object key v) := by
  have hlt := Store.has_object.mp hobject
  have hm := Array.getElem?_eq_getElem hlt
  have hat := Store.at?_setMember hobject key v
  refine ⟨?_, .inr rfl, ?_, ?_⟩
  · rw [Store.setMember_eq hm]
    cases hhas : s.objects[object].has key with
    | true =>
      obtain ⟨before, old, after, hvals, hput⟩ := Members.put_of_has hhas v
      rw [hput]
      exact .member (hm.trans (congrArg some (congrArg (Members.mk _) hvals)))
    | false =>
      rw [Members.put_of_not_has hhas]
      refine .newMember hm ?_
      rw [(hs.keys _ (Array.mem_of_getElem? hm)).mem_keys, hhas]
      exact Bool.false_ne_true
  · have hread := hat (.member object key)
    rw [if_pos rfl, Store.at?] at hread
    rw [read, hread]
  · simpa only [Option.some.injEq] using hat

theorem written_immediate (old v : Value) :
    Written v s (.immediate old) none (.immediate v) s :=
  ⟨.immediate, .inl rfl, rfl, fun _ => (if_neg (Option.some_ne_none _)).symm⟩

end Slot

namespace Interp

/-- A slot that was found in a store may be written when the store has grown. If that succeeds, the
    value is read from the slot then and one place of the store at most has changed. It fails only
    for an element outside an array, and leaves everything as it was then. -/
theorem write_effect {s : Store} {slot : Slot} {m : Machine} (hm : m.store.Intact)
    (hslot : slot.Made s) (hgrows : s.Grows m.store) (v : Value) :
    (∃ slot' place s',
      write slot v m = .done slot' { m with store := s' } ∧
      read slot' { m with store := s' } = .done v { m with store := s' } ∧
      slot.Written v m.store place slot' s') ∨
    ∃ array index,
      slot = .element array index ∧
      (index.toInt < 0 ∨ (m.store.elements array).size < index.toInt) ∧
      write slot v m = .failed (.of (.writeOutside index (m.store.elements array).size)) m := by
  have hcontainer := hslot.has_container hgrows
  -- A writing of the store that comes to a slot and a store is one of the machine.
  have hdone {slot' : Slot} {place : Option Place} {s' : Store}
      (hwrite : slot.write m.store v = .ok (slot', s'))
      (hwritten : slot.Written v m.store place slot' s') :
      write slot v m = .done slot' { m with store := s' } ∧
      read slot' { m with store := s' } = .done v { m with store := s' } ∧
      slot.Written v m.store place slot' s' := by
    refine ⟨by simp only [write, hwrite], ?_, hwritten⟩
    change EvalM.check (slot'.read s') _ = _
    rw [hwritten.read_eq]
    rfl
  cases slot with
  | name scope key =>
    exact .inl ⟨_, _, _, hdone rfl (Slot.written_name hm (hcontainer _ rfl) key v)⟩
  | element array index =>
    by_cases hin : 0 ≤ index.toInt ∧ index.toInt ≤ ((m.store.elements array).size : Int)
    · have hindex : index.toInt = (index.toInt.toNat : Nat) := (Int.toNat_of_nonneg hin.1).symm
      have hle := Int.toNat_le.mpr hin.2
      have hwritten := Slot.written_element (hcontainer _ rfl) hindex hle v
      exact .inl ⟨_, _, _, hdone (if_pos hin) hwritten⟩
    · refine .inr ⟨array, index, rfl, ?_, ?_⟩
      · rcases not_and_or.mp hin with h | h
        · exact .inl (not_le.mp h)
        · exact .inr (not_le.mp h)
      · simp only [write, Slot.write, if_neg hin]
  | member object key =>
    exact .inl ⟨_, _, _, hdone rfl (Slot.written_member hm (hcontainer _ rfl) key v)⟩
  | immediate old => exact .inl ⟨_, _, _, hdone rfl (Slot.written_immediate old v)⟩

/-- A frame without names under a root with the built-in functions. -/
def nestedFrames : Store := (Store.empty.newRoot.2.newFrame 0).2

/-- The slot of a name that no frame has is found from the inner frame. The root gets the name, and
    the writing goes there. -/
theorem write_effect_nestedFrames :
    let m : Machine := { store := nestedFrames.bind 0 "X" (.int 1) }
    let slot : Slot := .name 1 "X"
    (m.store.Intact ∧ slot.Made nestedFrames ∧ nestedFrames.Grows m.store ∧
      (slot.write m.store (.int 2)).toOption.map (fun p => p.2.at? (.binding 0 "X")) =
        some (some (.int 2))) ∧
    ((∃ slot' place s',
      write slot (.int 2) m = .done slot' { m with store := s' } ∧
      read slot' { m with store := s' } = .done (.int 2) { m with store := s' } ∧
      slot.Written (.int 2) m.store place slot' s') ∨
    ∃ array index,
      slot = .element array index ∧
      (index.toInt < 0 ∨ (m.store.elements array).size < index.toInt) ∧
      write slot (.int 2) m =
        .failed (.of (.writeOutside index (m.store.elements array).size)) m) := by
  intro m slot
  have hroot : Store.empty.newRoot.2.Has (.frame 0) := Store.has_frame.mpr (by decide +kernel)
  have hframes : nestedFrames.Intact := Store.Intact.empty.newRoot.newFrame hroot
  have hm : m.store.Intact := hframes.bind 0 "X" fun c hc => by cases hc
  have hslot : slot.Made nestedFrames := .name (Store.has_frame.mpr (by decide +kernel)) "X"
  have hgrows : nestedFrames.Grows m.store :=
    (Store.Grows.lasting nestedFrames).bind (.refl nestedFrames) 0 "X" (.int 1)
  exact ⟨⟨hm, hslot, hgrows, by decide +kernel⟩, write_effect hm hslot hgrows (.int 2)⟩

end Interp

end ExprLang
