import ExprLang.Config
import ExprLang.Proofs.KeyOrder
import ExprLang.Proofs.Slots

/-!
# Layers of symbols

Symbols come from the settings and from a file, and the file counts. The root scope that is made of
both has the names of the built-in functions first and the other names after them in ascending
order. A symbol takes the place of a built-in function of its name. Only the data that counts for a
name is converted, and the first name whose data cannot be converted decides the failure
(`Store.newScope_layers`).
-/

namespace ExprLang

/-! ## What counts for a name -/

namespace Symbols

/-- The data that counts for a name: that of the file, or else that of the settings. -/
def counting (config file : Symbols) (name : Text) : Option HostData :=
  (file.lookup name).or (config.lookup name)

theorem merge_pair (config file : Symbols) :
    merge [config, file] = Assoc.insertAll file (Assoc.insertAll config []) := by
  rw [merge, List.flatten_cons, List.flatten_cons, List.flatten_nil, List.append_nil,
    Assoc.insertAll_append]

theorem nodup_merge (config file : Symbols) :
    ((merge [config, file]).map Prod.fst).Nodup := by
  rw [merge_pair]
  have hconfig : ((Assoc.insertAll config []).map Prod.fst).Nodup :=
    Assoc.nodup_insertAll (by simp) config
  exact Assoc.nodup_insertAll hconfig file

theorem lookup_merge {config file : Symbols} (hconfig : (config.map Prod.fst).Nodup)
    (hfile : (file.map Prod.fst).Nodup) (name : Text) :
    (merge [config, file]).lookup name = counting config file name := by
  rw [merge_pair, Assoc.lookup_insertAll hfile, Assoc.lookup_insertAll hconfig, counting,
    List.lookup_nil, Option.or_none]

end Symbols

/-! ## Conversion adds cells -/

namespace Store

/-- A store that has more arrays, objects and functions than another, and nothing else. -/
structure Adds (s t : Store) : Prop where
  frames : t.frames = s.frames
  arrays : s.arrays.toList <+: t.arrays.toList
  objects : s.objects.toList <+: t.objects.toList
  functions : s.functions.toList <+: t.functions.toList

namespace Adds

variable {s t u : Store}

theorem refl (s : Store) : s.Adds s :=
  ⟨rfl, List.prefix_rfl, List.prefix_rfl, List.prefix_rfl⟩

theorem trans (h : s.Adds t) (h' : t.Adds u) : s.Adds u where
  frames := h'.frames.trans h.frames
  arrays := h.arrays.trans h'.arrays
  objects := h.objects.trans h'.objects
  functions := h.functions.trans h'.functions

theorem newArray (s : Store) (elems : Array Value) : s.Adds (s.newArray elems).2 :=
  { refl s with arrays := ⟨[elems], by simp [Store.newArray]⟩ }

theorem newObject (s : Store) (members : Members) : s.Adds (s.newObject members).2 :=
  { refl s with objects := ⟨[members], by simp [Store.newObject]⟩ }

theorem newFunction (s : Store) (f : Function) : s.Adds (s.newFunction f).2 :=
  { refl s with functions := ⟨[f], by simp [Store.newFunction]⟩ }

end Adds

end Store

namespace Build

/-- A construction that does no more than add cells, and succeeds in some cases only. -/
def Requires {α : Type} (x : Build α) (P : Prop) : Prop :=
  ∀ s a t, x s = .ok (a, t) → s.Adds t ∧ P

/-- A value that was made on the way from one store to another. -/
def Made (x : Build Value) (s u : Store) (v : Value) : Prop :=
  ∃ t t', s.Adds t ∧ x t = .ok (v, t') ∧ t'.Adds u

theorem bind_eq_error {α β : Type} {x : Build α} {f : α → Build β} {s : Store} {cause : Cause}
    (h : (x >>= f) s = .error cause) :
    x s = .error cause ∨ ∃ a t, x s = .ok (a, t) ∧ f a t = .error cause := by
  change Build.andThen x f s = _ at h
  rw [Build.andThen] at h
  split at h
  · next a t hx => exact .inr ⟨a, t, hx, h⟩
  · next cause' hx =>
    cases h
    exact .inl hx

namespace Requires

variable {α β : Type} {P Q : Prop}

theorem pure (a : α) : Build.Requires (Pure.pure a) True := by
  rintro s _ t ⟨⟩
  exact ⟨.refl s, trivial⟩

theorem of {f : Store → α × Store} (h : ∀ s : Store, s.Adds (f s).2) :
    (Build.of f).Requires True := by
  intro s a t hf
  have hfs : f s = (a, t) := Except.ok.inj hf
  have hadds := h s
  rw [hfs] at hadds
  exact ⟨hadds, trivial⟩

theorem bind {x : Build α} {f : α → Build β} (hx : x.Requires P) (hf : ∀ a, (f a).Requires Q) :
    (x >>= f).Requires (P ∧ Q) := by
  intro s b u h
  obtain ⟨a, t, ha, hb⟩ := bind_eq_ok h
  obtain ⟨hst, hP⟩ := hx s a t ha
  obtain ⟨htu, hQ⟩ := hf a t b u hb
  exact ⟨hst.trans htu, hP, hQ⟩

theorem imp {x : Build α} (hx : x.Requires P) (h : P → Q) : x.Requires Q := by
  intro s a t ha
  obtain ⟨hst, hP⟩ := hx s a t ha
  exact ⟨hst, h hP⟩

end Requires

/-- Values that are made one after the other are all made on the way to the last store. -/
theorem sequence_made {entries : List (Text × Build Value)}
    (h : ∀ entry ∈ entries, entry.2.Requires True) {s u : Store} {vs : List (Text × Value)}
    (hvs : sequence entries s = .ok (vs, u)) :
    s.Adds u ∧ vs.map Prod.fst = entries.map Prod.fst ∧
      List.Forall₂ (fun entry named => named.1 = entry.1 ∧ entry.2.Made s u named.2)
        entries vs := by
  induction entries generalizing s vs with
  | nil =>
    cases hvs
    exact ⟨.refl _, rfl, .nil⟩
  | cons entry entries ih =>
    obtain ⟨key, x⟩ := entry
    obtain ⟨hx, hrest⟩ := List.forall_mem_cons.mp h
    rw [sequence] at hvs
    obtain ⟨v, t, hv, hvs⟩ := bind_eq_ok hvs
    obtain ⟨ws, _, hws, hend⟩ := bind_eq_ok hvs
    cases hend
    obtain ⟨hst, -⟩ := hx s v t hv
    obtain ⟨htu, hkeys, hmade⟩ := ih hrest hws
    refine ⟨hst.trans htu, by rw [List.map_cons, List.map_cons, hkeys],
      .cons ⟨rfl, s, t, .refl s, hv, htu⟩ (hmade.imp ?_)⟩
    rintro entry named ⟨hname, t₁, t₂, ht₁, hvalue, ht₂⟩
    exact ⟨hname, t₁, t₂, hst.trans ht₁, hvalue, ht₂⟩

/-- If one of some constructions fails, all before it have succeeded. -/
theorem sequence_failed {entries : List (Text × Build Value)}
    (h : ∀ entry ∈ entries, entry.2.Requires True) {s : Store} {cause : Cause}
    (hcause : sequence entries s = .error cause) :
    ∃ before entry after t, entries = before ++ entry :: after ∧ s.Adds t ∧
      entry.2 t = .error cause ∧ ∀ earlier ∈ before, ∃ t' r, earlier.2 t' = .ok r := by
  induction entries generalizing s with
  | nil => cases hcause
  | cons entry entries ih =>
    obtain ⟨key, x⟩ := entry
    obtain ⟨hx, hrest⟩ := List.forall_mem_cons.mp h
    rw [sequence] at hcause
    rcases bind_eq_error hcause with hfirst | ⟨v, t, hv, hcause⟩
    · exact ⟨[], (key, x), entries, s, rfl, .refl s, hfirst, List.forall_mem_nil _⟩
    · obtain ⟨hst, -⟩ := hx s v t hv
      rcases bind_eq_error hcause with hlater | ⟨ws, u, -, hend⟩
      · obtain ⟨before, entry, after, t', rfl, hadds, hentry, hbefore⟩ := ih hrest hlater
        refine ⟨(key, x) :: before, entry, after, t', rfl, hst.trans hadds, hentry, ?_⟩
        exact List.forall_mem_cons.mpr ⟨⟨s, _, hv⟩, hbefore⟩
      · cases hend

/-- An object needs all its members. -/
theorem object_requires {entries : List (Text × Build Value)}
    (h : ∀ entry ∈ entries, entry.2.Requires True) :
    (object entries).Requires (∀ entry ∈ entries, ∃ s r, entry.2 s = .ok r) := by
  intro s v u hv
  obtain ⟨vs, t, hvs, hend⟩ := bind_eq_ok hv
  cases hend
  obtain ⟨hst, -, hmade⟩ :=
    sequence_made (fun entry hentry => h entry (mem_sortedByKey.mp hentry)) hvs
  refine ⟨hst.trans (.newObject t _), fun entry hentry => ?_⟩
  obtain ⟨named, -, -, t₁, t₂, -, hvalue, -⟩ :=
    exists_of_forall₂ hmade (mem_sortedByKey.mpr hentry)
  exact ⟨t₁, _, hvalue⟩

end Build

namespace HostData

theorem entriesAccepted_iff {entries : List (Text × HostData)} :
    entriesAccepted entries = true ↔ ∀ entry ∈ entries, entry.2.isAccepted = true := by
  induction entries with
  | nil => simp [entriesAccepted]
  | cons entry entries ih =>
    obtain ⟨key, x⟩ := entry
    rw [entriesAccepted, Bool.and_eq_true, ih, List.forall_mem_cons]

theorem pairsAccepted_iff {entries : List (HostData × HostData)} :
    pairsAccepted entries = true ↔
      ∀ entry ∈ entries, entry.1.isAccepted = true ∧ entry.2.isAccepted = true := by
  induction entries with
  | nil => simp [pairsAccepted]
  | cons entry entries ih =>
    obtain ⟨key, x⟩ := entry
    rw [pairsAccepted, Bool.and_eq_true, Bool.and_eq_true, ih, List.forall_mem_cons]

/-- The texts of keys need the keys to be converted, and leave the entries to be converted. -/
theorem keyTexts_ok {entries : List (HostData × HostData)}
    (hkeys : ∀ entry ∈ entries, entry.1.toValue.Requires (entry.1.isAccepted = true)) {s t : Store}
    {keyed : List (Text × Build Value)} (h : keyTexts entries s = .ok (keyed, t)) :
    s.Adds t ∧ (∀ entry ∈ entries, entry.1.isAccepted = true) ∧
      keyed.map Prod.snd = entries.map fun entry => entry.2.toValue := by
  induction entries generalizing s keyed with
  | nil =>
    cases h
    exact ⟨.refl _, List.forall_mem_nil _, rfl⟩
  | cons entry entries ih =>
    obtain ⟨key, x⟩ := entry
    obtain ⟨hkey, hrest⟩ := List.forall_mem_cons.mp hkeys
    rw [keyTexts] at h
    obtain ⟨k, u, hk, h⟩ := Build.bind_eq_ok h
    obtain ⟨text, _, htext, h⟩ := Build.bind_eq_ok h
    cases htext
    obtain ⟨others, _, hothers, hend⟩ := Build.bind_eq_ok h
    cases hend
    obtain ⟨hsu, haccepted⟩ := hkey s k u hk
    obtain ⟨hut, hall, hbuilds⟩ := ih hrest hothers
    refine ⟨hsu.trans hut, List.forall_mem_cons.mpr ⟨haccepted, hall⟩, ?_⟩
    rw [List.map_cons, List.map_cons, hbuilds]

mutual

/-- Conversion adds cells, and needs all scalars in the data to have values. -/
theorem toValue_requires : ∀ x : HostData, x.toValue.Requires (x.isAccepted = true)
  | .unsupported type | .nilPointer type => by
    rw [toValue]
    exact fun _ _ _ h => nomatch h
  | .bool _ | .int _ | .unsigned _ | .big _ | .double _ | .text _ | .value _ => by
    rw [toValue]
    exact (Build.Requires.pure _).imp fun _ => rfl
  | .pointer target => by
    rw [toValue]
    exact toValue_requires target
  | .number written => by
    intro s v t h
    rw [toValue] at h
    rw [isAccepted]
    cases hnumber : numberValue written with
    | ok w =>
      rw [hnumber] at h
      cases h
      exact ⟨.refl s, rfl⟩
    | error cause =>
      rw [hnumber] at h
      cases h
  | .native f => by
    rw [toValue]
    exact (Build.Requires.of fun s => .newFunction s _).imp fun _ => rfl
  | .list items => by
    rw [toValue]
    refine ((toValues_requires items).bind fun vs => .of fun s => ?_).imp And.left
    exact .newArray s _
  | .map entries => by
    rw [toValue]
    rw [entryValues_eq_map]
    have hadds : ∀ entry ∈ entries.map fun entry => (entry.1, entry.2.toValue),
        entry.2.Requires True := by
      intro entry hentry
      obtain ⟨source, hsource, rfl⟩ := List.mem_map.mp hentry
      exact (entries_require entries source hsource).imp fun _ => trivial
    refine (Build.object_requires hadds).imp fun h => entriesAccepted_iff.mpr fun entry hentry => ?_
    obtain ⟨s, r, hr⟩ := h _ (List.mem_map_of_mem hentry)
    exact (entries_require entries entry hentry s r.1 r.2 hr).2
  | .keyedMap entries => by
    intro s v u h
    rw [toValue] at h
    obtain ⟨keyed, t, hkeyed, hobject⟩ := Build.bind_eq_ok h
    obtain ⟨hst, hkeys, hbuilds⟩ :=
      keyTexts_ok (fun entry hentry => (pairs_require entries entry hentry).1) hkeyed
    have hmem {b : Build Value} : b ∈ keyed.map Prod.snd ↔
        ∃ entry ∈ entries, entry.2.toValue = b := by
      rw [hbuilds, List.mem_map]
    have hadds : ∀ named ∈ keyed, named.2.Requires True := by
      intro named hnamed
      obtain ⟨entry, hentry, heq⟩ := hmem.mp (List.mem_map_of_mem hnamed)
      rw [← heq]
      exact (pairs_require entries entry hentry).2.imp fun _ => trivial
    obtain ⟨htu, hmade⟩ := Build.object_requires hadds t v u hobject
    refine ⟨hst.trans htu, pairsAccepted_iff.mpr fun entry hentry => ⟨hkeys entry hentry, ?_⟩⟩
    obtain ⟨named, hnamed, heq⟩ := List.mem_map.mp (hmem.mpr ⟨entry, hentry, rfl⟩)
    obtain ⟨t₁, r, hr⟩ := hmade named hnamed
    rw [heq] at hr
    exact ((pairs_require entries entry hentry).2 t₁ r.1 r.2 hr).2

theorem toValues_requires : ∀ items : List HostData,
    (toValues items).Requires (itemsAccepted items = true)
  | [] => by
    rw [toValues]
    exact (Build.Requires.pure _).imp fun _ => rfl
  | item :: items => by
    rw [toValues]
    refine ((toValue_requires item).bind fun v =>
      (toValues_requires items).bind fun vs => .pure _).imp fun h => ?_
    rw [itemsAccepted, h.1, h.2.1]
    rfl

theorem entries_require : ∀ entries : List (Text × HostData),
    ∀ entry ∈ entries, entry.2.toValue.Requires (entry.2.isAccepted = true)
  | [], _, h => by cases h
  | (key, x) :: entries, entry, h => by
    rcases List.mem_cons.mp h with rfl | h
    · exact toValue_requires x
    · exact entries_require entries entry h

theorem pairs_require : ∀ entries : List (HostData × HostData), ∀ entry ∈ entries,
    entry.1.toValue.Requires (entry.1.isAccepted = true) ∧
      entry.2.toValue.Requires (entry.2.isAccepted = true)
  | [], _, h => by cases h
  | (key, x) :: entries, entry, h => by
    rcases List.mem_cons.mp h with rfl | h
    · exact ⟨toValue_requires key, toValue_requires x⟩
    · exact pairs_require entries entry h

end

/-- Data that can be converted. Whether it can does not depend on the store. -/
def Converts (x : HostData) (s : Store) : Prop := ∃ v t, x.toValue s = .ok (v, t)

theorem converts_iff {x : HostData} {s : Store} : x.Converts s ↔ x.isAccepted = true := by
  constructor
  · rintro ⟨v, t, h⟩
    exact (toValue_requires x s v t h).2
  · intro h
    obtain ⟨v, t, hv, -⟩ := toValue_succeeds x h s
    exact ⟨v, t, hv⟩

/-- Raw data is refused for one reason in all stores. -/
theorem toValue_error_of_raw {x : HostData} (hx : x.values = []) {s : Store} {cause : Cause}
    (h : x.toValue s = .error cause) (t : Store) : x.toValue t = .error cause := by
  have hempty (u : Store) (c : Cause) (hu : x.toValue u = .error c) :
      x.toValue {} = .error c := by
    have hL := Links.across_ordered (fun _ => False) u {}
    rcases toValue_linked hL hx u {} (linked_empty u) with
      ⟨c', hs, ht⟩ | ⟨a, s', b, t', hs, -⟩
    · rw [hu] at hs
      cases hs
      exact ht
    · rw [hu] at hs
      cases hs
  cases ht : x.toValue t with
  | ok r =>
    obtain ⟨v, u, hv⟩ : x.Converts s := converts_iff.mpr (converts_iff.mp ⟨r.1, r.2, ht⟩)
    rw [h] at hv
    cases hv
  | error c =>
    have heq := (hempty s cause h).symm.trans (hempty t c ht)
    cases heq
    rfl

end HostData

/-! ## The root frame -/

namespace Members

theorem vals_putAll (m : Members) (entries : List (Text × Value)) :
    (m.putAll entries).vals = Assoc.insertAll entries m.vals := by
  induction entries generalizing m with
  | nil => rfl
  | cons entry entries ih => exact ih (m.put entry.1 entry.2)

theorem get?_putAll {m : Members} {entries : List (Text × Value)}
    (h : (entries.map Prod.fst).Nodup) (name : Text) :
    (m.putAll entries).get? name = (entries.lookup name).or (m.get? name) := by
  rw [get?, vals_putAll, Assoc.lookup_insertAll h, get?]

/-- Members that are written keep the places they have, and the new ones follow in their order. -/
theorem keys_putAll {m : Members} (hm : m.WellFormed) {entries : List (Text × Value)}
    (h : (entries.map Prod.fst).Nodup) :
    (m.putAll entries).keys = m.keys ++ (entries.map Prod.fst).filter (· ∉ m.keys) := by
  induction entries generalizing m with
  | nil => exact (List.append_nil _).symm
  | cons entry entries ih =>
    obtain ⟨hnew, hrest⟩ := List.nodup_cons.mp h
    have hputAll : (m.putAll (entry :: entries)).keys = _ := ih (hm.put entry.1 entry.2) hrest
    rw [hputAll, hm.keys_put, List.map_cons]
    by_cases hmem : entry.1 ∈ m.keys
    · simp [hmem]
    · rw [if_neg hmem, List.append_assoc, List.filter_cons_of_pos (by simpa using hmem)]
      have hfilter : (entries.map Prod.fst).filter (· ∉ m.keys ++ [entry.1]) =
          (entries.map Prod.fst).filter (· ∉ m.keys) := by
        apply List.filter_congr
        intro key hkey
        have hne : key ≠ entry.1 := fun heq => hnew (heq ▸ hkey)
        simp [hne]
      rw [hfilter, List.singleton_append]

end Members

namespace Store

theorem modify_modify {α : Type} (cells : Array α) (i : Nat) (f g : α → α) :
    (cells.modify i f).modify i g = cells.modify i (g ∘ f) := by
  apply Array.ext_getElem?
  intro j
  simp only [Array.getElem?_modify]
  split
  · cases cells[j]? <;> rfl
  · rfl

theorem modify_push {α : Type} (cells : Array α) (a : α) (f : α → α) :
    (cells.push a).modify cells.size f = cells.push (f a) := by
  apply Array.ext_getElem?
  intro j
  simp only [Array.getElem?_modify, Array.getElem?_push]
  by_cases h : j = cells.size
  · simp [h]
  · simp [h, Ne.symm h]

/-- Binding names one after the other writes the members of the frame. -/
theorem bindAll_eq (s : Store) (id : Nat) (entries : List (Text × Value)) :
    entries.foldl (fun s entry => s.bind id entry.1 entry.2) s =
      { s with frames := s.frames.modify id fun frame =>
          { frame with members := frame.members.putAll entries } } := by
  induction entries generalizing s with
  | nil =>
    have hsame : s.frames.modify id (fun frame => frame) = s.frames := by
      apply Array.ext_getElem?
      intro j
      rw [Array.getElem?_modify]
      split
      · exact Option.map_id'
      · rfl
    exact congrArg (fun frames => { s with frames }) hsame.symm
  | cons entry entries ih =>
    rw [List.foldl_cons, ih, bind, modify_modify]
    rfl

end Store

/-- The names of functions, with the functions that are added from a number on. -/
def Function.numbered (start : Nat) : List (Text × Function) → List (Text × Value)
  | [] => []
  | (name, _) :: rest => (name, .function start) :: numbered (start + 1) rest

theorem Function.keys_numbered (start : Nat) (functions : List (Text × Function)) :
    (numbered start functions).map Prod.fst = functions.map Prod.fst := by
  induction functions generalizing start with
  | nil => rfl
  | cons entry functions ih => rw [numbered, List.map_cons, List.map_cons, ih]

theorem Function.mem_numbered (start : Nat) {functions : List (Text × Function)} {name : Text}
    {f : Function} (h : (name, f) ∈ functions) :
    ∃ i, (name, .function (start + i)) ∈ numbered start functions ∧
      (functions.map Prod.snd)[i]? = some f := by
  induction functions generalizing start with
  | nil => cases h
  | cons entry functions ih =>
    rw [numbered]
    rcases List.mem_cons.mp h with rfl | hrest
    · exact ⟨0, List.mem_cons_self, rfl⟩
    · obtain ⟨i, hi, hf⟩ := ih (start + 1) hrest
      refine ⟨i + 1, List.mem_cons_of_mem _ ?_, hf⟩
      rwa [Nat.add_assoc, Nat.add_comm 1 i] at hi

namespace Store

/-- Binding new functions adds the functions and binds their names. -/
theorem bindFunctions_eq (s : Store) (id : Nat) (functions : List (Text × Function)) :
    s.bindFunctions id functions =
      (Function.numbered s.functions.size functions).foldl
        (fun s entry => s.bind id entry.1 entry.2)
        { s with functions := s.functions ++ (functions.map Prod.snd).toArray } := by
  induction functions generalizing s with
  | nil => simp [bindFunctions, Function.numbered]
  | cons entry functions ih =>
    obtain ⟨name, f⟩ := entry
    have hsize : ((s.newFunction f).2.bind id name (.function s.functions.size)).functions.size =
        s.functions.size + 1 := Array.size_push _
    change ((s.newFunction f).2.bind id name (.function s.functions.size)).bindFunctions id
      functions = _
    rw [ih, hsize, Function.numbered, List.foldl_cons]
    congr 1
    simp [newFunction, bind]

/-- The members of a root frame that has the built-in functions only. -/
def builtinMembers (s : Store) : Members :=
  .ofList (Function.numbered s.functions.size Function.builtins)

theorem nodup_numbered_builtins (start : Nat) :
    ((Function.numbered start Function.builtins).map Prod.fst).Nodup := by
  rw [Function.keys_numbered]
  decide

theorem newRoot_eq (s : Store) :
    s.newRoot =
      (s.frames.size,
        { s with
          functions := s.functions ++ (Function.builtins.map Prod.snd).toArray
          frames := s.frames.push ⟨none, s.frames.size, s.builtinMembers⟩ }) := by
  rw [newRoot, bindFunctions_eq, bindAll_eq]
  dsimp only
  rw [modify_push]
  rfl

/-- A new root scope: the data is converted in the order of the names, and the names are bound. -/
theorem newScope_root (symbols : List (Text × HostData)) (s : Store) :
    newScope none symbols s =
      match Build.sequence (sortedByKey (HostData.entryValues symbols)) s.newRoot.2 with
      | .ok (vs, u) =>
        .ok (s.frames.size, { u with frames := u.frames.modify s.frames.size fun frame =>
          { frame with members := frame.members.putAll vs } })
      | .error cause => .error cause := by
  change Build.andThen _ _ s.newRoot.2 = _
  rw [Build.andThen]
  cases Build.sequence (sortedByKey (HostData.entryValues symbols)) s.newRoot.2 with
  | ok r => exact congrArg (fun u => Except.ok (s.frames.size, u)) (bindAll_eq r.2 _ r.1)
  | error cause => rfl

/-! ## Scopes of two layers -/

/-- The members of a root frame that two layers of symbols give: the names of the built-in functions
    come first and the others follow in ascending order. A name that has data that counts is bound
    to a value made of it, and every other name to the built-in function. -/
structure RootOf (config file : Symbols) (s u : Store) (members : Members) : Prop where
  wellFormed : members.WellFormed
  names : ∃ others, Ascending others ∧
    (∀ name, name ∈ others ↔ (Symbols.counting config file name).isSome = true ∧
      name ∉ Function.builtins.map Prod.fst) ∧
    members.keys = Function.builtins.map Prod.fst ++ others
  given : ∀ name x, Symbols.counting config file name = some x →
    ∃ v, members.get? name = some v ∧ x.toValue.Made s.newRoot.2 u v
  builtin : ∀ name f, Symbols.counting config file name = none →
    (name, f) ∈ Function.builtins →
      ∃ i, members.get? name = some (.function i) ∧ u.functions[i]? = some f

section Layers

variable {config file : Symbols} (hconfig : (config.map Prod.fst).Nodup)
  (hfile : (file.map Prod.fst).Nodup)

theorem ascending_merged (config file : Symbols) :
    Ascending
      ((sortedByKey (HostData.entryValues (Symbols.merge [config, file]))).map Prod.fst) := by
  apply ascending_sortedByKey
  rw [HostData.entryValues_eq_map, List.map_map]
  exact Symbols.nodup_merge config file

theorem requires_merged (config file : Symbols) :
    ∀ entry ∈ sortedByKey (HostData.entryValues (Symbols.merge [config, file])),
      entry.2.Requires True := by
  intro entry hentry
  rw [mem_sortedByKey, HostData.entryValues_eq_map] at hentry
  obtain ⟨source, -, rfl⟩ := List.mem_map.mp hentry
  exact (HostData.toValue_requires source.2).imp fun _ => trivial

include hconfig hfile

/-- What is converted is the data that counts. -/
theorem mem_merged {name : Text} {b : Build Value} :
    (name, b) ∈ sortedByKey (HostData.entryValues (Symbols.merge [config, file])) ↔
      ∃ x, Symbols.counting config file name = some x ∧ x.toValue = b := by
  rw [mem_sortedByKey, HostData.entryValues_eq_map, List.mem_map]
  constructor
  · rintro ⟨⟨name', x⟩, hmem, heq⟩
    cases heq
    refine ⟨x, ?_, rfl⟩
    rw [← Symbols.lookup_merge hconfig hfile]
    exact (Assoc.mem_iff_lookup (Symbols.nodup_merge config file)).mp hmem
  · rintro ⟨x, hx, rfl⟩
    rw [← Symbols.lookup_merge hconfig hfile] at hx
    exact ⟨(name, x), (Assoc.mem_iff_lookup (Symbols.nodup_merge config file)).mpr hx, rfl⟩

variable {s u : Store} {vs : List (Text × Value)}

/-- The frame after all the data that counts has been converted. -/
theorem rootOf_merged
    (h : Build.sequence (sortedByKey (HostData.entryValues (Symbols.merge [config, file])))
      s.newRoot.2 = .ok (vs, u)) :
    s.newRoot.2.Adds u ∧ RootOf config file s u (s.builtinMembers.putAll vs) := by
  obtain ⟨hadds, hkeys, hmade⟩ := Build.sequence_made (requires_merged config file) h
  have hascending : Ascending (vs.map Prod.fst) := hkeys ▸ ascending_merged config file
  have hmem (name : Text) : name ∈ vs.map Prod.fst ↔
      (Symbols.counting config file name).isSome = true := by
    rw [hkeys, List.mem_map, Option.isSome_iff_exists]
    constructor
    · rintro ⟨⟨name', b⟩, hentry, rfl⟩
      obtain ⟨x, hx, -⟩ := (mem_merged hconfig hfile).mp hentry
      exact ⟨x, hx⟩
    · rintro ⟨x, hx⟩
      exact ⟨_, (mem_merged hconfig hfile).mpr ⟨x, hx, rfl⟩, rfl⟩
  have hdistinct := nodup_numbered_builtins s.functions.size
  have hbuiltins : s.builtinMembers.keys = Function.builtins.map Prod.fst :=
    (Members.keys_ofList hdistinct).trans (Function.keys_numbered _ _)
  have hwell : s.builtinMembers.WellFormed := .ofList _
  refine ⟨hadds, ⟨hwell.putAll vs, ?_, ?_, ?_⟩⟩
  · refine ⟨(vs.map Prod.fst).filter (· ∉ Function.builtins.map Prod.fst), ?_, ?_, ?_⟩
    · exact hascending.sublist List.filter_sublist
    · intro name
      rw [List.mem_filter, hmem, decide_eq_true_eq]
    · rw [Members.keys_putAll hwell hascending.nodup, hbuiltins]
  · intro name x hx
    obtain ⟨⟨name', v⟩, hnamed, rfl, hv⟩ :=
      exists_of_forall₂ hmade ((mem_merged hconfig hfile).mpr ⟨x, hx, rfl⟩)
    refine ⟨v, ?_, hv⟩
    rw [Members.get?_putAll hascending.nodup, (Assoc.mem_iff_lookup hascending.nodup).mp hnamed]
    rfl
  · intro name f hnone hf
    have hnew : name ∉ vs.map Prod.fst := by
      rw [hmem, hnone]
      exact Bool.false_ne_true
    obtain ⟨i, hi, hfi⟩ := Function.mem_numbered s.functions.size hf
    refine ⟨s.functions.size + i, ?_, ?_⟩
    · rw [Members.get?_putAll hascending.nodup, Assoc.lookup_eq_none hnew, Option.none_or]
      refine hwell.mem_entries.mp ?_
      rw [builtinMembers, Members.entries_ofList hdistinct]
      exact hi
    · obtain ⟨later, hlater⟩ := hadds.functions
      rw [newRoot_eq] at hlater
      have hlt : i < (Function.builtins.map Prod.snd).length := (List.getElem?_eq_some_iff.mp hfi).1
      have hle : s.functions.toList.length ≤ s.functions.size + i := Nat.le_add_right _ _
      rw [← Array.getElem?_toList, ← hlater, Array.toList_append, List.append_assoc,
        List.getElem?_append_right hle, Array.length_toList, Nat.add_sub_cancel_left,
        List.getElem?_append_left hlt]
      exact hfi

/-- The first name whose data cannot be converted. -/
theorem failed_merged {cause : Cause}
    (h : Build.sequence (sortedByKey (HostData.entryValues (Symbols.merge [config, file])))
      s.newRoot.2 = .error cause) :
    ∃ name x t, Symbols.counting config file name = some x ∧ ¬ x.Converts s ∧
      (∀ earlier y, earlier < name → Symbols.counting config file earlier = some y →
        y.Converts s) ∧
      s.newRoot.2.Adds t ∧ x.toValue t = .error cause := by
  obtain ⟨before, ⟨name, b⟩, after, t, hentries, hadds, hcause, hbefore⟩ :=
    Build.sequence_failed (requires_merged config file) h
  have hascending := ascending_merged config file
  have hmem := @mem_merged _ _ hconfig hfile
  rw [hentries] at hascending hmem
  obtain ⟨x, hx, rfl⟩ := hmem.mp (List.mem_append_right _ List.mem_cons_self)
  refine ⟨name, x, t, hx, ?_, ?_, hadds, hcause⟩
  · intro hconverts
    obtain ⟨v, u, hv⟩ : x.Converts t :=
      HostData.converts_iff.mpr (HostData.converts_iff.mp hconverts)
    cases hv.symm.trans hcause
  · intro earlier y hlt hy
    -- all names from the failing one on are later
    have hearlier : (earlier, y.toValue) ∈ before := by
      rcases List.mem_append.mp (hmem.mpr ⟨y, hy, rfl⟩) with hbefore | hafter
      · exact hbefore
      · rw [Ascending, List.pairwise_map, List.pairwise_append, List.pairwise_cons] at hascending
        rcases List.mem_cons.mp hafter with heq | hafter
        · rw [(Prod.mk.inj heq).1] at hlt
          exact absurd hlt (Text.lt_irrefl name)
        · exact absurd (Text.lt_trans hlt (hascending.2.1.1 _ hafter)) (Text.lt_irrefl earlier)
    obtain ⟨t', r, hr⟩ := hbefore _ hearlier
    exact HostData.converts_iff.mpr (HostData.converts_iff.mp ⟨r.1, r.2, hr⟩)

end Layers

/-- The scope of two layers of symbols, in which each name is listed once. If all the data that
    counts can be converted, there is a new root frame with the built-in functions and the symbols,
    and otherwise the first name in ascending order whose data cannot be converted gives the cause
    of the failure. Data that the file overrides plays no part. -/
theorem newScope_layers {config file : Symbols} (hconfig : (config.map Prod.fst).Nodup)
    (hfile : (file.map Prod.fst).Nodup) (s : Store) :
    ((∀ name x, Symbols.counting config file name = some x → x.Converts s) →
      ∃ u members, s.newRoot.2.Adds u ∧ RootOf config file s u members ∧
        newScope none (Symbols.merge [config, file]) s =
          .ok (s.frames.size,
            { u with frames := s.frames.push ⟨none, s.frames.size, members⟩ })) ∧
    ((∃ name x, Symbols.counting config file name = some x ∧ ¬ x.Converts s) →
      ∃ name x t cause, Symbols.counting config file name = some x ∧ ¬ x.Converts s ∧
        (∀ earlier y, earlier < name → Symbols.counting config file earlier = some y →
          y.Converts s) ∧
        s.newRoot.2.Adds t ∧ x.toValue t = .error cause ∧
        (x.values = [] → ∀ t', x.toValue t' = .error cause) ∧
        newScope none (Symbols.merge [config, file]) s = .error cause) := by
  rw [newScope_root]
  cases h : Build.sequence (sortedByKey (HostData.entryValues (Symbols.merge [config, file])))
      s.newRoot.2 with
  | ok r =>
    obtain ⟨vs, u⟩ := r
    obtain ⟨hadds, hroot⟩ := rootOf_merged hconfig hfile h
    have hframes : u.frames = s.frames.push ⟨none, s.frames.size, s.builtinMembers⟩ := by
      rw [hadds.frames, newRoot_eq]
    constructor
    · intro _
      refine ⟨u, s.builtinMembers.putAll vs, hadds, hroot, ?_⟩
      dsimp only
      rw [hframes, modify_push]
    · rintro ⟨name, x, hx, hnot⟩
      obtain ⟨v, -, t, t', -, hv, -⟩ := hroot.given name x hx
      exact absurd (HostData.converts_iff.mpr (HostData.converts_iff.mp ⟨v, t', hv⟩)) hnot
  | error cause =>
    obtain ⟨name, x, t, hx, hnot, hearlier, hadds, hcause⟩ := failed_merged hconfig hfile h
    constructor
    · intro hall
      exact absurd (hall name x hx) hnot
    · intro _
      exact ⟨name, x, t, cause, hx, hnot, hearlier, hadds, hcause,
        fun hraw => HostData.toValue_error_of_raw hraw hcause, rfl⟩

/-- Symbols of the settings: a built-in function's name, and a date, which has no value. -/
def datedSymbols : Symbols :=
  [("x", .unsupported "time.Time"), ("b", .int 1), ("LEN", .text "own")]

/-- Symbols of a file that overrides the date. -/
def undatedSymbols : Symbols := [("x", .list [.int 2]), ("a", .bool true)]

/-- Symbols of a file with another date. -/
def redatedSymbols : Symbols := [("y", .unsupported "cbor.Tag"), ("a", .bool true)]

/-- With the date overridden there is a scope, and without it the date, which comes first of what
    cannot be converted, is the cause of the failure. -/
theorem newScope_layers_dates :
    ((datedSymbols.map Prod.fst).Nodup ∧ (undatedSymbols.map Prod.fst).Nodup ∧
      (redatedSymbols.map Prod.fst).Nodup ∧ ¬ (HostData.unsupported "time.Time").Converts empty) ∧
    (∃ u members, empty.newRoot.2.Adds u ∧ RootOf datedSymbols undatedSymbols empty u members ∧
      newScope none (Symbols.merge [datedSymbols, undatedSymbols]) empty =
        .ok (0, { u with frames := #[⟨none, 0, members⟩] })) ∧
    newScope none (Symbols.merge [datedSymbols, redatedSymbols]) empty =
      .error (.unsupportedData "time.Time") := by
  have hdated : (datedSymbols.map Prod.fst).Nodup := by decide
  have hundated : (undatedSymbols.map Prod.fst).Nodup := by decide
  have hredated : (redatedSymbols.map Prod.fst).Nodup := by decide
  have hdate : ¬ (HostData.unsupported "time.Time").Converts empty := by
    rw [HostData.converts_iff]
    exact Bool.false_ne_true
  refine ⟨⟨hdated, hundated, hredated, hdate⟩, ?_, ?_⟩
  · have haccepted :
        HostData.entriesAccepted (Symbols.merge [datedSymbols, undatedSymbols]) = true := by
      decide +kernel
    refine (newScope_layers hdated hundated empty).1 fun name x hx => ?_
    rw [← Symbols.lookup_merge hdated hundated] at hx
    have hmem := (Assoc.mem_iff_lookup (Symbols.nodup_merge _ _)).mpr hx
    exact HostData.converts_iff.mpr (HostData.entriesAccepted_iff.mp haccepted _ hmem)
  · have hx : Symbols.counting datedSymbols redatedSymbols "x" = some (.unsupported "time.Time") :=
      rfl
    obtain ⟨name, x, t, cause, hcounts, hnot, hearlier, -, -, hraw, hfailed⟩ :=
      (newScope_layers hdated hredated empty).2 ⟨_, _, hx, hdate⟩
    rw [← Symbols.lookup_merge hdated hredated] at hcounts
    have hmem := (Assoc.mem_iff_lookup (Symbols.nodup_merge _ _)).mpr hcounts
    have hmerged : Symbols.merge [datedSymbols, redatedSymbols] =
        ([("x", .unsupported "time.Time"), ("b", .int 1), ("LEN", .text "own"),
          ("y", .unsupported "cbor.Tag"), ("a", .bool true)] : Symbols) := rfl
    rw [hmerged] at hmem
    simp only [List.mem_cons, List.not_mem_nil, or_false] at hmem
    rcases hmem with heq | heq | heq | heq | heq
    · cases heq
      have hcause := hraw rfl empty
      rw [HostData.toValue] at hcause
      cases hcause
      exact hfailed
    · cases heq
      exact absurd (HostData.converts_iff.mpr rfl) hnot
    · cases heq
      exact absurd (HostData.converts_iff.mpr rfl) hnot
    · cases heq
      exact absurd (hearlier "x" _ (by decide) hx) hdate
    · cases heq
      exact absurd (HostData.converts_iff.mpr rfl) hnot

end Store

end ExprLang
