import ExprLang.Proofs.PlainData
import Mathlib.Logic.Relation

/-!
# Pictures of values

A picture is a tree of boxes, one for each container that is written out, in which a container may
also be left out. The text of a value is that of its picture that leaves out a container exactly
where it stands inside a box of its own (`Store.repr_picture`). Such a picture is finite, and there
is one for every value, whatever cycles the store has; nothing is left out of it if no container can
be reached from itself.
-/

namespace ExprLang

/-- What a rendering shows: a value, a frame with its ancestors, or a mark in place of a value. -/
inductive Item where
  | value (v : Value)
  | frame (id : Nat)
  | mark (text : Text)
  deriving DecidableEq

namespace Item

/-- A value on its own. Inside of others a scope is not written out. -/
def whole : Value → Item
  | .scope id => .frame id
  | v => .value v

/-- The text of an item that is no container. -/
def label? : Item → Option Text
  | .value (.int n) => some (toString n.toInt)
  | .value (.double x) => some x.toText
  | .value (.text t) => some (Text.quote t.mended)
  | .value (.function _) => some "<Function>"
  | .value (.scope _) => some "<SCOPE>"
  | .mark t => some t
  | .value (.array _) | .value (.object _) | .frame _ => none

/-- The text of a container that is left out. -/
def elision : Item → Text
  | .value (.array _) => "[...]"
  | _ => "\x7b...\x7d"

/-- The text of a container from those of its parts. -/
def enclose (parts : List Text) : Item → Text
  | .value (.array _) => Store.bracketed parts
  | _ => Store.braced parts

end Item

/-- A rendering as a tree. -/
inductive Picture where
  | leaf (text : Text)
  /-- A container that is left out. -/
  | again (container : Item)
  /-- A container with its parts, each with what stands before it. -/
  | box (container : Item) (parts : List (Text × Picture))

namespace Picture

mutual

/-- The text of a picture. -/
def text : Picture → Text
  | .leaf t => t
  | .again c => c.elision
  | .box c parts => c.enclose (partTexts parts)

/-- The texts of the parts of a box. -/
def partTexts : List (Text × Picture) → List Text
  | [] => []
  | (caption, p) :: parts => (caption ++ Store.indent p.text) :: partTexts parts

end

theorem partTexts_eq (parts : List (Text × Picture)) :
    partTexts parts = parts.map fun part => part.1 ++ Store.indent part.2.text := by
  induction parts with
  | nil => rfl
  | cons part parts ih => rw [partTexts, ih, List.map_cons]

/-- A picture that is met in another one, with the containers whose boxes it stands in. -/
inductive Occurs : Picture → List Item → Picture → Prop
  | here (p : Picture) : Occurs p [] p
  | inside {c : Item} {parts : List (Text × Picture)} {part : Text × Picture}
    {around : List Item} {node : Picture} (hpart : part ∈ parts)
    (h : Occurs part.2 around node) : Occurs (.box c parts) (c :: around) node

/-- A container is left out exactly where it stands inside a box of its own. -/
structure ElidesExactly (p : Picture) : Prop where
  again : ∀ {around c}, p.Occurs around (.again c) → c ∈ around
  box : ∀ {around c parts}, p.Occurs around (.box c parts) → c ∉ around

/-- Nothing is left out. -/
def Full (p : Picture) : Prop := ∀ around c, ¬ p.Occurs around (.again c)

end Picture

namespace Store

/-- The frame that a frame extends. A parent that is not older is no part of a chain. -/
def elder? (s : Store) (id : Nat) : Option Nat := (s.parent? id).filter (· < id)

/-- What is in a container, each with what stands before it. -/
def contents (s : Store) : Value → List (Text × Value)
  | .array id => (s.elements id).toList.map fun v => ("", v)
  | .object id => (s.members id).entries.map fun entry => (entry.1 ++ " : ", entry.2)
  | _ => []

/-- The parts of an item, each with what stands before it. -/
def parts (s : Store) : Item → List (Text × Item)
  | .value v => (s.contents v).map fun part => (part.1, .value part.2)
  | .frame id =>
    (s.elder? id).toList.map (fun parent => (("__PARENT__ : " : Text), Item.frame parent)) ++
      (s.bindings id).entries.map fun (entry : Text × Value) =>
        (entry.1 ++ " : ",
          if entry.1 = "GLOBAL" ∨ entry.1 = "UPSCOPE" then Item.mark ("<" ++ entry.1 ++ ">")
          else .value entry.2)
  | .mark _ => []

/-- The second item is a part of the first. -/
def Inside (s : Store) (i j : Item) : Prop := ∃ caption, (caption, j) ∈ s.parts i

mutual

/-- A picture of an item, with any containers left out. -/
inductive Shows (s : Store) : Item → Picture → Prop
  | leaf {i : Item} {t : Text} (h : i.label? = some t) : Shows s i (.leaf t)
  | again {i : Item} (h : i.label? = none) : Shows s i (.again i)
  | box {i : Item} {parts : List (Text × Picture)} (h : i.label? = none)
    (hparts : ShowsAll s (s.parts i) parts) : Shows s i (.box i parts)

/-- Pictures of parts, each with what stands before it. -/
inductive ShowsAll (s : Store) : List (Text × Item) → List (Text × Picture) → Prop
  | nil : ShowsAll s [] []
  | cons {i : Item} {p : Picture} {items : List (Text × Item)} {parts : List (Text × Picture)}
    (caption : Text) (h : Shows s i p) (hrest : ShowsAll s items parts) :
    ShowsAll s ((caption, i) :: items) ((caption, p) :: parts)

end

end Store

/-! ## Trees -/

namespace Picture

theorem text_box (c : Item) (parts : List (Text × Picture)) :
    text (.box c parts) = c.enclose (parts.map fun part => part.1 ++ Store.indent part.2.text) := by
  rw [text, partTexts_eq]

theorem sizeOf_lt_of_mem {c : Item} {parts : List (Text × Picture)} {part : Text × Picture}
    (h : part ∈ parts) : sizeOf part.2 < sizeOf (box c parts) := by
  have hlt := List.sizeOf_lt_of_mem h
  obtain ⟨caption, p⟩ := part
  rw [Prod.mk.sizeOf_spec] at hlt
  rw [box.sizeOf_spec]
  show sizeOf p < _
  omega

/-- Within containers of which some may be around the whole picture. -/
structure ElidesWithin (above : List Item) (p : Picture) : Prop where
  again : ∀ {around c}, p.Occurs around (.again c) → c ∈ around ++ above
  box : ∀ {around c parts}, p.Occurs around (.box c parts) → c ∉ around ++ above

theorem elidesExactly_iff {p : Picture} : p.ElidesExactly ↔ p.ElidesWithin [] := by
  constructor
  · intro h
    exact ⟨fun ho => by simpa using h.again ho, fun ho => by simpa using h.box ho⟩
  · intro h
    exact ⟨fun ho => by simpa using h.again ho, fun ho => by simpa using h.box ho⟩

variable {above : List Item} {c : Item} {parts : List (Text × Picture)}

theorem elidesWithin_leaf (t : Text) : (leaf t).ElidesWithin above :=
  ⟨nofun, nofun⟩

theorem elidesWithin_again : (again c).ElidesWithin above ↔ c ∈ above := by
  constructor
  · intro h
    exact h.again (.here _)
  · intro h
    refine ⟨?_, nofun⟩
    rintro around d (_ | _)
    exact h

theorem elidesWithin_box :
    (box c parts).ElidesWithin above ↔
      c ∉ above ∧ ∀ part ∈ parts, part.2.ElidesWithin (c :: above) := by
  -- the order of the containers around is of no account
  have hmem (d : Item) (around : List Item) :
      d ∈ (c :: around) ++ above ↔ d ∈ around ++ c :: above := by
    simp only [List.mem_append, List.mem_cons]
    tauto
  constructor
  · intro h
    refine ⟨h.box (.here _), fun part hpart => ⟨?_, ?_⟩⟩
    · intro around d ho
      exact (hmem d around).mp (h.again (.inside hpart ho))
    · intro around d parts' ho
      exact mt (hmem d around).mpr (h.box (.inside hpart ho))
  · rintro ⟨hnew, hparts⟩
    refine ⟨?_, ?_⟩
    · rintro around d (_ | ⟨hpart, ho⟩)
      exact (hmem d _).mpr ((hparts _ hpart).again ho)
    · rintro around d parts' (_ | ⟨hpart, ho⟩)
      · exact hnew
      · exact mt (hmem d _).mp ((hparts _ hpart).box ho)

theorem Full.of_mem (h : (box c parts).Full) {part : Text × Picture} (hpart : part ∈ parts) :
    part.2.Full :=
  fun around d ho => h (c :: around) d (.inside hpart ho)

end Picture

namespace Store

variable {s : Store}

/-! ## Pictures of parts -/

namespace ShowsAll

variable {items : List (Text × Item)} {parts : List (Text × Picture)}

/-- There are pictures of parts if there is one of each. -/
theorem exists_of_forall {P : Text × Item → Picture → Prop}
    (h : ∀ part ∈ items, ∃ p, s.Shows part.2 p ∧ P part p) :
    ∃ parts, s.ShowsAll items parts ∧
      List.Forall₂ (fun part shown => part.1 = shown.1 ∧ P part shown.2) items parts := by
  induction items with
  | nil => exact ⟨[], .nil, .nil⟩
  | cons part items ih =>
    obtain ⟨⟨p, hp, hP⟩, hitems⟩ := List.forall_mem_cons.mp h
    obtain ⟨parts, hparts, hPs⟩ := ih hitems
    exact ⟨(part.1, p) :: parts, .cons part.1 hp hparts, .cons ⟨rfl, hP⟩ hPs⟩

theorem exists_item (h : s.ShowsAll items parts) {shown : Text × Picture}
    (hshown : shown ∈ parts) : ∃ i, (shown.1, i) ∈ items ∧ s.Shows i shown.2 := by
  induction parts generalizing items with
  | nil => cases hshown
  | cons _ parts ih =>
    obtain _ | ⟨caption, hi, hrest⟩ := h
    rcases List.mem_cons.mp hshown with rfl | hmem
    · exact ⟨_, List.mem_cons_self, hi⟩
    · obtain ⟨i, hin, hi⟩ := ih hrest hmem
      exact ⟨i, List.mem_cons_of_mem _ hin, hi⟩

theorem exists_picture (h : s.ShowsAll items parts) {part : Text × Item} (hpart : part ∈ items) :
    ∃ shown ∈ parts, s.Shows part.2 shown.2 := by
  induction items generalizing parts with
  | nil => cases hpart
  | cons _ items ih =>
    obtain _ | ⟨caption, hi, hrest⟩ := h
    rcases List.mem_cons.mp hpart with rfl | hmem
    · exact ⟨_, List.mem_cons_self, hi⟩
    · obtain ⟨shown, hin, hi⟩ := ih hrest hmem
      exact ⟨shown, List.mem_cons_of_mem _ hin, hi⟩

theorem unique {parts' : List (Text × Picture)} (h : s.ShowsAll items parts)
    (h' : s.ShowsAll items parts')
    (hone : ∀ shown ∈ parts, ∀ shown' ∈ parts', ∀ i, s.Shows i shown.2 → s.Shows i shown'.2 →
      shown.2 = shown'.2) : parts = parts' := by
  induction items generalizing parts parts' with
  | nil =>
    cases h
    cases h'
    rfl
  | cons _ items ih =>
    obtain _ | ⟨caption, hi, hrest⟩ := h
    obtain _ | ⟨_, hi', hrest'⟩ := h'
    have hhead := hone _ List.mem_cons_self _ List.mem_cons_self _ hi hi'
    have htail := ih hrest hrest' fun shown hshown shown' hshown' =>
      hone shown (List.mem_cons_of_mem _ hshown) shown' (List.mem_cons_of_mem _ hshown')
    exact congrArg₂ (fun p rest => (caption, p) :: rest) hhead htail

end ShowsAll

/-- An item has one picture at most that leaves out what it must and no more. -/
theorem Shows.unique {i : Item} {above : List Item} {p q : Picture} (hp : s.Shows i p)
    (hpe : p.ElidesWithin above) (hq : s.Shows i q) (hqe : q.ElidesWithin above) : p = q := by
  induction hsize : sizeOf p using Nat.strongRecOn generalizing i above p q with
  | ind size ih =>
    subst hsize
    cases hp with
    | leaf h =>
      cases hq with
      | leaf h' => rw [Option.some.inj (h.symm.trans h')]
      | again h' => cases h.symm.trans h'
      | box h' hparts' => cases h.symm.trans h'
    | again h =>
      cases hq with
      | leaf h' => cases h.symm.trans h'
      | again h' => rfl
      | box h' hparts' =>
        have hnew := (Picture.elidesWithin_box.mp hqe).1
        exact absurd (Picture.elidesWithin_again.mp hpe) hnew
    | box h hparts =>
      obtain ⟨hnew, hbelow⟩ := Picture.elidesWithin_box.mp hpe
      cases hq with
      | leaf h' => cases h.symm.trans h'
      | again h' => exact absurd (Picture.elidesWithin_again.mp hqe) hnew
      | box h' hparts' =>
        have hbelow' := (Picture.elidesWithin_box.mp hqe).2
        refine congrArg (Picture.box i) (hparts.unique hparts' ?_)
        intro shown hshown shown' hshown' j hj hj'
        exact ih _ (Picture.sizeOf_lt_of_mem hshown) hj (hbelow shown hshown) hj'
          (hbelow' shown' hshown') rfl

/-! ## Pictures of renderings -/

/-- The text of a part, if it is a value one that stands within `path`. -/
def itemText (s : Store) (budget : Nat) (path : List Value) : Item → Text
  | .value v => s.render budget path v
  | .frame id => s.renderFrame id
  | .mark t => t

/-- A container has a picture if all its parts have. -/
theorem exists_box {i : Item} (hlabel : i.label? = none) {above : List Item} (hnew : i ∉ above)
    {f : Item → Text}
    (h : ∀ part ∈ s.parts i,
      ∃ p, s.Shows part.2 p ∧ p.ElidesWithin (i :: above) ∧ p.text = f part.2) :
    ∃ p, s.Shows i p ∧ p.ElidesWithin above ∧
      p.text = i.enclose ((s.parts i).map fun part => part.1 ++ indent (f part.2)) := by
  obtain ⟨parts, hshows, hparts⟩ := ShowsAll.exists_of_forall h
  refine ⟨.box i parts, .box hlabel hshows, Picture.elidesWithin_box.mpr ⟨hnew, ?_⟩, ?_⟩
  · intro shown hshown
    obtain ⟨part, -, -, helides, -⟩ := exists_of_forall₂ hparts.flip hshown
    exact helides
  · rw [Picture.text_box]
    refine congrArg (fun texts => i.enclose texts) ?_
    rw [← List.forall₂_eq_eq_eq, List.forall₂_map_left_iff, List.forall₂_map_right_iff]
    refine hparts.flip.imp ?_
    rintro shown part ⟨hcaption, -, htext⟩
    rw [hcaption, htext]

section Values

variable {budget : Nat} {path : List Value} {v : Value}

theorem render_of_label {t : Text} (h : (Item.value v).label? = some t) :
    s.render budget path v = t := by
  cases v with
  | array id => cases h
  | object id => cases h
  | _ =>
    obtain rfl := Option.some.inj h
    cases budget <;> rfl

theorem render_of_mem (h : (Item.value v).label? = none) (hin : v ∈ path)
    (hcontents : s.contents v ≠ []) :
    s.render (budget + 1) path v = (Item.value v).elision := by
  cases v with
  | array id => exact render_array_inside budget (by simpa [contents] using hcontents) hin
  | object id => exact render_object_inside budget hin
  | _ => cases h

theorem render_of_not_mem (h : (Item.value v).label? = none) (hnew : v ∉ path) :
    s.render (budget + 1) path v =
      (Item.value v).enclose ((s.parts (.value v)).map fun part =>
        part.1 ++ indent (s.itemText budget (v :: path) part.2)) := by
  cases v with
  | array id =>
    by_cases hnil : (s.elements id).toList = []
    · rw [render_array_empty budget hnil, parts, contents, hnil]
      rfl
    · rw [render_array budget hnil hnew, parts, contents, List.map_map, List.map_map]
      refine congrArg bracketed (List.map_congr_left fun u _ => ?_)
      exact (Text.empty_append _).symm
  | object id =>
    rw [render_object budget hnew, parts, contents, List.map_map, List.map_map]
    rfl
  | _ => cases h

theorem mem_containerList_of_contents (h : s.contents v ≠ []) : v ∈ s.containerList := by
  cases v with
  | array id => exact array_mem_containerList (by simpa [contents] using h)
  | object id =>
    obtain ⟨part, hpart⟩ := List.exists_mem_of_ne_nil _ h
    obtain ⟨entry, hentry, -⟩ := List.mem_map.mp hpart
    exact object_mem_containerList (Members.mem_vals_of_mem_entries hentry)
  | _ => exact absurd rfl h

/-- A rendering is the text of a picture. The path has the containers above that are values. -/
theorem exists_shows_value {above : List Item} (hpath : s.IsPath path)
    (hcontents : ∀ c ∈ path, s.contents c ≠ []) (hbudget : s.containers < path.length + budget)
    (habove : ∀ c, .value c ∈ above ↔ c ∈ path) :
    ∃ p, s.Shows (.value v) p ∧ p.ElidesWithin above ∧ p.text = s.render budget path v := by
  induction budget generalizing path above v with
  | zero =>
    have hle := hpath.length_le
    omega
  | succ budget ih =>
    cases hlabel : (Item.value v).label? with
    | some t =>
      exact ⟨.leaf t, .leaf hlabel, Picture.elidesWithin_leaf t, (render_of_label hlabel).symm⟩
    | none =>
      by_cases hin : v ∈ path
      · have helides := Picture.elidesWithin_again.mpr ((habove v).mpr hin)
        exact ⟨.again (.value v), .again hlabel, helides,
          (render_of_mem hlabel hin (hcontents v hin)).symm⟩
      · rw [render_of_not_mem hlabel hin]
        refine exists_box hlabel (mt (habove v).mp hin) ?_
        intro part hpart
        obtain ⟨⟨caption, u⟩, hu, rfl⟩ := List.mem_map.mp hpart
        have hne := List.ne_nil_of_mem hu
        refine ih (hpath.cons (mem_containerList_of_contents hne) hin)
          (List.forall_mem_cons.mpr ⟨hne, hcontents⟩) ?_ ?_
        · rw [List.length_cons]
          omega
        · intro c
          rw [List.mem_cons, List.mem_cons, habove c, Item.value.injEq]

/-- A value that is no part of another one. -/
theorem exists_shows_encoded {above : List Item} (habove : ∀ c, .value c ∉ above) :
    ∃ p, s.Shows (.value v) p ∧ p.ElidesWithin above ∧ p.text = s.encoded v := by
  refine exists_shows_value .nil nofun ?_ ?_
  · rw [List.length_nil]
    omega
  · intro c
    exact iff_of_false (habove c) List.not_mem_nil

end Values

section Frames

/-- The names that are not followed have marks of one line. -/
theorem indent_mark {name : Text} (h : name = "GLOBAL" ∨ name = "UPSCOPE") :
    name ++ " : <" ++ name ++ ">" = name ++ " : " ++ indent ("<" ++ name ++ ">") := by
  rcases h with rfl | rfl
  · decide +kernel
  · decide +kernel

theorem renderFrame_eq_braced (s : Store) (id : Nat) :
    s.renderFrame id =
      braced ((s.parts (.frame id)).map fun part =>
        part.1 ++ indent (s.itemText (s.containers + 1) [] part.2)) := by
  rw [renderFrame, parts, elder?, parent?, bindings]
  cases hf : s.frames[id]? with
  | none => rfl
  | some frame =>
    simp only [List.map_append, List.map_map]
    refine congrArg braced (congrArg₂ _ ?_ (List.map_congr_left fun entry _ => ?_))
    · cases frame.parent with
      | none => rfl
      | some parent =>
        by_cases hlt : parent < id
        · simp [Option.filter, hlt, itemText]
        · simp [Option.filter, hlt]
    · obtain ⟨name, v⟩ := entry
      by_cases hname : name = "GLOBAL" ∨ name = "UPSCOPE"
      · simp only [Function.comp, if_pos hname]
        exact indent_mark hname
      · simp only [Function.comp, if_neg hname]
        rfl

/-- The text of a frame is that of a picture, inside of the frames that extend it. -/
theorem exists_shows_frame (s : Store) (id : Nat) {above : List Item}
    (habove : ∀ i ∈ above, ∃ child, i = .frame child ∧ id < child) :
    ∃ p, s.Shows (.frame id) p ∧ p.ElidesWithin above ∧ p.text = s.renderFrame id := by
  induction id using Nat.strongRecOn generalizing above with
  | ind id ih =>
    have hnew : .frame id ∉ above := by
      intro hin
      obtain ⟨child, heq, hlt⟩ := habove _ hin
      cases heq
      exact Nat.lt_irrefl _ hlt
    rw [renderFrame_eq_braced]
    refine exists_box rfl hnew ?_
    intro part hpart
    rcases List.mem_append.mp hpart with hparent | hentry
    · obtain ⟨parent, hmem, rfl⟩ := List.mem_map.mp hparent
      have hlt : parent < id := by
        simpa using (Option.filter_eq_some_iff.mp (Option.mem_toList.mp hmem)).2
      refine ih parent hlt (List.forall_mem_cons.mpr ⟨⟨id, rfl, hlt⟩, ?_⟩)
      intro i hi
      obtain ⟨child, rfl, hchild⟩ := habove i hi
      exact ⟨child, rfl, hlt.trans hchild⟩
    · obtain ⟨⟨name, v⟩, -, rfl⟩ := List.mem_map.mp hentry
      by_cases hname : name = "GLOBAL" ∨ name = "UPSCOPE"
      · simp only [if_pos hname]
        exact ⟨.leaf _, .leaf rfl, Picture.elidesWithin_leaf _, rfl⟩
      · simp only [if_neg hname]
        refine exists_shows_encoded fun c hc => ?_
        rcases List.mem_cons.mp hc with heq | hin
        · cases heq
        · obtain ⟨child, heq, -⟩ := habove _ hin
          cases heq

/-- The text of every value is that of a picture. -/
theorem exists_shows_whole (s : Store) (v : Value) :
    ∃ p, s.Shows (.whole v) p ∧ p.ElidesExactly ∧ s.repr v = p.text := by
  have hpicture :
      ∃ p, s.Shows (.whole v) p ∧ p.ElidesWithin [] ∧ p.text = s.repr v := by
    cases v with
    | scope id => exact s.exists_shows_frame id nofun
    | _ => exact exists_shows_encoded fun _ => List.not_mem_nil
  obtain ⟨p, hshows, helides, htext⟩ := hpicture
  exact ⟨p, hshows, Picture.elidesExactly_iff.mpr helides, htext.symm⟩

end Frames

/-! ## Cycles -/

section Cycles

open Relation

variable {i j : Item} {p : Picture}

/-- What is met in a picture of an item is a picture of what can be reached from the item, and from
    the containers around it. -/
theorem Shows.reaches {around : List Item} {node : Picture} (h : s.Shows i p)
    (ho : p.Occurs around node) :
    ∃ j, s.Shows j node ∧ ReflTransGen s.Inside i j ∧
      ∀ c ∈ around, ReflTransGen s.Inside i c ∧ TransGen s.Inside c j := by
  induction ho generalizing i with
  | here p => exact ⟨i, h, .refl, nofun⟩
  | @inside c parts part around node hpart _ ih =>
    obtain _ | _ | ⟨-, hparts⟩ := h
    obtain ⟨k, hk, hshows⟩ := hparts.exists_item hpart
    obtain ⟨j, hj, hreach, haround⟩ := ih hshows
    have hstep : s.Inside c k := ⟨part.1, hk⟩
    refine ⟨j, hj, hreach.head hstep, List.forall_mem_cons.mpr ⟨⟨.refl, ?_⟩, ?_⟩⟩
    · exact TransGen.head' hstep hreach
    · intro d hd
      exact ⟨(haround d hd).1.head hstep, (haround d hd).2⟩

theorem parts_of_label {t : Text} (h : i.label? = some t) : s.parts i = [] := by
  cases i with
  | value v =>
    cases v with
    | array id => cases h
    | object id => cases h
    | _ => rfl
  | frame id => cases h
  | mark t => rfl

/-- A full picture of a container has a smaller one of each part in it. -/
theorem Shows.full_inside (h : s.Shows i p) (hfull : p.Full) (hin : s.Inside i j) :
    ∃ q, s.Shows j q ∧ q.Full ∧ sizeOf q < sizeOf p := by
  obtain ⟨caption, hpart⟩ := hin
  cases h with
  | leaf hlabel =>
    rw [parts_of_label hlabel] at hpart
    cases hpart
  | again hlabel => exact absurd (.here _) (hfull [] i)
  | box hlabel hparts =>
    obtain ⟨shown, hshown, hj⟩ := hparts.exists_picture hpart
    exact ⟨shown.2, hj, hfull.of_mem hshown, Picture.sizeOf_lt_of_mem hshown⟩

theorem Shows.full_reaches (h : s.Shows i p) (hfull : p.Full) (hreach : ReflTransGen s.Inside i j) :
    ∃ q, s.Shows j q ∧ q.Full := by
  induction hreach with
  | refl => exact ⟨p, h, hfull⟩
  | tail _ hin ih =>
    obtain ⟨q, hq, hqfull⟩ := ih
    obtain ⟨r, hr, hrfull, -⟩ := hq.full_inside hqfull hin
    exact ⟨r, hr, hrfull⟩

theorem Shows.full_reaches_smaller (h : s.Shows i p) (hfull : p.Full)
    (hreach : TransGen s.Inside i j) : ∃ q, s.Shows j q ∧ q.Full ∧ sizeOf q < sizeOf p := by
  induction hreach with
  | single hin => exact h.full_inside hfull hin
  | tail _ hin ih =>
    obtain ⟨q, hq, hqfull, hlt⟩ := ih
    obtain ⟨r, hr, hrfull, hlt'⟩ := hq.full_inside hqfull hin
    exact ⟨r, hr, hrfull, hlt'.trans hlt⟩

/-- No container with a full picture is part of itself, since it would have smaller and smaller
    ones. -/
theorem Shows.not_cyclic (h : s.Shows i p) (hfull : p.Full) : ¬ TransGen s.Inside i i := by
  intro hcycle
  induction hsize : sizeOf p using Nat.strongRecOn generalizing p with
  | ind size ih =>
    obtain ⟨q, hq, hqfull, hlt⟩ := h.full_reaches_smaller hfull hcycle
    exact ih (sizeOf q) (hsize ▸ hlt) hq hqfull rfl

/-- Nothing is left out exactly if nothing that can be reached is part of itself. -/
theorem Shows.full_iff (h : s.Shows i p) (helides : p.ElidesExactly) :
    p.Full ↔ ∀ c, ReflTransGen s.Inside i c → ¬ TransGen s.Inside c c := by
  constructor
  · intro hfull c hreach
    obtain ⟨q, hq, hqfull⟩ := h.full_reaches hfull hreach
    exact hq.not_cyclic hqfull
  · intro hacyclic around c ho
    obtain ⟨j, hj, -, haround⟩ := h.reaches ho
    obtain _ | _ | _ := hj
    obtain ⟨hreach, hcycle⟩ := haround c (helides.again ho)
    exact hacyclic c hreach hcycle

end Cycles

/-- Every value of every store has one picture in which a container is left out exactly where it
    stands inside a box of its own, and its text is that of the picture; a text by itself is not
    quoted. Nothing is left out of the picture, so that containers are written out wherever they
    stand, exactly if no container that can be reached from the value is reached from itself. -/
theorem repr_picture (s : Store) (v : Value) :
    ∃ p : Picture, (∀ q, s.Shows (.whole v) q ∧ q.ElidesExactly ↔ q = p) ∧
      s.repr v = p.text ∧ (s.text v = p.text ∨ ∃ t, v = .text t ∧ s.text v = t) ∧
      (p.Full ↔ ∀ c, Relation.ReflTransGen s.Inside (.whole v) c →
        ¬ Relation.TransGen s.Inside c c) := by
  obtain ⟨p, hshows, helides, htext⟩ := s.exists_shows_whole v
  refine ⟨p, fun q => ⟨?_, ?_⟩, htext, ?_, hshows.full_iff helides⟩
  · rintro ⟨hq, hqe⟩
    exact hq.unique (Picture.elidesExactly_iff.mp hqe) hshows (Picture.elidesExactly_iff.mp helides)
  · rintro rfl
    exact ⟨hshows, helides⟩
  · cases v with
    | text t => exact .inr ⟨t, rfl, rfl⟩
    | _ => exact .inl htext

/-- An array that is shared is written out twice, one that is around is left out. -/
example :
    ({ arrays := #[#[.array 1, .array 1, .array 0], #[.int 2]] } : Store).repr (.array 0) =
      "[\n  [\n    2\n  ],\n  [\n    2\n  ],\n  [...]\n]" := by
  decide +kernel

end Store

end ExprLang
