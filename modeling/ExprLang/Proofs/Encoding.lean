import ExprLang.Cbor.Writer
import ExprLang.Json.Writer
import ExprLang.Proofs.PlainData
import ExprLang.Proofs.Results
import Mathlib.Logic.Relation

/-!
# Values that can be written to documents

The JSON writer and the plain form that the CBOR writer starts from go down the containers of a
value each in its own way, and both refuse a container that is already on the path they came by.
`Store.encode_iff_encodable` says of every value of every store that both succeed exactly if nothing
below the value holds itself and there is no function and no scope among it, and that otherwise they
fail with the same error.
-/

namespace ExprLang

/-- Whether a value is neither a function nor a scope. -/
def Value.isPlain : Value → Bool
  | .function _ | .scope _ => false
  | _ => true

namespace Store

open Relation (ReflTransGen TransGen)

/-- A value is an element of an array, or a member of an object. -/
inductive Part (s : Store) : Value → Value → Prop
  | element {id : Nat} {v : Value} (h : v ∈ (s.elements id).toList) : Part s (.array id) v
  | member {id : Nat} {key : Text} {v : Value} (h : (key, v) ∈ (s.members id).entries) :
    Part s (.object id) v

/-- Nothing that a value reaches reaches itself, or is a function or a scope. -/
def Encodable (s : Store) (v : Value) : Prop :=
  ∀ w, ReflTransGen s.Part v w → ¬ TransGen s.Part w w ∧ w.isPlain = true

/-- A value can be written inside the containers of a path: it does not lead back to them. -/
def Clear (s : Store) (path : List Value) (v : Value) : Prop :=
  ∀ w, ReflTransGen s.Part v w → w ∉ path ∧ ¬ TransGen s.Part w w ∧ w.isPlain = true

variable {s : Store} {path : List Value} {v : Value}

/-- What a writer finds out of a value, one container at a time. -/
theorem clear_iff :
    s.Clear path v ↔ v ∉ path ∧ v.isPlain = true ∧ ∀ w, s.Part v w → s.Clear (v :: path) w := by
  constructor
  · intro h
    obtain ⟨hnew, hacyclic, hplain⟩ := h v .refl
    refine ⟨hnew, hplain, ?_⟩
    intro w hw u hu
    obtain ⟨hnew', hacyclic', hplain'⟩ := h u (.head hw hu)
    refine ⟨?_, hacyclic', hplain'⟩
    -- a way back to the value would be a circle
    rw [List.mem_cons, not_or]
    refine ⟨?_, hnew'⟩
    rintro rfl
    exact hacyclic (.head' hw hu)
  · rintro ⟨hnew, hplain, hparts⟩ u hu
    rcases hu.cases_head with rfl | ⟨w, hw, hwu⟩
    · refine ⟨hnew, ?_, hplain⟩
      intro hcircle
      obtain ⟨w, hw, hwv⟩ := TransGen.head'_iff.mp hcircle
      exact (hparts w hw _ hwv).1 List.mem_cons_self
    · obtain ⟨hnew', hacyclic', hplain'⟩ := hparts w hw u hwu
      exact ⟨fun hu => hnew' (List.mem_cons_of_mem _ hu), hacyclic', hplain'⟩

theorem encodable_iff_clear : s.Encodable v ↔ s.Clear [] v := by
  simp only [Encodable, Clear, List.not_mem_nil, not_false_eq_true, true_and]

/-- What is no container is on no path and has no parts. -/
theorem IsPath.clear_leaf (hpath : s.IsPath path) (hplain : v.isPlain = true)
    (hcell : v ∉ s.containerList) (hparts : ∀ w, ¬ s.Part v w) : s.Clear path v := by
  rw [clear_iff]
  exact ⟨fun hin => hcell (hpath.mem v hin), hplain, fun w hw => absurd hw (hparts w)⟩

/-! ## Results for every item -/

section Collect

variable {α β γ : Type} {f : α → Except Cause β}

theorem exists_collect_eq_ok {l : List α} :
    (∃ bs, collect f l = .ok bs) ↔ ∀ a ∈ l, ∃ b, f a = .ok b := by
  induction l with
  | nil => simp [collect]
  | cons a l ih =>
    rw [List.forall_mem_cons, ← ih, collect]
    cases f a with
    | error cause => simp
    | ok b =>
      cases collect f l with
      | error cause => simp
      | ok bs => simp

theorem exists_of_collect_eq_error {l : List α} {cause : Cause}
    (h : collect f l = .error cause) : ∃ a ∈ l, f a = .error cause := by
  induction l with
  | nil => cases h
  | cons a l ih =>
    rw [collect] at h
    cases ha : f a with
    | error cause' =>
      rw [ha] at h
      cases h
      exact ⟨a, List.mem_cons_self, ha⟩
    | ok b =>
      rw [ha] at h
      cases hl : collect f l with
      | error cause' =>
        rw [hl] at h
        cases h
        obtain ⟨a', hmem, ha'⟩ := ih hl
        exact ⟨a', List.mem_cons_of_mem _ hmem, ha'⟩
      | ok bs =>
        rw [hl] at h
        cases h

theorem collect_of_forall₂ {l : List α} {bs : List β}
    (h : List.Forall₂ (fun a b => f a = .ok b) l bs) : collect f l = .ok bs := by
  induction h with
  | nil => rfl
  | cons hab _ ih => rw [collect, hab, ih]

/-- Results that are worked on afterwards may as well be worked on at once. -/
theorem collect_map (g : β → γ) (l : List α) :
    collect (fun a => (f a).map g) l = (collect f l).map (List.map g) := by
  induction l with
  | nil => rfl
  | cons a l ih =>
    rw [collect, collect, ih]
    cases f a with
    | error cause => rfl
    | ok b =>
      cases collect f l with
      | error cause => rfl
      | ok bs => rfl

end Collect

/-! ## The plain form -/

section Data

variable {id budget : Nat}

theorem dataWithin_array_inside (hin : .array id ∈ path) :
    s.dataWithin (budget + 1) path (.array id) = .error (.selfReferential .array) := by
  rw [dataWithin, if_pos (by simpa using hin)]
  rfl

theorem dataWithin_object_inside (hin : .object id ∈ path) :
    s.dataWithin (budget + 1) path (.object id) = .error (.selfReferential .object) := by
  rw [dataWithin, if_pos (by simpa using hin)]
  rfl

theorem dataWithin_array (hnew : .array id ∉ path) :
    s.dataWithin (budget + 1) path (.array id) =
      (collect (s.dataWithin budget (.array id :: path)) (s.elements id).toList).map .list := by
  rw [dataWithin, if_neg (by simpa using hnew)]

/-- A member in plain form. -/
def memberWithin (s : Store) (budget : Nat) (path : List Value) (entry : Text × Value) :
    Except Cause (Text × Data) :=
  (s.dataWithin budget path entry.2).map (Prod.mk entry.1)

theorem dataWithin_object (hnew : .object id ∉ path) :
    s.dataWithin (budget + 1) path (.object id) =
      (collect (s.memberWithin budget (.object id :: path)) (s.members id).entries).map .map := by
  rw [dataWithin, if_neg (by simpa using hnew)]
  rfl

/-- The plain form exists exactly if the path is clear. -/
theorem exists_dataWithin_iff (hpath : s.IsPath path)
    (hbudget : s.containers < path.length + budget) :
    (∃ d, s.dataWithin budget path v = .ok d) ↔ s.Clear path v := by
  induction budget generalizing path v with
  | zero =>
    have hle := hpath.length_le
    omega
  | succ budget ih =>
    -- one container further down, if it has something in it
    have down {u w : Value} (hin : u ∈ s.containerList) (hnew : u ∉ path) :
        (∃ d, s.dataWithin budget (u :: path) w = .ok d) ↔ s.Clear (u :: path) w := by
      apply ih (hpath.cons hin hnew)
      rw [List.length_cons]
      omega
    have leaf {d : Data} (hplain : v.isPlain = true) (hcell : v ∉ s.containerList)
        (hparts : ∀ w, ¬ s.Part v w) (hd : s.dataWithin (budget + 1) path v = .ok d) :
        (∃ d, s.dataWithin (budget + 1) path v = .ok d) ↔ s.Clear path v :=
      iff_of_true ⟨d, hd⟩ (hpath.clear_leaf hplain hcell hparts)
    cases v with
    | int n => exact leaf rfl (by simp [containerList]) (by rintro w ⟨⟩) rfl
    | double x => exact leaf rfl (by simp [containerList]) (by rintro w ⟨⟩) rfl
    | text t => exact leaf rfl (by simp [containerList]) (by rintro w ⟨⟩) rfl
    | function f | scope f =>
      rw [clear_iff, dataWithin]
      simp [Value.isPlain]
    | array id =>
      rw [clear_iff]
      by_cases hin : .array id ∈ path
      · simp [dataWithin_array_inside hin, hin]
      · rw [dataWithin_array hin, exists_map_eq_ok, exists_collect_eq_ok]
        constructor
        · intro h
          refine ⟨hin, rfl, ?_⟩
          rintro w ⟨hw⟩
          exact (down (array_mem_containerList (List.ne_nil_of_mem hw)) hin).mp (h w hw)
        · rintro ⟨-, -, h⟩ w hw
          exact (down (array_mem_containerList (List.ne_nil_of_mem hw)) hin).mpr (h w (.element hw))
    | object id =>
      rw [clear_iff]
      by_cases hin : .object id ∈ path
      · simp [dataWithin_object_inside hin, hin]
      · rw [dataWithin_object hin, exists_map_eq_ok, exists_collect_eq_ok]
        simp only [memberWithin, exists_map_eq_ok]
        constructor
        · intro h
          refine ⟨hin, rfl, ?_⟩
          intro w hw
          cases hw with
          | member hw =>
            have hcell := object_mem_containerList (Members.mem_vals_of_mem_entries hw)
            exact (down hcell hin).mp (h _ hw)
        · rintro ⟨-, -, h⟩ entry hentry
          have hcell := object_mem_containerList (Members.mem_vals_of_mem_entries hentry)
          exact (down hcell hin).mpr (h entry.2 (.member hentry))

theorem exists_data_iff : (∃ d, s.data v = .ok d) ↔ s.Encodable v := by
  rw [encodable_iff_clear, data]
  apply exists_dataWithin_iff .nil
  rw [List.length_nil]
  omega

/-- Values without a plain form are errors of a program that runs. -/
theorem reason_of_dataWithin {cause : Cause} (h : s.dataWithin budget path v = .error cause) :
    cause.reason = .runtime := by
  induction budget generalizing path v with
  | zero =>
    cases v with
    | int n | double n | text n => cases h
    | function f | scope f | array f | object f =>
      cases h
      rfl
  | succ budget ih =>
    cases v with
    | int n | double n | text n => cases h
    | function f | scope f =>
      cases h
      rfl
    | array id =>
      by_cases hin : .array id ∈ path
      · rw [dataWithin_array_inside hin] at h
        cases h
        rfl
      · rw [dataWithin_array hin, map_eq_error] at h
        obtain ⟨w, -, hw⟩ := exists_of_collect_eq_error h
        exact ih hw
    | object id =>
      by_cases hin : .object id ∈ path
      · rw [dataWithin_object_inside hin] at h
        cases h
        rfl
      · rw [dataWithin_object hin, map_eq_error] at h
        obtain ⟨entry, -, hentry⟩ := exists_of_collect_eq_error h
        exact ih (map_eq_error.mp hentry)

/-- A value that unfolds into data has that data as its plain form. -/
theorem Holds.dataWithin_eq {d : Data} (h : s.Holds v d) (hpath : s.IsPath path)
    (hbudget : s.containers < path.length + budget) (habove : s.Above path d) :
    s.dataWithin budget path v = .ok d := by
  induction d using Data.induct generalizing v budget path with
  | int n =>
    cases h
    rw [dataWithin]
  | double x => cases h
  | text t =>
    cases h
    rw [dataWithin]
  | list items ih =>
    have hnew := h.notMem_of_above habove
    have hcons (item : Data) (hitem : item ∈ items) : s.Above (v :: path) item :=
      h.above_cons habove (Data.sizeOf_lt_of_mem_list hitem)
    obtain ⟨budget, rfl⟩ := hpath.exists_succ hbudget
    have hbudget' : s.containers < (v :: path).length + budget := by
      rw [List.length_cons]
      omega
    cases h with
    | array hcell hitems =>
      have hpath' := hpath.cons (array_mem_of_cell hcell) hnew
      have hcollected := collect_of_forall₂ (forall₂_imp_of_mem hitems fun item hitem w hw =>
        ih item hitem hw hpath' hbudget' (hcons item hitem))
      rw [dataWithin_array hnew, elements_eq hcell, hcollected]
      rfl
  | map entries ih =>
    have hnew := h.notMem_of_above habove
    have hcons (item : Data) (hitem : item ∈ entries.map Prod.snd) : s.Above (v :: path) item :=
      h.above_cons habove (Data.sizeOf_lt_of_mem_map hitem)
    obtain ⟨budget, rfl⟩ := hpath.exists_succ hbudget
    have hbudget' : s.containers < (v :: path).length + budget := by
      rw [List.length_cons]
      omega
    cases h with
    | @object id members _ hcell hwell hkeys hitems =>
      have hpath' := hpath.cons (object_mem_of_cell hcell) hnew
      have hcollected : collect (s.memberWithin budget (.object id :: path)) members.entries =
          .ok entries := by
        apply collect_of_forall₂
        refine forall₂_imp_of_mem (forall₂_entries hwell hkeys hitems) ?_
        rintro ⟨key, item⟩ hentry ⟨_, w⟩ ⟨rfl, hw⟩
        have hitem : item ∈ entries.map Prod.snd := List.mem_map_of_mem hentry
        rw [memberWithin, ih item hitem hw hpath' hbudget' (hcons item hitem)]
        rfl
      rw [dataWithin_object hnew, members_eq hcell, hcollected]
      rfl

theorem Holds.data_eq {d : Data} (h : s.Holds v d) : s.data v = .ok d := by
  apply h.dataWithin_eq .nil
  · rw [List.length_nil]
    omega
  · exact List.forall_mem_nil _

end Data

end Store

/-! ## The JSON document -/

namespace Json

mutual

/-- The document of plain data. -/
def write : Data → List Char
  | .int n => (toString n.toInt).toList
  | .double x => writeDouble x
  | .text s => writeText s
  | .list items => '[' :: separated (writeItems items) ++ [']']
  | .map entries => '\x7b' :: separated (writeEntries entries) ++ ['\x7d']

/-- The documents of a list's items. -/
def writeItems : List Data → List (List Char)
  | [] => []
  | item :: items => write item :: writeItems items

/-- The members of a map. -/
def writeEntries : List (Text × Data) → List (List Char)
  | [] => []
  | (key, d) :: rest => (writeText key ++ ':' :: write d) :: writeEntries rest

end

theorem writeItems_eq_map (items : List Data) : writeItems items = items.map write := by
  induction items with
  | nil => rfl
  | cons item items ih => rw [writeItems, ih, List.map_cons]

/-- A member of a map. -/
def writeEntry (entry : Text × Data) : List Char := writeText entry.1 ++ ':' :: write entry.2

theorem writeEntries_eq_map (entries : List (Text × Data)) :
    writeEntries entries = entries.map writeEntry := by
  induction entries with
  | nil => rfl
  | cons entry entries ih => rw [writeEntries, ih, List.map_cons, writeEntry]

section Encode

variable {s : Store} {path : List Value} {id budget : Nat}

theorem encodeWithin_array (hnew : .array id ∉ path) :
    encodeWithin s (budget + 1) path (.array id) =
      (Store.collect (encodeWithin s budget (.array id :: path)) (s.elements id).toList).map
        fun items => '[' :: separated items ++ [']'] := by
  rw [encodeWithin, if_neg (by simpa using hnew)]

theorem encodeWithin_object (hnew : .object id ∉ path) :
    encodeWithin s (budget + 1) path (.object id) =
      (Store.collect
        (fun entry => (encodeWithin s budget (.object id :: path) entry.2).map
          fun document => writeText entry.1 ++ ':' :: document) (s.members id).entries).map
        fun members => '\x7b' :: separated members ++ ['\x7d'] := by
  rw [encodeWithin, if_neg (by simpa using hnew)]

theorem map_map {ε α β γ : Type} (x : Except ε α) (f : α → β) (g : β → γ) :
    (x.map f).map g = x.map fun a => g (f a) := by
  cases x with
  | error e => rfl
  | ok a => rfl

/-- Writing a value down is writing its plain form. -/
theorem encodeWithin_eq (v : Value) :
    encodeWithin s budget path v = (s.dataWithin budget path v).map write := by
  induction budget generalizing path v with
  | zero => cases v <;> rfl
  | succ budget ih =>
    cases v with
    | int n | double n | text n | function n | scope n => rfl
    | array id =>
      by_cases hin : .array id ∈ path
      · rw [encodeWithin, if_pos (by simpa using hin), Store.dataWithin_array_inside hin]
        rfl
      · have hitems : encodeWithin s budget (.array id :: path) =
            fun w => (s.dataWithin budget (.array id :: path) w).map write := funext ih
        rw [encodeWithin_array hin, Store.dataWithin_array hin, hitems, Store.collect_map, map_map,
          map_map]
        simp only [write, writeItems_eq_map]
    | object id =>
      by_cases hin : .object id ∈ path
      · rw [encodeWithin, if_pos (by simpa using hin), Store.dataWithin_object_inside hin]
        rfl
      · have hmembers : (fun entry : Text × Value =>
            (encodeWithin s budget (.object id :: path) entry.2).map
              fun document => writeText entry.1 ++ ':' :: document) =
            fun entry => (s.memberWithin budget (.object id :: path) entry).map writeEntry := by
          funext entry
          rw [ih, Store.memberWithin, map_map, map_map]
          rfl
        rw [encodeWithin_object hin, Store.dataWithin_object hin, hmembers, Store.collect_map,
          map_map, map_map]
        simp only [write, writeEntries_eq_map]

theorem encode_eq (v : Value) : encode s v = (s.data v).map fun d => String.ofList (write d) := by
  rw [encode, encodeWithin_eq, map_map, Store.data]

end Encode

end Json

/-- The two kinds of document can be written of the same values, and those are the values that reach
    no function or scope and nothing that reaches itself. For all others the errors are the same. -/
theorem Store.encode_iff_encodable (s : Store) (v : Value) :
    ((∃ document, Json.encode s v = .ok document) ↔ s.Encodable v) ∧
      ((∃ bytes, Cbor.encode s v = .ok bytes) ↔ s.Encodable v) ∧
      ((∃ cause, Json.encode s v = .error cause ∧ Cbor.encode s v = .error cause ∧
        cause.reason = .runtime) ↔ ¬ s.Encodable v) := by
  rw [Json.encode_eq, Cbor.encode, exists_map_eq_ok, exists_map_eq_ok, exists_data_iff]
  refine ⟨Iff.rfl, Iff.rfl, ?_⟩
  simp only [map_eq_error, ← exists_data_iff]
  constructor
  · rintro ⟨cause, hcause, -⟩ ⟨d, hd⟩
    rw [hd] at hcause
    cases hcause
  · intro h
    cases hdata : s.data v with
    | ok d => exact absurd ⟨d, hdata⟩ h
    | error cause => exact ⟨cause, rfl, rfl, reason_of_dataWithin hdata⟩

-- an array that stands twice in another is written twice, one that stands in itself is refused
example : Json.encode { arrays := #[#[.array 1, .array 1], #[.int 7]] } (.array 0) =
    .ok "[[7],[7]]" := by rfl

example : Cbor.encode { arrays := #[#[.array 1], #[.int 7, .array 0]] } (.array 0) =
    .error (.selfReferential .array) := by rfl

end ExprLang
