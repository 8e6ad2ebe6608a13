import ExprLang.Assoc

/-!
# What a list as a map has under its keys

A key is looked up in a list by its first entry. With each key once in the list, the entries are
exactly what is looked up (`Assoc.mem_iff_lookup`), and writing keeps that so.
-/

namespace ExprLang.Assoc

variable {κ α : Type} [DecidableEq κ] {entries : List (κ × α)} {key : κ} {a : α}

theorem mem_keys_iff : key ∈ entries.map Prod.fst ↔ (entries.lookup key).isSome = true := by
  simp [List.lookup_isSome_iff]

theorem lookup_eq_none (h : key ∉ entries.map Prod.fst) : entries.lookup key = none := by
  rw [mem_keys_iff, Bool.not_eq_true, Option.isSome_eq_false_iff, Option.isNone_iff_eq_none] at h
  exact h

theorem mem_of_lookup (h : entries.lookup key = some a) : (key, a) ∈ entries := by
  obtain ⟨before, after, rfl, -⟩ := List.lookup_eq_some_iff.mp h
  simp

theorem mem_iff_lookup (hnodup : (entries.map Prod.fst).Nodup) :
    (key, a) ∈ entries ↔ entries.lookup key = some a := by
  refine ⟨fun h => ?_, mem_of_lookup⟩
  obtain ⟨before, after, rfl⟩ := List.append_of_mem h
  refine List.lookup_eq_some_iff.mpr ⟨before, after, rfl, fun p hp => ?_⟩
  rw [List.map_append, List.map_cons] at hnodup
  have hne := (List.nodup_append.mp hnodup).2.2 p.1 (List.mem_map_of_mem hp) key List.mem_cons_self
  simpa using hne.symm

/-! ## Writing -/

theorem insert_of_mem (h : key ∈ entries.map Prod.fst) (a : α) :
    ∃ before old after, entries = before ++ (key, old) :: after ∧
      key ∉ before.map Prod.fst ∧ insert key a entries = before ++ (key, a) :: after := by
  induction entries with
  | nil => cases h
  | cons entry rest ih =>
    obtain ⟨k, b⟩ := entry
    rw [insert]
    by_cases hk : k = key
    · rw [if_pos hk, hk]
      exact ⟨[], b, rest, rfl, List.not_mem_nil, rfl⟩
    · rw [if_neg hk]
      obtain ⟨before, old, after, rfl, hbefore, hinsert⟩ :=
        ih ((List.mem_cons.mp h).resolve_left (Ne.symm hk))
      refine ⟨(k, b) :: before, old, after, rfl, ?_, by rw [hinsert]; rfl⟩
      exact List.not_mem_cons_of_ne_of_not_mem (Ne.symm hk) hbefore

theorem insert_of_notMem (h : key ∉ entries.map Prod.fst) (a : α) :
    insert key a entries = entries ++ [(key, a)] := by
  induction entries with
  | nil => rfl
  | cons entry rest ih =>
    obtain ⟨k, b⟩ := entry
    obtain ⟨hk, hrest⟩ := List.ne_and_not_mem_of_not_mem_cons h
    rw [insert, if_neg (Ne.symm hk), ih hrest, List.cons_append]

theorem lookup_insert (key : κ) (a : α) (entries : List (κ × α)) (k : κ) :
    (insert key a entries).lookup k = if k = key then some a else entries.lookup k := by
  by_cases h : key ∈ entries.map Prod.fst
  · obtain ⟨before, old, after, rfl, hbefore, hinsert⟩ := insert_of_mem h a
    rw [hinsert, List.lookup_append, List.lookup_append]
    by_cases hk : k = key
    · rw [if_pos hk, hk, lookup_eq_none hbefore, List.lookup_cons_self, Option.none_or]
    · rw [if_neg hk, List.lookup_cons, List.lookup_cons, beq_false_of_ne hk]
  · rw [insert_of_notMem h, List.lookup_append]
    by_cases hk : k = key
    · rw [if_pos hk, hk, lookup_eq_none h, List.lookup_cons_self, Option.none_or]
    · rw [if_neg hk, List.lookup_cons, beq_false_of_ne hk, List.lookup_nil, Option.or_none]

theorem keys_insert (key : κ) (a : α) (entries : List (κ × α)) :
    (insert key a entries).map Prod.fst =
      if key ∈ entries.map Prod.fst then entries.map Prod.fst
      else entries.map Prod.fst ++ [key] := by
  split
  · next h =>
    obtain ⟨before, old, after, rfl, -, hinsert⟩ := insert_of_mem h a
    rw [hinsert]
    simp
  · next h =>
    rw [insert_of_notMem h]
    simp

theorem nodup_insert (h : (entries.map Prod.fst).Nodup) (key : κ) (a : α) :
    ((insert key a entries).map Prod.fst).Nodup := by
  rw [keys_insert]
  split
  · exact h
  · next hnew =>
    refine List.nodup_append.mpr ⟨h, by simp, ?_⟩
    rintro k hk _ hkey rfl
    exact hnew (List.mem_singleton.mp hkey ▸ hk)

theorem mem_insert {entry : κ × α} (h : entry ∈ insert key a entries) :
    entry = (key, a) ∨ entry ∈ entries := by
  by_cases hkey : key ∈ entries.map Prod.fst
  · obtain ⟨before, old, after, rfl, -, hinsert⟩ := insert_of_mem hkey a
    rw [hinsert] at h
    rcases List.mem_append.mp h with hmem | hmem
    · exact .inr (List.mem_append_left _ hmem)
    · rcases List.mem_cons.mp hmem with heq | hmem
      · exact .inl heq
      · exact .inr (List.mem_append_right _ (List.mem_cons_of_mem _ hmem))
  · rw [insert_of_notMem hkey, List.mem_append, List.mem_singleton] at h
    exact h.symm

/-! ## Writing layers -/

theorem insertAll_append (layer layer' entries : List (κ × α)) :
    insertAll (layer ++ layer') entries = insertAll layer' (insertAll layer entries) :=
  List.foldl_append

theorem nodup_insertAll (h : (entries.map Prod.fst).Nodup) (layer : List (κ × α)) :
    ((insertAll layer entries).map Prod.fst).Nodup := by
  induction layer generalizing entries with
  | nil => exact h
  | cons entry layer ih => exact ih (nodup_insert h entry.1 entry.2)

/-- A layer counts where it has a key. -/
theorem lookup_insertAll {layer : List (κ × α)} (hlayer : (layer.map Prod.fst).Nodup)
    (entries : List (κ × α)) (k : κ) :
    (insertAll layer entries).lookup k = (layer.lookup k).or (entries.lookup k) := by
  induction layer generalizing entries with
  | nil => rfl
  | cons entry layer ih =>
    obtain ⟨hnew, hrest⟩ := List.nodup_cons.mp hlayer
    have hall : (insertAll (entry :: layer) entries).lookup k = _ := ih hrest _
    rw [hall, lookup_insert, List.lookup_cons]
    by_cases hk : k = entry.1
    · rw [if_pos hk, hk, lookup_eq_none hnew, beq_self_eq_true, Option.none_or, Option.some_or]
    · rw [if_neg hk, beq_false_of_ne hk]

end ExprLang.Assoc
