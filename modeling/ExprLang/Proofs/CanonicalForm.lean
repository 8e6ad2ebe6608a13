import ExprLang.Proofs.CborRoundTrip

/-!
# The canonical form of CBOR documents

Data that are alike are written as the same bytes, because the entries of a map are written in an
order that does not depend on how the map lists them (`write_eq_of_alike`). What is written can be
told from what follows it, so that no other data are written as these bytes (`alike_of_append_eq`).
-/

namespace ExprLang.Cbor

/-! ## The order of keys -/

theorem bytesLe_trans {a b c : List UInt8} (hab : bytesLe a b = true) (hbc : bytesLe b c = true) :
    bytesLe a c = true := by
  induction a generalizing b c with
  | nil => rfl
  | cons x a ih =>
    cases b with
    | nil => cases hab
    | cons y b =>
      cases c with
      | nil => cases hbc
      | cons z c =>
        rw [bytesLe] at hab hbc ⊢
        by_cases hxy : x = y
        · subst hxy
          rw [if_pos rfl] at hab
          by_cases hxz : x = z
          · rw [if_pos hxz] at hbc ⊢
            exact ih hab hbc
          · rwa [if_neg hxz] at hbc ⊢
        · rw [if_neg hxy, decide_eq_true_eq] at hab
          by_cases hyz : y = z
          · subst hyz
            rwa [if_neg hxy, decide_eq_true_eq]
          · rw [if_neg hyz, decide_eq_true_eq] at hbc
            have hlt := UInt8.lt_trans hab hbc
            rwa [if_neg (UInt8.ne_of_lt hlt), decide_eq_true_eq]

theorem bytesLe_total {a b : List UInt8} (hlength : a.length = b.length) :
    bytesLe a b = true ∨ bytesLe b a = true := by
  induction a generalizing b with
  | nil => exact .inl rfl
  | cons x a ih =>
    cases b with
    | nil => cases hlength
    | cons y b =>
      rw [bytesLe, bytesLe]
      by_cases hxy : x = y
      · rw [if_pos hxy, if_pos hxy.symm]
        exact ih (Nat.succ.inj hlength)
      · rw [if_neg hxy, if_neg (Ne.symm hxy), decide_eq_true_eq, decide_eq_true_eq]
        exact UInt8.lt_or_lt_of_ne hxy

theorem bytesLe_antisymm {a b : List UInt8} (hab : bytesLe a b = true) (hba : bytesLe b a = true) :
    a = b := by
  induction a generalizing b with
  | nil =>
    cases b with
    | nil => rfl
    | cons y b => cases hba
  | cons x a ih =>
    cases b with
    | nil => cases hab
    | cons y b =>
      rw [bytesLe] at hab hba
      by_cases hxy : x = y
      · rw [if_pos hxy] at hab
        rw [if_pos hxy.symm] at hba
        rw [hxy, ih hab hba]
      · rw [if_neg hxy, decide_eq_true_eq] at hab
        rw [if_neg (Ne.symm hxy), decide_eq_true_eq] at hba
        exact absurd (UInt8.lt_trans hab hba) (UInt8.lt_irrefl x)

theorem keyLe_iff {a b : List UInt8} : keyLe a b = true ↔
    a.length < b.length ∨ (a.length = b.length ∧ bytesLe a b = true) := by
  rw [keyLe]
  by_cases hlength : a.length = b.length
  · simp [hlength]
  · simp [hlength]

theorem keyLe_trans {a b c : List UInt8} (hab : keyLe a b = true) (hbc : keyLe b c = true) :
    keyLe a c = true := by
  rw [keyLe_iff] at *
  rcases hab with hab | ⟨hab, hle⟩
  · left
    omega
  · rcases hbc with hbc | ⟨hbc, hle'⟩
    · left
      omega
    · exact .inr ⟨hab.trans hbc, bytesLe_trans hle hle'⟩

theorem keyLe_total (a b : List UInt8) : keyLe a b = true ∨ keyLe b a = true := by
  rw [keyLe_iff, keyLe_iff]
  rcases Nat.lt_trichotomy a.length b.length with hlt | heq | hgt
  · exact .inl (.inl hlt)
  · rcases bytesLe_total heq with hle | hle
    · exact .inl (.inr ⟨heq, hle⟩)
    · exact .inr (.inr ⟨heq.symm, hle⟩)
  · exact .inr (.inl hgt)

theorem keyLe_antisymm {a b : List UInt8} (hab : keyLe a b = true) (hba : keyLe b a = true) :
    a = b := by
  rw [keyLe_iff] at hab hba
  rcases hab with hab | ⟨heq, hle⟩
  · omega
  · rcases hba with hba | ⟨-, hle'⟩
    · omega
    · exact bytesLe_antisymm hle hle'

/-! ## What is told apart -/

/-- A head can be told from what follows it. -/
theorem head_append_inj {major major' argument argument' : Nat} (hmajor : major < 7)
    (hmajor' : major' < 7) (hargument : argument < Nat.pow 256 8)
    (hargument' : argument' < Nat.pow 256 8) {rest rest' : List UInt8}
    (h : head major argument ++ rest = head major' argument' ++ rest') :
    major = major' ∧ argument = argument' ∧ rest = rest' := by
  obtain ⟨info, hlt, hread, -⟩ := readHead_head hmajor rest hargument
  obtain ⟨info', hlt', hread', -⟩ := readHead_head hmajor' rest' hargument'
  have hsame := congrArg (fun bytes => (readHead bytes).map fun p => (p.value, p.rest)) h
  simp only [hread, hread', Option.map_some, Option.some_inj, Prod.mk.injEq, Head.mk.injEq] at hsame
  exact ⟨hsame.1.1, hsame.1.2.2, hsame.2⟩

theorem writeText_append_inj {t u : Text} (ht : t.bytes.length < Nat.pow 256 8)
    (hu : u.bytes.length < Nat.pow 256 8) {rest rest' : List UInt8}
    (h : writeText t ++ rest = writeText u ++ rest') : t = u ∧ rest = rest' := by
  rw [writeText, writeText, List.append_assoc, List.append_assoc] at h
  obtain ⟨-, hlength, happend⟩ := head_append_inj (by decide) (by decide) ht hu h
  obtain ⟨hbytes, hrest⟩ := List.append_inj happend hlength
  exact ⟨Text.ext_bytes hbytes, hrest⟩

/-- Data without doubles whose texts and containers have lengths that fit into a head. -/
inductive Sized : Data → Prop
  | int (n : Int64) : Sized (.int n)
  | text {t : Text} (ht : t.bytes.length < Nat.pow 256 8) : Sized (.text t)
  | list {items : List Data} (hlength : items.length < Nat.pow 256 8)
    (hitems : ∀ item ∈ items, Sized item) : Sized (.list items)
  | map {entries : List (Text × Data)} (hlength : entries.length < Nat.pow 256 8)
    (hkeys : ∀ key ∈ entries.map Prod.fst, key.bytes.length < Nat.pow 256 8)
    (hitems : ∀ item ∈ entries.map Prod.snd, Sized item) : Sized (.map entries)

/-- The bytes of an entry of a map. -/
def entryBytes (entry : Text × Data) : List UInt8 := writeText entry.1 ++ write entry.2

/-- A head by its major type and argument, and the bytes after it. -/
structure Parts where
  major : Nat
  argument : Nat
  body : List UInt8

/-- The parts of the item of data. -/
def parts : Data → Parts
  | .int n => if 0 ≤ n.toInt then ⟨0, n.toInt.toNat, []⟩ else ⟨1, (-1 - n.toInt).toNat, []⟩
  | .double _ => ⟨7, 0, []⟩
  | .text t => ⟨3, t.bytes.length, t.bytes⟩
  | .list items => ⟨4, items.length, items.flatMap write⟩
  | .map entries => ⟨5, entries.length, (canonical entries).flatMap entryBytes⟩

theorem write_eq_parts {d : Data} (h : Sized d) :
    write d = head (parts d).major (parts d).argument ++ (parts d).body ∧ (parts d).major < 7 ∧
      (parts d).argument < Nat.pow 256 8 := by
  cases h with
  | int n =>
    have hlow := n.le_toInt
    have hhigh := n.toInt_lt
    have hpow : Nat.pow 256 8 = 18446744073709551616 := rfl
    rw [write, writeInt, parts, hpow]
    by_cases hn : 0 ≤ n.toInt
    · rw [if_pos hn, if_pos hn]
      refine ⟨(List.append_nil _).symm, (by decide : 0 < 7), ?_⟩
      simp only
      omega
    · rw [if_neg hn, if_neg hn]
      refine ⟨(List.append_nil _).symm, (by decide : 1 < 7), ?_⟩
      simp only
      omega
  | text ht => exact ⟨rfl, (by decide : 3 < 7), ht⟩
  | list hlength _ =>
    rw [write, writeItems_eq_map]
    exact ⟨rfl, (by decide : 4 < 7), hlength⟩
  | @map entries hlength _ _ =>
    rw [write_map, List.length_map, (canonical_perm entries).length_eq, List.flatMap_map]
    exact ⟨rfl, (by decide : 5 < 7), hlength⟩

/-- The parts of data can be told from what follows them. -/
theorem parts_of_append_eq {d e : Data} (hd : Sized d) (he : Sized e) {rest rest' : List UInt8}
    (h : write d ++ rest = write e ++ rest') :
    (parts d).major = (parts e).major ∧ (parts d).argument = (parts e).argument ∧
      (parts d).body ++ rest = (parts e).body ++ rest' := by
  obtain ⟨hwrite, hmajor, hargument⟩ := write_eq_parts hd
  obtain ⟨hwrite', hmajor', hargument'⟩ := write_eq_parts he
  rw [hwrite, hwrite', List.append_assoc, List.append_assoc] at h
  exact head_append_inj hmajor hmajor' hargument hargument' h

/-- Items of which each can be told from what follows it, one after the other. -/
theorem flatMap_append_inj {α : Type} {f : α → List UInt8} {R : α → α → Prop} {as bs : List α}
    (hlength : as.length = bs.length)
    (hone : ∀ a ∈ as, ∀ b ∈ bs, ∀ {rest rest'}, f a ++ rest = f b ++ rest' → R a b ∧ rest = rest')
    {rest rest' : List UInt8} (h : as.flatMap f ++ rest = bs.flatMap f ++ rest') :
    List.Forall₂ R as bs ∧ rest = rest' := by
  induction as generalizing bs with
  | nil =>
    obtain rfl := List.length_eq_zero_iff.mp hlength.symm
    exact ⟨.nil, h⟩
  | cons a as ih =>
    cases bs with
    | nil => cases hlength
    | cons b bs =>
      rw [List.flatMap_cons, List.flatMap_cons, List.append_assoc, List.append_assoc] at h
      obtain ⟨hab, hrest⟩ := hone a List.mem_cons_self b List.mem_cons_self h
      obtain ⟨hall, hrest⟩ := ih (Nat.succ.inj hlength)
        (fun a ha b hb => hone a (List.mem_cons_of_mem _ ha) b (List.mem_cons_of_mem _ hb)) hrest
      exact ⟨.cons hab hall, hrest⟩

/-- Entries of the same keys and of data that are alike. -/
def EntryAlike (a b : Text × Data) : Prop := a.1 = b.1 ∧ a.2.Alike b.2

/-- An entry can be told from what follows it if its data can. -/
theorem entryAlike_of_append_eq {a b : Text × Data}
    (ha : a.1.bytes.length < Nat.pow 256 8) (hb : b.1.bytes.length < Nat.pow 256 8)
    (hdata : ∀ {rest rest'}, write a.2 ++ rest = write b.2 ++ rest' → a.2.Alike b.2 ∧ rest = rest')
    {rest rest' : List UInt8} (h : entryBytes a ++ rest = entryBytes b ++ rest') :
    EntryAlike a b ∧ rest = rest' := by
  rw [entryBytes, entryBytes, List.append_assoc, List.append_assoc] at h
  obtain ⟨hkey, h⟩ := writeText_append_inj ha hb h
  obtain ⟨halike, hrest⟩ := hdata h
  exact ⟨⟨hkey, halike⟩, hrest⟩

theorem alike_map_of_canonical {entries entries' : List (Text × Data)}
    (hnodup : (entries.map Prod.fst).Nodup)
    (h : List.Forall₂ EntryAlike (canonical entries) (canonical entries')) :
    (Data.map entries).Alike (.map entries') := by
  have hkeys : (canonical entries).map Prod.fst = (canonical entries').map Prod.fst := by
    rw [← List.forall₂_eq_eq_eq, List.forall₂_map_left_iff, List.forall₂_map_right_iff]
    exact h.imp fun _ _ hab => hab.1
  apply Data.Alike.map
  · have hperm := (canonical_perm entries').map Prod.fst
    rw [← hkeys] at hperm
    exact ((canonical_perm entries).map Prod.fst).symm.trans hperm
  · intro key a b ha hb
    obtain ⟨entry, hentry, hkey, halike⟩ :=
      exists_of_forall₂ h.flip ((canonical_perm entries').mem_iff.mpr hb)
    have hmem : entry ∈ entries := (canonical_perm entries).subset hentry
    cases List.inj_on_of_nodup_map hnodup ha hmem hkey.symm
    exact halike

/-- Whole numbers are of the first two major types. -/
theorem major_int_ne (n : Int64) {k : Nat} (hk : 2 ≤ k) : (parts (.int n)).major ≠ k := by
  have hlt : (parts (.int n)).major < 2 := by
    rw [parts]
    split <;> simp
  omega

theorem int_of_parts {n m : Int64} (hmajor : (parts (.int n)).major = (parts (.int m)).major)
    (hargument : (parts (.int n)).argument = (parts (.int m)).argument) : n = m := by
  apply Int64.toInt_inj.mp
  rw [parts, parts] at hmajor hargument
  by_cases hn : 0 ≤ n.toInt
  · by_cases hm : 0 ≤ m.toInt
    · rw [if_pos hn, if_pos hm] at hargument
      simp only at hargument
      omega
    · rw [if_pos hn, if_neg hm] at hmajor
      cases hmajor
  · by_cases hm : 0 ≤ m.toInt
    · rw [if_neg hn, if_pos hm] at hmajor
      cases hmajor
    · rw [if_neg hn, if_neg hm] at hargument
      simp only at hargument
      omega

/-- Data whose bytes cannot be told apart, whatever follows them, are alike. -/
theorem alike_of_append_eq {d e : Data} (hd : Sized d) (he : Sized e)
    (hkeys : d.AllKeys List.Nodup) {rest rest' : List UInt8}
    (h : write d ++ rest = write e ++ rest') : d.Alike e ∧ rest = rest' := by
  induction d using Data.induct generalizing e rest rest' with
  | int n =>
    obtain ⟨hmajor, hargument, hbody⟩ := parts_of_append_eq hd he h
    cases he with
    | int m =>
      obtain rfl := int_of_parts hmajor hargument
      exact ⟨.int n, List.append_cancel_left hbody⟩
    | _ => exact absurd hmajor (major_int_ne n (by simp [parts]))
  | double x => cases hd
  | text t =>
    obtain ⟨hmajor, hlength, hbody⟩ := parts_of_append_eq hd he h
    cases he with
    | @text u hu =>
      obtain ⟨hbytes, hrest⟩ := List.append_inj hbody hlength
      obtain rfl : t = u := Text.ext_bytes hbytes
      exact ⟨.text t, hrest⟩
    | int m => exact absurd hmajor.symm (major_int_ne m (by simp [parts]))
    | _ => cases hmajor
  | list items ih =>
    obtain ⟨hmajor, hlength, hbody⟩ := parts_of_append_eq hd he h
    cases he with
    | list _ hitems' =>
      obtain _ | _ | ⟨_, hitems⟩ | _ := hd
      obtain _ | _ | _ | hinner | _ := hkeys
      obtain ⟨hall, hrest⟩ := flatMap_append_inj hlength (fun a ha b hb _ _ heq =>
        ih a ha (hitems a ha) (hitems' b hb) (hinner a ha) heq) hbody
      exact ⟨.list hlength fun a b hab => (List.forall₂_iff_zip.mp hall).2 hab, hrest⟩
    | int m => exact absurd hmajor.symm (major_int_ne m (by simp [parts]))
    | _ => cases hmajor
  | map entries ih =>
    obtain ⟨hmajor, hlength, hbody⟩ := parts_of_append_eq hd he h
    cases he with
    | @map entries' _ hlengths' hitems' =>
      obtain _ | _ | _ | ⟨_, hlengths, hitems⟩ := hd
      obtain _ | _ | _ | _ | ⟨hnodup, hinner⟩ := hkeys
      have hcount : (canonical entries).length = (canonical entries').length := by
        rw [(canonical_perm entries).length_eq, (canonical_perm entries').length_eq]
        exact hlength
      have hone : ∀ a ∈ canonical entries, ∀ b ∈ canonical entries', ∀ {rest rest'},
          entryBytes a ++ rest = entryBytes b ++ rest' → EntryAlike a b ∧ rest = rest' := by
        intro a ha b hb rest rest' heq
        have ha := (canonical_perm entries).subset ha
        have hb := (canonical_perm entries').subset hb
        have hitem : a.2 ∈ entries.map Prod.snd := List.mem_map_of_mem ha
        have hitem' : b.2 ∈ entries'.map Prod.snd := List.mem_map_of_mem hb
        exact entryAlike_of_append_eq (hlengths _ (List.mem_map_of_mem ha))
          (hlengths' _ (List.mem_map_of_mem hb))
          (ih a.2 hitem (hitems _ hitem) (hitems' _ hitem') (hinner _ hitem)) heq
      obtain ⟨hall, hrest⟩ := flatMap_append_inj hcount hone hbody
      exact ⟨alike_map_of_canonical hnodup hall, hrest⟩
    | int m => exact absurd hmajor.symm (major_int_ne m (by simp [parts]))
    | _ => cases hmajor

/-! ## What is written alike -/

theorem sorted_canonical (entries : List (Text × Data)) :
    ((canonical entries).map Prod.fst).Pairwise fun a b =>
      keyLe (writeText a) (writeText b) = true := by
  rw [List.pairwise_map]
  apply List.pairwise_mergeSort
  · intro a b c hab hbc
    exact keyLe_trans hab hbc
  · intro a b
    rw [Bool.or_eq_true]
    exact keyLe_total _ _

/-- Maps of the same keys are written in the same order. -/
theorem canonical_keys_eq {entries entries' : List (Text × Data)}
    (hkeys : (entries.map Prod.fst).Perm (entries'.map Prod.fst))
    (hlengths : ∀ key ∈ entries.map Prod.fst, key.bytes.length < Nat.pow 256 8) :
    (canonical entries).map Prod.fst = (canonical entries').map Prod.fst := by
  have hperm := (canonical_perm entries).map Prod.fst
  have hperm' := (canonical_perm entries').map Prod.fst
  refine List.Perm.eq_of_pairwise ?_ (sorted_canonical entries) (sorted_canonical entries')
    (hperm.trans (hkeys.trans hperm'.symm))
  intro a b ha hb hab hba
  have hwrite : writeText a ++ [] = writeText b ++ [] := by rw [keyLe_antisymm hab hba]
  have hb := (hperm'.trans hkeys.symm).subset hb
  exact (writeText_append_inj (hlengths a (hperm.subset ha)) (hlengths b hb) hwrite).1

theorem map_eq_map_of_zip {α β : Type} {f : α → β} {as bs : List α}
    (hlength : as.length = bs.length) (h : ∀ a b, (a, b) ∈ as.zip bs → f a = f b) :
    as.map f = bs.map f := by
  rw [← List.forall₂_eq_eq_eq, List.forall₂_map_left_iff, List.forall₂_map_right_iff,
    List.forall₂_iff_zip]
  exact ⟨hlength, fun hab => h _ _ hab⟩

/-- Data that are alike are written as the same bytes. -/
theorem write_eq_of_alike {d e : Data} (h : d.Alike e) (hd : Sized d) : write d = write e := by
  induction h with
  | int n => rfl
  | double x => rfl
  | text t => rfl
  | @list items items' hlength _ ih =>
    obtain _ | _ | ⟨_, hitems⟩ | _ := hd
    have hmap : items.map write = items'.map write := by
      apply map_eq_map_of_zip hlength
      intro a b hab
      exact ih a b hab (hitems a (List.of_mem_zip hab).1)
    rw [write, write, writeItems_eq_map, writeItems_eq_map, hmap, hlength]
  | @map entries entries' hkeys _ ih =>
    obtain _ | _ | _ | ⟨_, hlengths, hitems⟩ := hd
    have hfst := canonical_keys_eq hkeys hlengths
    have hmap : (canonical entries).map writeEntry = (canonical entries').map writeEntry := by
      have hlength := congrArg List.length hfst
      rw [List.length_map, List.length_map] at hlength
      apply map_eq_map_of_zip hlength
      intro a b hab
      obtain ⟨ha, hb⟩ := List.of_mem_zip hab
      have ha := (canonical_perm entries).subset ha
      have hb := (canonical_perm entries').subset hb
      have hkey : a.1 = b.1 := by
        rw [← List.forall₂_eq_eq_eq, List.forall₂_map_left_iff, List.forall₂_map_right_iff] at hfst
        exact (List.forall₂_iff_zip.mp hfst).2 hab
      have hitem := hitems a.2 (List.mem_map_of_mem ha)
      rw [writeEntry, writeEntry, hkey, ih b.1 a.2 b.2 (hkey ▸ ha) hb hitem]
    rw [write_map, write_map, hmap]

/-- Values without doubles are written as the same bytes exactly if they are equal, and a comparison
    of them has an answer. -/
theorem equal?_eq_of_encode {s : Store} {v w : Value} {d e : Data} (hv : s.Holds v d)
    (hw : s.Holds w e) (hd : Sized d) (he : Sized e) :
    ∃ bytes bytes', encode s v = .ok bytes ∧ encode s w = .ok bytes' ∧
      s.equal? v w = some (decide (bytes = bytes')) := by
  have hkeys := hv.allKeys_nodup
  refine ⟨write d, write e, by rw [encode, hv.data_eq]; rfl, by rw [encode, hw.data_eq]; rfl, ?_⟩
  by_cases heq : write d = write e
  · have halike := (alike_of_append_eq hd he hkeys (congrArg (· ++ []) heq)).1
    rw [decide_eq_true heq]
    exact hv.equal?_of_alike hw halike
  · obtain ⟨b, hb⟩ := hv.exists_equal? w
    cases b with
    | true =>
      have halike := hv.alike_of_equal? hw hb
      exact absurd (write_eq_of_alike halike hd) heq
    | false => rw [hb, decide_eq_false heq]

/-- Two records that list the same members in different orders. -/
def twins : Store where
  arrays := #[#[.text "x", .int 0], #[.text "x", .int 0]]
  objects := #[.ofList [("b", .int (-1)), ("aa", .array 0)],
    .ofList [("aa", .array 1), ("b", .int (-1))]]

def twinItems : Data := .list [.text "x", .int 0]

theorem holds_twins : twins.Holds (.object 0) (.map [("b", .int (-1)), ("aa", twinItems)]) ∧
    twins.Holds (.object 1) (.map [("aa", twinItems), ("b", .int (-1))]) := by
  have hitems : List.Forall₂ twins.Holds [.text "x", .int 0] [.text "x", .int 0] :=
    .cons (.text "x") (.cons (.int 0) .nil)
  constructor
  · exact .object rfl (.ofList _) rfl (.cons (.int (-1)) (.cons (.array rfl hitems) .nil))
  · exact .object rfl (.ofList _) rfl (.cons (.array rfl hitems) (.cons (.int (-1)) .nil))

theorem sized_twins : Sized (.map [("b", .int (-1)), ("aa", twinItems)]) ∧
    Sized (.map [("aa", twinItems), ("b", .int (-1))]) := by
  have hitems : Sized twinItems := by
    refine .list (by decide) ?_
    rw [List.forall_mem_cons, List.forall_mem_singleton]
    exact ⟨.text (by decide +kernel), .int 0⟩
  constructor
  · refine .map (by decide) (by decide +kernel) ?_
    rw [List.map_cons, List.map_cons, List.map_nil, List.forall_mem_cons, List.forall_mem_singleton]
    exact ⟨.int (-1), hitems⟩
  · refine .map (by decide) (by decide +kernel) ?_
    rw [List.map_cons, List.map_cons, List.map_nil, List.forall_mem_cons, List.forall_mem_singleton]
    exact ⟨hitems, .int (-1)⟩

theorem equal?_eq_of_encode_twins :
    twins.Holds (.object 0) (.map [("b", .int (-1)), ("aa", twinItems)]) ∧
      twins.Holds (.object 1) (.map [("aa", twinItems), ("b", .int (-1))]) ∧
      ∃ bytes bytes', encode twins (.object 0) = .ok bytes ∧ encode twins (.object 1) = .ok bytes' ∧
        twins.equal? (.object 0) (.object 1) = some (decide (bytes = bytes')) :=
  ⟨holds_twins.1, holds_twins.2,
    equal?_eq_of_encode holds_twins.1 holds_twins.2 sized_twins.1 sized_twins.2⟩

end ExprLang.Cbor
