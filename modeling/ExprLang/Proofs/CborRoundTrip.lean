import ExprLang.Cbor.Reader
import ExprLang.Cbor.Writer
import ExprLang.Proofs.Encoding
import ExprLang.Proofs.HostValues

/-!
# Reading back what was written as CBOR

A written item can be told from what follows it, so that items after each other are read one by one
(`ReadsAs`). The entries of a map are written in an order of their own and come back as new members
in the order of their keys. A text is written as the bytes it has, but is read only if they are
characters (`Refuses`). `decode_encode` says that a value without doubles whose document keeps the
limits of the reader comes back as an equal value if its texts are texts of characters, and is
refused otherwise.
-/

namespace ExprLang

namespace Cbor

/-! ## Heads -/

theorem length_bigEndian (count n : Nat) : (bigEndian count n).length = count := by
  induction count generalizing n with
  | zero => rfl
  | succ count ih => rw [bigEndian, List.length_cons, ih]

theorem foldl_bigEndian {count n : Nat} (h : n < Nat.pow 256 count) (start : Nat) :
    (bigEndian count n).foldl (fun n b => 256 * n + b.toNat) start =
      Nat.pow 256 count * start + n := by
  induction count generalizing n start with
  | zero =>
    simp only [Nat.pow_eq, Nat.pow_zero] at h
    simp [bigEndian, Nat.lt_one_iff.mp h]
  | succ count ih =>
    have hpos : 0 < Nat.pow 256 count := Nat.pow_pos (by decide)
    have hbyte : n / Nat.pow 256 count < 256 := by
      apply Nat.div_lt_of_lt_mul
      exact h
    rw [bigEndian, List.foldl_cons, UInt8.toNat_ofNat_of_lt' hbyte, ih (Nat.mod_lt n hpos)]
    have hsplit := Nat.div_add_mod n (Nat.pow 256 count)
    have hpow : Nat.pow 256 (count + 1) = Nat.pow 256 count * 256 := rfl
    rw [Nat.mul_add, Nat.add_assoc, hsplit, hpow, Nat.mul_assoc]

theorem bigEndianValue_bigEndian {count n : Nat} (h : n < Nat.pow 256 count) :
    bigEndianValue (bigEndian count n) = n := by
  rw [bigEndianValue, foldl_bigEndian h, Nat.mul_zero, Nat.zero_add]

theorem argument?_bigEndian {count n : Nat} (h : n < Nat.pow 256 count) (major info : Nat)
    (b : UInt8) (rest : List UInt8) :
    ∃ hlt, argument? major info count b (bigEndian count n ++ rest) =
      some ⟨⟨major, info, n⟩, rest, hlt⟩ := by
  have hlength := length_bigEndian count n
  have htake : (bigEndian count n ++ rest).take count = bigEndian count n :=
    List.take_left' hlength
  have hdrop : (bigEndian count n ++ rest).drop count = rest := List.drop_left' hlength
  refine ⟨by simp only [List.length_cons, List.length_append]; omega, ?_⟩
  rw [argument?, if_neg (by simp [hlength])]
  simp only [htake, hdrop, bigEndianValue_bigEndian h]

/-- The additional information of each longer head, with the number of bytes of its argument. -/
def longHeads : List (Nat × Nat) := [(24, 1), (25, 2), (26, 4), (27, 8)]

section Head

variable {major info argument : Nat} (hmajor : major < 7) (rest : List UInt8)
include hmajor

/-- The first byte of an item holds its major type and the additional information. -/
theorem toNat_initial (hinfo : info < 32) :
    (UInt8.ofNat (32 * major + info)).toNat / 32 = major ∧
      (UInt8.ofNat (32 * major + info)).toNat % 32 = info := by
  have hbyte : (UInt8.ofNat (32 * major + info)).toNat = 32 * major + info := by
    apply UInt8.toNat_ofNat_of_lt'
    show 32 * major + info < 256
    omega
  rw [hbyte]
  omega

theorem readHead_short (hinfo : info < 24) :
    ∃ hlt, readHead (UInt8.ofNat (32 * major + info) :: rest) =
      some ⟨⟨major, info, info⟩, rest, hlt⟩ := by
  obtain ⟨hdiv, hmod⟩ := toNat_initial hmajor (by omega : info < 32)
  refine ⟨by simp, ?_⟩
  rw [readHead]
  simp only [hdiv, hmod, if_pos hinfo]

theorem readHead_long {count : Nat} (hinfo : (info, count) ∈ longHeads)
    (hargument : argument < Nat.pow 256 count) :
    ∃ hlt, readHead (UInt8.ofNat (32 * major + info) :: (bigEndian count argument ++ rest)) =
      some ⟨⟨major, info, argument⟩, rest, hlt⟩ := by
  obtain ⟨hlt, hread⟩ := argument?_bigEndian hargument major info
    (UInt8.ofNat (32 * major + info)) rest
  refine ⟨hlt, ?_⟩
  simp only [longHeads, List.mem_cons, Prod.mk.injEq, List.not_mem_nil, or_false] at hinfo
  have hlt32 : info < 32 := by omega
  obtain ⟨hdiv, hmod⟩ := toNat_initial hmajor hlt32
  rw [readHead]
  simp only [hdiv, hmod]
  rcases hinfo with ⟨rfl, rfl⟩ | ⟨rfl, rfl⟩ | ⟨rfl, rfl⟩ | ⟨rfl, rfl⟩
  · have hne : ¬ (major = 7 ∧ argument < 32) := by omega
    simp [hread, hne]
  · simp [hread]
  · simp [hread]
  · simp [hread]

/-- A head is read back, and its length is not left open. -/
theorem readHead_head (hargument : argument < Nat.pow 256 8) :
    ∃ info hlt, readHead (head major argument ++ rest) =
      some ⟨⟨major, info, argument⟩, rest, hlt⟩ ∧ info ≠ 31 := by
  have long {info count : Nat} (hinfo : (info, count) ∈ longHeads)
      (hfits : argument < Nat.pow 256 count)
      (hhead : head major argument = UInt8.ofNat (32 * major + info) :: bigEndian count argument) :
      ∃ info hlt, readHead (head major argument ++ rest) =
        some ⟨⟨major, info, argument⟩, rest, hlt⟩ ∧ info ≠ 31 := by
    obtain ⟨hlt, hread⟩ := readHead_long hmajor rest hinfo hfits
    rw [hhead]
    refine ⟨info, hlt, hread, ?_⟩
    rintro rfl
    simp [longHeads] at hinfo
  by_cases h24 : argument < 24
  · obtain ⟨hlt, hread⟩ := readHead_short hmajor rest h24
    rw [head, if_pos h24]
    exact ⟨argument, hlt, hread, by omega⟩
  by_cases h8 : argument < 256
  · exact long (by decide : (24, 1) ∈ longHeads) h8 (by rw [head, if_neg h24, if_pos h8])
  by_cases h16 : argument < 65536
  · exact long (by decide : (25, 2) ∈ longHeads) h16
      (by rw [head, if_neg h24, if_neg h8, if_pos h16])
  by_cases h32 : argument < 4294967296
  · exact long (by decide : (26, 4) ∈ longHeads) h32
      (by rw [head, if_neg h24, if_neg h8, if_neg h16, if_pos h32])
  · exact long (by decide : (27, 8) ∈ longHeads) hargument
      (by rw [head, if_neg h24, if_neg h8, if_neg h16, if_neg h32])

end Head

/-! ## Items -/

/-- Bytes are read as an item wherever they stand, and nothing after them is. -/
def ReadsAs (levels : Nat) (bytes : List UInt8) (item : Item) : Prop :=
  ∀ rest, ∃ hlt, readItem levels .start (bytes ++ rest) = some ⟨item, rest, hlt⟩

/-- Bytes are not read, wherever they stand. -/
def Refuses (levels : Nat) (bytes : List UInt8) : Prop :=
  ∀ rest, readItem levels .start (bytes ++ rest) = none

theorem readsAs_int (levels : Nat) {n : Int} (hlo : -0x8000000000000000 ≤ n)
    (hhi : n < 0x8000000000000000) : ReadsAs levels (writeInt n) (.int n) := by
  intro rest
  rw [writeInt]
  by_cases h : 0 ≤ n
  · have hargument : n.toNat < Nat.pow 256 8 := by
      show _ < 18446744073709551616
      omega
    obtain ⟨info, hlt, hread, -⟩ := readHead_head (by decide : 0 < 7) rest hargument
    rw [if_pos h]
    refine ⟨hlt, ?_⟩
    rw [readItem, hread]
    simp [Int.toNat_of_nonneg h]
  · have hargument : (-1 - n).toNat < Nat.pow 256 8 := by
      show _ < 18446744073709551616
      omega
    have hnegative : negativeItem (-1 - n).toNat = .int n := by
      rw [negativeItem, if_pos (by omega), Int.toNat_of_nonneg (by omega)]
      congr 1
      omega
    obtain ⟨info, hlt, hread, -⟩ := readHead_head (by decide : 1 < 7) rest hargument
    rw [if_neg h]
    refine ⟨hlt, ?_⟩
    rw [readItem, hread]
    simp [hnegative]

/-- A string whose length is given is one chunk. -/
theorem readString_append (major : Nat) {info : Nat} (hinfo : info ≠ 31) (bytes rest : List UInt8) :
    ∃ hle, readString ⟨major, info, bytes.length⟩ (bytes ++ rest) =
      some ⟨[bytes], rest, hle⟩ := by
  refine ⟨by simp, ?_⟩
  simp [readString, hinfo]

theorem textOfChunks?_singleton (t : Text) : textOfChunks? [t.bytes] = t.toString? := by
  have hchunk : (⟨t.bytes⟩ : Text) = t := rfl
  simp only [textOfChunks?, hchunk]
  cases t.toString? with
  | none => rfl
  | some s => exact congrArg some String.append_empty

section Text

variable (levels : Nat) {t : Text} (ht : t.bytes.length < Nat.pow 256 8)
include ht

theorem readsAs_text {s : String} (hs : t = s) : ReadsAs levels (writeText t) (.text s) := by
  intro rest
  obtain ⟨info, hlt, hread, hinfo⟩ := readHead_head (by decide : 3 < 7) (t.bytes ++ rest) ht
  obtain ⟨hle, hstring⟩ := readString_append 3 hinfo t.bytes rest
  have htext : textOfChunks? [t.bytes] = some s := by
    rw [textOfChunks?_singleton, Text.toString?_eq_some.mpr hs]
  rw [writeText, List.append_assoc]
  refine ⟨Nat.lt_of_le_of_lt hle hlt, ?_⟩
  rw [readItem, hread]
  simp [hstring, htext]

/-- A text that is no text of characters is not read back. -/
theorem refuses_text (hnot : ¬ t.IsUnicode) : Refuses levels (writeText t) := by
  intro rest
  obtain ⟨info, hlt, hread, hinfo⟩ := readHead_head (by decide : 3 < 7) (t.bytes ++ rest) ht
  obtain ⟨hle, hstring⟩ := readString_append 3 hinfo t.bytes rest
  have htext : textOfChunks? [t.bytes] = none := by
    rw [textOfChunks?_singleton, Text.toString?_eq_none.mpr hnot]
  rw [writeText, List.append_assoc, readItem, hread]
  simp [hstring, htext]

end Text

theorem readCount_of_readsAs {levels : Nat} {written : List (List UInt8)} {items : List Item}
    (h : List.Forall₂ (ReadsAs levels) written items) (rest : List UInt8) :
    ∃ hle, readCount levels written.length (written.flatten ++ rest) =
      some ⟨items, rest, hle⟩ := by
  induction h with
  | nil =>
    refine ⟨Nat.le_refl _, ?_⟩
    show readCount levels 0 rest = _
    rw [readCount]
  | cons hw _ ih =>
    obtain ⟨hle, hrest⟩ := ih
    obtain ⟨hlt, hitem⟩ := hw _
    rw [List.flatten_cons, List.append_assoc]
    refine ⟨Nat.le_of_lt (Nat.lt_of_le_of_lt hle hlt), ?_⟩
    rw [List.length_cons, readCount, hitem]
    simp [hrest]

/-- Items are not read if one of them is not and those before it are. -/
theorem readCount_of_refuses {levels : Nat} {written : List (List UInt8)}
    (h : ∀ w ∈ written, (∃ item, ReadsAs levels w item) ∨ Refuses levels w)
    (hsome : ∃ w ∈ written, Refuses levels w) (rest : List UInt8) :
    readCount levels written.length (written.flatten ++ rest) = none := by
  induction written with
  | nil =>
    obtain ⟨w, hw, -⟩ := hsome
    cases hw
  | cons w written ih =>
    obtain ⟨hw, hwritten⟩ := List.forall_mem_cons.mp h
    rw [List.flatten_cons, List.append_assoc, List.length_cons, readCount]
    rcases hw with ⟨item, hitem⟩ | hrefuses
    · obtain ⟨hlt, hread⟩ := hitem (written.flatten ++ rest)
      have hlater : ∃ w ∈ written, Refuses levels w := by
        obtain ⟨w', hw', hrefuses⟩ := hsome
        rcases List.mem_cons.mp hw' with rfl | hmem
        · have hnone := hrefuses (written.flatten ++ rest)
          rw [hread] at hnone
          cases hnone
        · exact ⟨w', hmem, hrefuses⟩
      rw [hread]
      simp [ih hwritten hlater]
    · rw [hrefuses]
      rfl

theorem lt_of_le_maxItems {n : Nat} (h : n ≤ maxItems) : n < Nat.pow 256 8 :=
  Nat.lt_of_le_of_lt h (by decide)

theorem readsAs_list {levels : Nat} {written : List (List UInt8)} {items : List Item}
    (h : List.Forall₂ (ReadsAs levels) written items) (hlength : written.length ≤ maxItems) :
    ReadsAs (levels + 1) (head 4 written.length ++ written.flatten) (.list items) := by
  intro rest
  obtain ⟨info, hlt, hread, hinfo⟩ := readHead_head (by decide : 4 < 7) (written.flatten ++ rest)
    (lt_of_le_maxItems hlength)
  obtain ⟨hle, hcount⟩ := readCount_of_readsAs h rest
  have hlength' : items.length ≤ maxItems := h.length_eq ▸ hlength
  rw [List.append_assoc]
  refine ⟨Nat.lt_of_le_of_lt hle hlt, ?_⟩
  rw [readItem, hread]
  simp [hinfo, Nat.not_lt.mpr hlength, Nat.not_lt.mpr hlength', hcount]

theorem refuses_list {levels : Nat} {written : List (List UInt8)}
    (h : ∀ w ∈ written, (∃ item, ReadsAs levels w item) ∨ Refuses levels w)
    (hsome : ∃ w ∈ written, Refuses levels w) (hlength : written.length ≤ maxItems) :
    Refuses (levels + 1) (head 4 written.length ++ written.flatten) := by
  intro rest
  obtain ⟨info, hlt, hread, hinfo⟩ := readHead_head (by decide : 4 < 7) (written.flatten ++ rest)
    (lt_of_le_maxItems hlength)
  rw [List.append_assoc, readItem, hread]
  simp [hinfo, Nat.not_lt.mpr hlength, readCount_of_refuses h hsome rest]

/-! ## Maps -/

/-- Keys and values, one after the other. -/
def inTurn {α : Type} (pairs : List (α × α)) : List α := pairs.flatMap fun pair => [pair.1, pair.2]

theorem inPairs_inTurn (pairs : List (Item × Item)) : inPairs (inTurn pairs) = some pairs := by
  induction pairs with
  | nil => rfl
  | cons pair pairs ih =>
    show (inPairs (inTurn pairs)).map _ = _
    rw [ih]
    rfl

theorem length_inTurn {α : Type} (pairs : List (α × α)) :
    (inTurn pairs).length = 2 * pairs.length := by
  simp [inTurn, Nat.mul_comm]

theorem flatten_inTurn (pairs : List (List UInt8 × List UInt8)) :
    (inTurn pairs).flatten = pairs.flatMap fun pair => pair.1 ++ pair.2 := by
  induction pairs with
  | nil => rfl
  | cons pair pairs ih =>
    show pair.1 ++ (pair.2 ++ (inTurn pairs).flatten) = _
    rw [ih, List.flatMap_cons, List.append_assoc]

theorem readsAs_inTurn {levels : Nat} {written : List (List UInt8 × List UInt8)}
    {pairs : List (Item × Item)}
    (h : List.Forall₂ (fun w p => ReadsAs levels w.1 p.1 ∧ ReadsAs levels w.2 p.2) written pairs) :
    List.Forall₂ (ReadsAs levels) (inTurn written) (inTurn pairs) := by
  induction h with
  | nil => exact .nil
  | cons hw _ ih => exact .cons hw.1 (.cons hw.2 ih)

/-- Entries whose keys are texts. -/
def textEntries (entries : List (String × Item)) : List (Item × Item) :=
  entries.map fun entry => (.text entry.1, entry.2)

/-- Entries of different texts are a map as they are. -/
theorem mapItem?_inTurn {entries : List (String × Item)} (hlength : entries.length ≤ maxItems)
    (hnodup : (entries.map Prod.fst).Nodup) :
    mapItem? (inTurn (textEntries entries)) = some (.map (textEntries entries)) := by
  have hlast : lastOfEach Item.sameKey (textEntries entries) = textEntries entries := by
    apply lastOfEach_eq_self
    rw [textEntries, List.pairwise_map]
    rw [List.Nodup, List.pairwise_map] at hnodup
    apply hnodup.imp
    intro a b hne
    exact decide_eq_false hne.symm
  have hcount : (inTurn (textEntries entries)).length ≤ 2 * maxItems := by
    rw [length_inTurn, textEntries, List.length_map]
    omega
  have hkeys : (textEntries entries).all (fun entry => entry.1.isKey) = true := by
    simp [textEntries, Item.isKey]
  rw [mapItem?, inPairs_inTurn]
  simp only [Option.bind_eq_bind, Option.bind_some]
  rw [if_pos ⟨hcount, hkeys⟩, hlast]

theorem readsAs_map {levels : Nat} {written : List (List UInt8 × List UInt8)}
    {entries : List (String × Item)}
    (h : List.Forall₂ (fun w entry => ReadsAs levels w.1 (.text entry.1) ∧
      ReadsAs levels w.2 entry.2) written entries)
    (hlength : written.length ≤ maxItems) (hnodup : (entries.map Prod.fst).Nodup) :
    ReadsAs (levels + 1) (head 5 written.length ++ written.flatMap fun w => w.1 ++ w.2)
      (.map (textEntries entries)) := by
  intro rest
  have hall : List.Forall₂ (ReadsAs levels) (inTurn written) (inTurn (textEntries entries)) := by
    apply readsAs_inTurn
    rw [textEntries, List.forall₂_map_right_iff]
    exact h
  have hmap := mapItem?_inTurn (h.length_eq ▸ hlength) hnodup
  have hcount := readCount_of_readsAs hall rest
  rw [length_inTurn, flatten_inTurn] at hcount
  obtain ⟨hle, hcount⟩ := hcount
  obtain ⟨info, hlt, hread, hinfo⟩ := readHead_head (by decide : 5 < 7)
    ((written.flatMap fun w => w.1 ++ w.2) ++ rest) (lt_of_le_maxItems hlength)
  rw [List.append_assoc]
  refine ⟨Nat.lt_of_le_of_lt hle hlt, ?_⟩
  rw [readItem, hread]
  simp [hinfo, Nat.not_lt.mpr hlength, hcount, hmap]

theorem mem_inTurn {α : Type} {pairs : List (α × α)} {a : α} :
    a ∈ inTurn pairs ↔ ∃ pair ∈ pairs, a = pair.1 ∨ a = pair.2 := by
  simp [inTurn]

theorem refuses_map {levels : Nat} {written : List (List UInt8 × List UInt8)}
    (h : ∀ w ∈ inTurn written, (∃ item, ReadsAs levels w item) ∨ Refuses levels w)
    (hsome : ∃ w ∈ inTurn written, Refuses levels w) (hlength : written.length ≤ maxItems) :
    Refuses (levels + 1) (head 5 written.length ++ written.flatMap fun w => w.1 ++ w.2) := by
  intro rest
  have hcount := readCount_of_refuses h hsome rest
  rw [length_inTurn, flatten_inTurn] at hcount
  obtain ⟨info, hlt, hread, hinfo⟩ := readHead_head (by decide : 5 < 7)
    ((written.flatMap fun w => w.1 ++ w.2) ++ rest) (lt_of_le_maxItems hlength)
  rw [List.append_assoc, readItem, hread]
  simp [hinfo, Nat.not_lt.mpr hlength, hcount]

/-! ## Data -/

/-- Data without doubles that documents can hold: containers nest at most some levels deep and hold
    no more than the limit, and the length of every text fits into a head. -/
inductive Fits : Nat → Data → Prop
  | int (levels : Nat) (n : Int64) : Fits levels (.int n)
  | text (levels : Nat) {t : Text} (ht : t.bytes.length < Nat.pow 256 8) : Fits levels (.text t)
  | list {levels : Nat} {items : List Data} (hlength : items.length ≤ maxItems)
    (hitems : ∀ item ∈ items, Fits levels item) : Fits (levels + 1) (.list items)
  | map {levels : Nat} {entries : List (Text × Data)} (hlength : entries.length ≤ maxItems)
    (hkeys : ∀ key ∈ entries.map Prod.fst, key.bytes.length < Nat.pow 256 8)
    (hitems : ∀ item ∈ entries.map Prod.snd, Fits levels item) : Fits (levels + 1) (.map entries)

theorem writeItems_eq_map (items : List Data) : writeItems items = items.map write := by
  induction items with
  | nil => rfl
  | cons item items ih => rw [writeItems, ih, List.map_cons]

/-- A written key and value. -/
def writeEntry (entry : Text × Data) : List UInt8 × List UInt8 :=
  (writeText entry.1, write entry.2)

theorem writeEntries_eq_map (entries : List (Text × Data)) :
    writeEntries entries = entries.map writeEntry := by
  induction entries with
  | nil => rfl
  | cons entry entries ih => rw [writeEntries, ih, List.map_cons, writeEntry]

/-- The entries of a map in the order in which they are written. -/
def canonical (entries : List (Text × Data)) : List (Text × Data) :=
  entries.mergeSort fun a b => keyLe (writeText a.1) (writeText b.1)

theorem canonical_perm (entries : List (Text × Data)) : (canonical entries).Perm entries :=
  List.mergeSort_perm _ _

theorem write_map (entries : List (Text × Data)) :
    write (.map entries) = head 5 ((canonical entries).map writeEntry).length ++
      ((canonical entries).map writeEntry).flatMap fun w => w.1 ++ w.2 := by
  have hsorted : (canonical entries).map writeEntry =
      (entries.map writeEntry).mergeSort fun a b => keyLe a.1 b.1 :=
    List.map_mergeSort fun _ _ _ _ => rfl
  rw [write, writeEntries_eq_map, ← hsorted, List.length_map, (canonical_perm entries).length_eq]

theorem listData_eq_map (items : List Item) : listData items = items.map Item.toHostData := by
  induction items with
  | nil => rw [listData, List.map_nil]
  | cons item items ih => rw [listData, ih, List.map_cons]

theorem entryData_textEntries (entries : List (String × Item)) :
    entryData (textEntries entries) =
      (entries.map fun entry => ((entry.1 : Text), entry.2.toHostData)).map
        fun entry => (.text entry.1, entry.2) := by
  induction entries with
  | nil => rw [textEntries, List.map_nil, entryData, List.map_nil, List.map_nil]
  | cons entry entries ih =>
    rw [textEntries] at ih ⊢
    rw [List.map_cons, entryData, ih, List.map_cons, List.map_cons, Item.keyData, Item.toHostData]
    intro bs hbs
    cases hbs

/-- An entry of a map is read as an entry that stands for it. -/
structure ReadsEntry (levels : Nat) (entry : Text × Data) (read : String × Item) : Prop where
  key : entry.1 = read.1
  readsKey : ReadsAs levels (writeText entry.1) (.text read.1)
  readsValue : ReadsAs levels (write entry.2) read.2
  means : read.2.toHostData.Means entry.2

section Map

variable {levels : Nat} {entries : List (Text × Data)} {read : List (String × Item)}
  (h : List.Forall₂ (ReadsEntry levels) (canonical entries) read)
include h

theorem map_fst_read :
    (read.map fun entry => (entry.1 : Text)).Perm (entries.map Prod.fst) := by
  have hkeys : (canonical entries).map Prod.fst = read.map fun entry => (entry.1 : Text) := by
    rw [← List.forall₂_eq_eq_eq, List.forall₂_map_left_iff, List.forall₂_map_right_iff]
    exact h.imp fun _ _ hread => hread.key
  rw [← hkeys]
  exact (canonical_perm entries).map Prod.fst

theorem nodup_read (hnodup : (entries.map Prod.fst).Nodup) : (read.map Prod.fst).Nodup := by
  have htexts := (map_fst_read h).nodup_iff.mpr hnodup
  have hmap : (read.map fun entry => (entry.1 : Text)) = (read.map Prod.fst).map Text.ofString := by
    rw [List.map_map]
    rfl
  rw [hmap] at htexts
  exact htexts.of_map _

theorem readsAs_write_map (hlength : entries.length ≤ maxItems)
    (hnodup : (entries.map Prod.fst).Nodup) :
    ReadsAs (levels + 1) (write (.map entries)) (.map (textEntries read)) := by
  rw [write_map]
  apply readsAs_map
  · rw [List.forall₂_map_left_iff]
    exact h.imp fun _ _ hread => ⟨hread.readsKey, hread.readsValue⟩
  · rw [List.length_map, (canonical_perm entries).length_eq]
    exact hlength
  · exact nodup_read h hnodup

theorem means_map (hnodup : (entries.map Prod.fst).Nodup) :
    (Item.map (textEntries read)).toHostData.Means (.map entries) := by
  rw [Item.toHostData, entryData_textEntries]
  apply HostData.Means.keyedMap
  · rw [List.map_map]
    exact map_fst_read h
  · intro key x d hx hd
    obtain ⟨item, hitem, heq⟩ := List.mem_map.mp hx
    cases heq
    obtain ⟨entry, hentry, hread⟩ := exists_of_forall₂ h.flip hitem
    have hmem : entry ∈ entries := (canonical_perm entries).subset hentry
    cases List.inj_on_of_nodup_map hnodup hmem hd hread.key
    exact hread.means

end Map

/-- Written data of characters is read as an item that stands for it. -/
theorem exists_readsAs {d : Data} {levels : Nat} (hfits : Fits levels d)
    (hkeys : d.AllKeys List.Nodup) (hunicode : d.Unicode) :
    ∃ item, ReadsAs levels (write d) item ∧ item.toHostData.Means d := by
  induction d using Data.induct generalizing levels with
  | int n =>
    refine ⟨.int n.toInt, readsAs_int levels n.le_toInt n.toInt_lt, ?_⟩
    rw [Item.toHostData]
    by_cases hn : n.toInt < 0
    · rw [if_pos hn, Int64.ofInt_toInt]
      exact .int n
    · have hback : (UInt64.ofNat n.toInt.toNat).toInt64 = n := by
        rw [UInt64.toInt64_ofNat', ← Int64.ofInt_eq_ofNat, Int.toNat_of_nonneg (by omega),
          Int64.ofInt_toInt]
      rw [if_neg hn]
      nth_rewrite 2 [← hback]
      exact .unsigned _
  | double x => cases hfits
  | text t =>
    obtain _ | _ | ⟨s, hs⟩ := hunicode
    cases hfits with
    | text _ ht =>
      refine ⟨.text s, readsAs_text levels ht hs, ?_⟩
      rw [Item.toHostData, hs]
      exact .text s
  | list items ih =>
    cases hfits with
    | list hlength hitems =>
      obtain _ | _ | _ | hinner | _ := hkeys
      obtain _ | _ | _ | hunicode | _ := hunicode
      obtain ⟨read, hread⟩ := exists_forall₂ fun item hitem =>
        ih item hitem (hitems item hitem) (hinner item hitem) (hunicode item hitem)
      refine ⟨.list read, ?_, ?_⟩
      · have hlist := readsAs_list (List.forall₂_map_left_iff.mpr (hread.imp fun _ _ h => h.1))
          (by rwa [List.length_map])
        rwa [write, writeItems_eq_map, ← List.length_map write]
      · rw [Item.toHostData, listData_eq_map]
        refine .list (List.forall₂_map_left_iff.mpr ?_)
        exact (hread.imp fun _ _ h => h.2).flip
  | map entries ih =>
    cases hfits with
    | @map levels _ hlength hlengths hitems =>
      obtain _ | _ | _ | _ | ⟨hnodup, hinner⟩ := hkeys
      obtain _ | _ | _ | _ | ⟨hnames, hunicode⟩ := hunicode
      have hentries : ∀ entry ∈ canonical entries, ∃ read, ReadsEntry levels entry read := by
        intro entry hentry
        have hmem : entry ∈ entries := (canonical_perm entries).subset hentry
        have hname : entry.1 ∈ entries.map Prod.fst := List.mem_map_of_mem hmem
        have hitem : entry.2 ∈ entries.map Prod.snd := List.mem_map_of_mem hmem
        obtain ⟨key, hkey⟩ := hnames _ hname
        obtain ⟨item, hread, hmeans⟩ :=
          ih entry.2 hitem (hitems _ hitem) (hinner _ hitem) (hunicode _ hitem)
        exact ⟨(key, item), hkey, readsAs_text levels (hlengths _ hname) hkey, hread, hmeans⟩
      obtain ⟨read, hread⟩ := exists_forall₂ hentries
      exact ⟨_, readsAs_write_map hread hlength hnodup, means_map hread hnodup⟩

/-- A text is read back or not, wherever it stands. -/
theorem writeText_reads_or_refuses (levels : Nat) {t : Text}
    (ht : t.bytes.length < Nat.pow 256 8) :
    (∃ item, ReadsAs levels (writeText t) item) ∨ Refuses levels (writeText t) := by
  by_cases hunicode : t.IsUnicode
  · obtain ⟨s, hs⟩ := hunicode
    exact .inl ⟨.text s, readsAs_text levels ht hs⟩
  · exact .inr (refuses_text levels ht hunicode)

theorem write_reads_or_refuses {d : Data} {levels : Nat} (hfits : Fits levels d)
    (hkeys : d.AllKeys List.Nodup) (h : ¬ d.Unicode → Refuses levels (write d)) :
    (∃ item, ReadsAs levels (write d) item) ∨ Refuses levels (write d) := by
  by_cases hunicode : d.Unicode
  · obtain ⟨item, hread, -⟩ := exists_readsAs hfits hkeys hunicode
    exact .inl ⟨item, hread⟩
  · exact .inr (h hunicode)

/-- Written data is not read if a text or a key in it is no text of characters. -/
theorem refuses_of_not_unicode {d : Data} {levels : Nat} (hfits : Fits levels d)
    (hkeys : d.AllKeys List.Nodup) (hnot : ¬ d.Unicode) : Refuses levels (write d) := by
  induction d using Data.induct generalizing levels with
  | int n => exact absurd (.int n) hnot
  | double x => exact absurd (.double x) hnot
  | text t =>
    obtain _ | ⟨_, ht⟩ := hfits
    exact refuses_text levels ht fun h => hnot (.text h)
  | list items ih =>
    obtain _ | _ | @⟨levels, _, hlength, hitems⟩ := hfits
    obtain _ | _ | _ | hinner | _ := hkeys
    have hrefuses (item : Data) (hitem : item ∈ items) (h : ¬ item.Unicode) :=
      ih item hitem (hitems item hitem) (hinner item hitem) h
    have hsome : ∃ item ∈ items, ¬ item.Unicode := by
      by_contra hall
      refine hnot (.list fun item hitem => ?_)
      exact not_not.mp fun h => hall ⟨item, hitem, h⟩
    obtain ⟨item, hitem, hunicode⟩ := hsome
    rw [write, writeItems_eq_map, ← List.length_map write]
    refine refuses_list (List.forall_mem_map.mpr fun item hitem => ?_) ?_
      (by rwa [List.length_map])
    · exact write_reads_or_refuses (hitems item hitem) (hinner item hitem) (hrefuses item hitem)
    · exact ⟨write item, List.mem_map_of_mem hitem, hrefuses item hitem hunicode⟩
  | map entries ih =>
    obtain _ | _ | _ | @⟨levels, _, hlength, hlengths, hitems⟩ := hfits
    obtain _ | _ | _ | _ | ⟨-, hinner⟩ := hkeys
    have hrefuses (item : Data) (hitem : item ∈ entries.map Prod.snd) (h : ¬ item.Unicode) :=
      ih item hitem (hitems item hitem) (hinner item hitem) h
    have hwritten {entry : Text × Data} (hentry : entry ∈ entries) :
        writeEntry entry ∈ (canonical entries).map writeEntry :=
      List.mem_map_of_mem ((canonical_perm entries).mem_iff.mpr hentry)
    rw [write_map]
    refine refuses_map ?_ ?_ (by rwa [List.length_map, (canonical_perm entries).length_eq])
    · intro w hw
      obtain ⟨_, hpair, hw⟩ := mem_inTurn.mp hw
      obtain ⟨entry, hentry, rfl⟩ := List.mem_map.mp hpair
      have hmem : entry ∈ entries := (canonical_perm entries).subset hentry
      have hitem : entry.2 ∈ entries.map Prod.snd := List.mem_map_of_mem hmem
      rcases hw with rfl | rfl
      · exact writeText_reads_or_refuses levels (hlengths _ (List.mem_map_of_mem hmem))
      · exact write_reads_or_refuses (hitems _ hitem) (hinner _ hitem) (hrefuses _ hitem)
    · by_cases hnames : ∀ key ∈ entries.map Prod.fst, key.IsUnicode
      · have hsome : ∃ item ∈ entries.map Prod.snd, ¬ item.Unicode := by
          by_contra hall
          refine hnot (.map hnames fun item hitem => ?_)
          exact not_not.mp fun h => hall ⟨item, hitem, h⟩
        obtain ⟨item, hitem, hunicode⟩ := hsome
        obtain ⟨entry, hentry, rfl⟩ := List.mem_map.mp hitem
        exact ⟨_, mem_inTurn.mpr ⟨_, hwritten hentry, .inr rfl⟩, hrefuses _ hitem hunicode⟩
      · simp only [not_forall] at hnames
        obtain ⟨key, hkey, hunicode⟩ := hnames
        obtain ⟨entry, hentry, rfl⟩ := List.mem_map.mp hkey
        exact ⟨_, mem_inTurn.mpr ⟨_, hwritten hentry, .inl rfl⟩,
          refuses_text levels (hlengths _ hkey) hunicode⟩

theorem read?_of_readsAs {bytes : List UInt8} {item : Item} (h : ReadsAs maxLevels bytes item) :
    read? bytes = some item.toHostData := by
  have hwhole := h []
  rw [List.append_nil] at hwhole
  obtain ⟨hlt, hread⟩ := hwhole
  rw [read?, hread]
  rfl

theorem read?_of_refuses {bytes : List UInt8} (h : Refuses maxLevels bytes) :
    read? bytes = none := by
  have hwhole := h []
  rw [List.append_nil] at hwhole
  rw [read?, hwhole]

/-- What is written of a value without doubles is read back, if all texts in it are texts of
    characters, as an equal value of the same kinds, with the members of every object in the order
    of their keys; if not, what is written is refused. -/
theorem decode_encode {s : Store} {v : Value} {d : Data} (h : s.Holds v d)
    (hfits : Fits maxLevels d) :
    ∃ bytes, encode s v = .ok bytes ∧
      (d.Unicode → ∃ w t, decode bytes s = .ok (w, t) ∧ t.equal? w v = some true ∧
        ∃ d', t.Holds w d' ∧ d.Alike d' ∧ d'.AllKeys Ascending) ∧
      (¬ d.Unicode → decode bytes s = .error .invalidCbor) := by
  have hkeys := h.allKeys_nodup
  refine ⟨write d, ?_, fun hunicode => ?_, fun hnot => ?_⟩
  · rw [encode, h.data_eq]
    rfl
  · obtain ⟨item, hread, hmeans⟩ := exists_readsAs hfits hkeys hunicode
    obtain ⟨w, t, hw, hst, d', hholds, halike, hordered⟩ := hmeans.makes hkeys s
    refine ⟨w, t, ?_, ?_, d', hholds, halike, hordered⟩
    · rw [decode, read?_of_readsAs hread]
      exact hw
    · exact hholds.equal?_of_alike (h.mono hst) halike.symm
  · rw [decode, read?_of_refuses (refuses_of_not_unicode hfits hkeys hnot)]
    rfl

/-- An object that lists its members by the length of their keys, with an array inside. -/
def nestedRecord : Store where
  arrays := #[#[.int (-1), .text "x"]]
  objects := #[.ofList [("b", .int 1000), ("aa", .array 0)]]

def nestedRecordData : Data := .map [("b", .int 1000), ("aa", .list [.int (-1), .text "x"])]

theorem holds_nestedRecord : nestedRecord.Holds (.object 0) nestedRecordData := by
  have harray : nestedRecord.Holds (.array 0) (.list [.int (-1), .text "x"]) :=
    .array rfl (.cons (.int (-1)) (.cons (.text "x") .nil))
  exact .object rfl (.ofList _) rfl (.cons (.int 1000) (.cons harray .nil))

theorem fits_nestedRecordData : Fits maxLevels nestedRecordData := by
  have hlist : Fits 31 (.list [.int (-1), .text "x"]) := by
    refine .list (by decide) ?_
    rw [List.forall_mem_cons, List.forall_mem_singleton]
    exact ⟨.int _ _, .text _ (by decide +kernel)⟩
  refine Fits.map (by decide) (by decide +kernel) ?_
  rw [List.map_cons, List.map_cons, List.map_nil, List.forall_mem_cons, List.forall_mem_singleton]
  exact ⟨.int _ _, hlist⟩

theorem unicode_nestedRecordData : nestedRecordData.Unicode := by
  have hlist : (Data.list [.int (-1), .text "x"]).Unicode := by
    refine .list ?_
    rw [List.forall_mem_cons, List.forall_mem_singleton]
    exact ⟨.int _, .text ⟨"x", rfl⟩⟩
  refine .map ?_ ?_
  · rw [List.map_cons, List.map_cons, List.map_nil, List.forall_mem_cons, List.forall_mem_singleton]
    exact ⟨⟨"b", rfl⟩, ⟨"aa", rfl⟩⟩
  · rw [List.map_cons, List.map_cons, List.map_nil, List.forall_mem_cons, List.forall_mem_singleton]
    exact ⟨.int _, hlist⟩

theorem decode_encode_nestedRecord :
    nestedRecord.Holds (.object 0) nestedRecordData ∧ Fits maxLevels nestedRecordData ∧
      ∃ bytes w t, encode nestedRecord (.object 0) = .ok bytes ∧
        decode bytes nestedRecord = .ok (w, t) ∧ t.equal? w (.object 0) = some true ∧
        ∃ d', t.Holds w d' ∧ nestedRecordData.Alike d' ∧ d'.AllKeys Ascending := by
  obtain ⟨bytes, hbytes, hback, -⟩ := decode_encode holds_nestedRecord fits_nestedRecordData
  obtain ⟨w, t, hread⟩ := hback unicode_nestedRecordData
  exact ⟨holds_nestedRecord, fits_nestedRecordData, bytes, w, t, hbytes, hread⟩

/-- A byte string becomes a text that need not be a text of characters. Such a text keeps all
    limits and is written, but what is written is refused. -/
theorem decode_encode_refused :
    decode [0x41, 0xFF] {} = .ok (.text ⟨[0xFF]⟩, {}) ∧ Fits maxLevels (.text ⟨[0xFF]⟩) ∧
      encode {} (.text ⟨[0xFF]⟩) = .ok [0x61, 0xFF] ∧
      decode [0x61, 0xFF] {} = .error .invalidCbor := by
  have hread : read? [0x41, 0xFF] = some (.text ⟨[0xFF]⟩) := by
    have hitem : readItem maxLevels .start [0x41, 0xFF] =
        some ⟨.bytes [0xFF], [], by decide⟩ := by
      rw [readItem]
      rfl
    simp only [read?, hitem, List.isEmpty_nil, if_true, Item.toHostData]
  have hnone : read? [0x61, 0xFF] = none := by
    rw [read?, readItem]
    rfl
  refine ⟨?_, .text _ (by decide), rfl, ?_⟩
  · rw [decode, hread]
    rfl
  · rw [decode, hnone]
    rfl

end Cbor

end ExprLang
