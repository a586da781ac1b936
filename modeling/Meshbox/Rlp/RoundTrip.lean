/-
This file proves that the slice-level reader of rlp/raw.go takes back what the
writer of rlp/encode.go writes: Split of an encoded string or list followed by
any bytes gives the kind, the content and exactly those bytes, and CountValues
of the concatenated elements of a list counts them. Every header the writer
produces is canonical, so none of the reader's rejections applies. Payload
sizes are below 2^64, as the writer's uint64 sizes are.
-/

import Meshbox.Rlp.Raw

namespace Meshbox.Rlp

/-! ### Header bytes -/

/-- A tag byte plus a size that does not carry past the byte. -/
theorem toNat_add_ofNat {tag : UInt8} {size : Nat} (fits : tag.toNat + size < 256) :
    (tag + UInt8.ofNat size).toNat = tag.toNat + size := by
  simp only [UInt8.toNat_add, UInt8.toNat_ofNat']
  omega

/-- The tag byte minus its base gives back the size. -/
theorem toNat_sub_base {tag base : UInt8} {size : Nat} (tagged : tag.toNat = base.toNat + size) :
    (tag - base).toNat = size := by
  rw [UInt8.toNat_sub_of_le _ _ (by rw [UInt8.le_iff_toNat_le]; omega)]
  omega

/-- The shortest big-endian string of a size of at least 56 and below 2^64 has
one to eight bytes. -/
theorem length_toBytes_bounds {size : Nat} (large : 56 ≤ size) (bound : size < 2 ^ 64) :
    1 ≤ (BigEndian.toBytes size).length ∧ (BigEndian.toBytes size).length ≤ 8 := by
  constructor
  · have nonempty : BigEndian.toBytes size ≠ [] := by
      rw [ne_eq, BigEndian.toBytes_eq_nil_iff]
      omega
    exact List.length_pos_iff.mpr nonempty
  · exact BigEndian.length_toBytes_le (by simpa using bound)

/-- readSize reads back the shortest string of a size of at least 56. -/
theorem readSize_toBytes {size : Nat} (large : 56 ≤ size) (more : List UInt8) :
    readSize (BigEndian.toBytes size ++ more) (BigEndian.toBytes size).length = .ok size := by
  have positive : size ≠ 0 := by omega
  have leading : (BigEndian.toBytes size ++ more).head? ≠ some 0 := by
    cases split : BigEndian.toBytes size with
    | nil => exact absurd ((BigEndian.toBytes_eq_nil_iff size).mp split) positive
    | cons first rest =>
      simp only [List.cons_append, List.head?_cons, ne_eq, Option.some.injEq]
      exact BigEndian.head_toBytes_ne_zero positive first rest split
  unfold readSize
  rw [if_neg (by simp), List.take_left' rfl, BigEndian.ofBytes_toBytes]
  simp only
  rw [if_neg (by rintro (small | zero) <;> [omega; exact leading zero])]

/-! ### The ranges of header bytes -/

section Ranges

variable {b : UInt8} (rest : List UInt8)

theorem readHeader_of_byte (low : b.toNat < 0x80) : readHeader b rest = .ok (.Byte, 0, 1) := by
  unfold readHeader
  simp only [UInt8.lt_iff_toNat_lt, UInt8.reduceToNat]
  rw [if_pos low]

theorem readHeader_of_string (low : 0x80 ≤ b.toNat) (high : b.toNat < 0xB8) :
    readHeader b rest = if (b - 0x80).toNat = 1 ∧ rest.head?.any (fun next => next < 128) then
      .error .canonSize else .ok (.String, 1, (b - 0x80).toNat) := by
  unfold readHeader
  simp only [UInt8.lt_iff_toNat_lt, UInt8.reduceToNat]
  rw [if_neg (by omega), if_pos high]

theorem readHeader_of_long_string (low : 0xB8 ≤ b.toNat) (high : b.toNat < 0xC0) :
    readHeader b rest =
      (readSize rest (b - 0xB7).toNat).map fun size => (.String, (b - 0xB7).toNat + 1, size) := by
  unfold readHeader
  simp only [UInt8.lt_iff_toNat_lt, UInt8.reduceToNat]
  rw [if_neg (by omega), if_neg (by omega), if_pos high]

theorem readHeader_of_list (low : 0xC0 ≤ b.toNat) (high : b.toNat < 0xF8) :
    readHeader b rest = .ok (.List, 1, (b - 0xC0).toNat) := by
  unfold readHeader
  simp only [UInt8.lt_iff_toNat_lt, UInt8.reduceToNat]
  rw [if_neg (by omega), if_neg (by omega), if_neg (by omega), if_pos high]

theorem readHeader_of_long_list (low : 0xF8 ≤ b.toNat) :
    readHeader b rest =
      (readSize rest (b - 0xF7).toNat).map fun size => (.List, (b - 0xF7).toNat + 1, size) := by
  unfold readHeader
  simp only [UInt8.lt_iff_toNat_lt, UInt8.reduceToNat]
  rw [if_neg (by omega), if_neg (by omega), if_neg (by omega), if_neg (by omega)]

end Ranges

/-! ### Reading the writer's headers -/

section Headers

variable {size : Nat}

theorem readHeader_short_string (short : size < 56) (rest : List UInt8)
    (canonical : ¬ (size = 1 ∧ rest.head?.any (fun next => next < 128))) :
    readHeader (0x80 + UInt8.ofNat size) rest = .ok (.String, 1, size) := by
  have tag : (0x80 + UInt8.ofNat size : UInt8).toNat = 0x80 + size :=
    toNat_add_ofNat (by simp; omega)
  have offset : ((0x80 + UInt8.ofNat size : UInt8) - 0x80).toNat = size := toNat_sub_base (by simp [tag])
  rw [readHeader_of_string rest (by omega) (by omega), offset, if_neg canonical]

theorem readHeader_long_string (large : 56 ≤ size) (bound : size < 2 ^ 64) (more : List UInt8) :
    readHeader (0xB7 + UInt8.ofNat (BigEndian.toBytes size).length) (BigEndian.toBytes size ++ more) =
      .ok (.String, (BigEndian.toBytes size).length + 1, size) := by
  obtain ⟨atLeastOne, atMostEight⟩ := length_toBytes_bounds large bound
  have tag : (0xB7 + UInt8.ofNat (BigEndian.toBytes size).length : UInt8).toNat =
      0xB7 + (BigEndian.toBytes size).length := toNat_add_ofNat (by simp; omega)
  have offset : ((0xB7 + UInt8.ofNat (BigEndian.toBytes size).length : UInt8) - 0xB7).toNat =
      (BigEndian.toBytes size).length := toNat_sub_base (by simp [tag])
  rw [readHeader_of_long_string _ (by omega) (by omega), offset, readSize_toBytes large]
  rfl

theorem readHeader_short_list (short : size < 56) (rest : List UInt8) :
    readHeader (0xC0 + UInt8.ofNat size) rest = .ok (.List, 1, size) := by
  have tag : (0xC0 + UInt8.ofNat size : UInt8).toNat = 0xC0 + size :=
    toNat_add_ofNat (by simp; omega)
  have offset : ((0xC0 + UInt8.ofNat size : UInt8) - 0xC0).toNat = size := toNat_sub_base (by simp [tag])
  rw [readHeader_of_list rest (by omega) (by omega), offset]

theorem readHeader_long_list (large : 56 ≤ size) (bound : size < 2 ^ 64) (more : List UInt8) :
    readHeader (0xF7 + UInt8.ofNat (BigEndian.toBytes size).length) (BigEndian.toBytes size ++ more) =
      .ok (.List, (BigEndian.toBytes size).length + 1, size) := by
  obtain ⟨atLeastOne, atMostEight⟩ := length_toBytes_bounds large bound
  have tag : (0xF7 + UInt8.ofNat (BigEndian.toBytes size).length : UInt8).toNat =
      0xF7 + (BigEndian.toBytes size).length := toNat_add_ofNat (by simp; omega)
  have offset : ((0xF7 + UInt8.ofNat (BigEndian.toBytes size).length : UInt8) - 0xF7).toNat =
      (BigEndian.toBytes size).length := toNat_sub_base (by simp [tag])
  rw [readHeader_of_long_list _ (by omega), offset, readSize_toBytes large]
  rfl

end Headers

/-! ### Splitting a header off -/

/-- Where the header of the first value lies within the input, Split gives the
content after it and the bytes after the content. -/
theorem Split_of_readKind {header payload more : List UInt8} {kind : Kind}
    (read : readKind (header ++ payload ++ more) = .ok (kind, header.length, payload.length)) :
    Split (header ++ payload ++ more) = .ok (kind, payload, more) := by
  unfold Split
  rw [read]
  simp [List.append_assoc, List.drop_append]

/-- readKind accepts a header whose content lies within the input. -/
theorem readKind_of_readHeader {tag : UInt8} {sizeBytes payload more : List UInt8} {kind : Kind}
    (read : readHeader tag (sizeBytes ++ payload ++ more) = .ok (kind, sizeBytes.length + 1, payload.length)) :
    readKind ((tag :: sizeBytes) ++ payload ++ more) = .ok (kind, sizeBytes.length + 1, payload.length) := by
  unfold readKind
  simp only [List.cons_append]
  rw [read]
  simp only [List.length_cons, List.length_append]
  rw [if_neg (by omega)]

/-! ### Reading what the writer wrote -/

theorem puthead_short {smalltag largetag : UInt8} {size : Nat} (short : size < 56) :
    puthead smalltag largetag size = [smalltag + UInt8.ofNat size] := by
  rw [puthead, if_pos short]

theorem puthead_long {smalltag largetag : UInt8} {size : Nat} (large : ¬ size < 56) :
    puthead smalltag largetag size =
      (largetag + UInt8.ofNat (BigEndian.toBytes size).length) :: BigEndian.toBytes size := by
  rw [puthead, if_neg large]

/-- A string header read back, unless it wraps a single byte below 0x80, which
the reader rejects. -/
theorem readKind_puthead_string {payload : List UInt8} (more : List UInt8) (bound : payload.length < 2 ^ 64)
    (canonical : ¬ (payload.length = 1 ∧ payload.head?.any (fun next => next < 128))) :
    readKind (puthead 0x80 0xB7 payload.length ++ payload ++ more) =
      .ok (.String, (puthead 0x80 0xB7 payload.length).length, payload.length) := by
  by_cases short : payload.length < 56
  · rw [puthead_short short]
    apply @readKind_of_readHeader _ [] _ _ _
    refine readHeader_short_string short _ fun ⟨single, small⟩ => canonical ⟨single, ?_⟩
    obtain ⟨byte, rfl⟩ := List.length_eq_one_iff.mp single
    simpa using small
  · rw [puthead_long short]
    apply readKind_of_readHeader
    rw [List.append_assoc]
    exact readHeader_long_string (by omega) bound _

theorem readKind_puthead_list {payload : List UInt8} (more : List UInt8) (bound : payload.length < 2 ^ 64) :
    readKind (puthead 0xC0 0xF7 payload.length ++ payload ++ more) =
      .ok (.List, (puthead 0xC0 0xF7 payload.length).length, payload.length) := by
  by_cases short : payload.length < 56
  · rw [puthead_short short]
    exact @readKind_of_readHeader _ [] _ _ _ (readHeader_short_list short _)
  · rw [puthead_long short]
    apply readKind_of_readHeader
    rw [List.append_assoc]
    exact readHeader_long_list (by omega) bound _

/-- The header of an encoded string read back: a single byte below 0x80 is its
own encoding, of kind Byte; any other string has a string header. -/
theorem readKind_encodeString (bytes more : List UInt8) (bound : bytes.length < 2 ^ 64) :
    ∃ kind, kind ≠ .List ∧ (bytes.length ≠ 1 → kind = .String) ∧
      readKind (encodeString bytes ++ more) =
        .ok (kind, (encodeString bytes).length - bytes.length, bytes.length) := by
  match bytes with
  | [byte] =>
    by_cases small : byte ≤ 0x7F
    · refine ⟨.Byte, by decide, by simp, ?_⟩
      have below : byte.toNat < 0x80 := by
        rw [UInt8.le_iff_toNat_le] at small
        simp at small
        omega
      simp only [encodeString, if_pos small, List.cons_append, List.nil_append, readKind,
        readHeader_of_byte _ below]
      simp
    · refine ⟨.String, by decide, fun _ => rfl, ?_⟩
      have large : ¬ byte < 128 := by
        rw [UInt8.le_iff_toNat_le] at small
        rw [UInt8.lt_iff_toNat_lt]
        simp at small ⊢
        omega
      have read := @readKind_puthead_string [byte] more (by simp) (by simp [large])
      simp only [List.length_singleton] at read
      simp only [encodeString, if_neg small]
      rw [read]
      simp [puthead_short (show 1 < 56 by decide)]
  | [] =>
    refine ⟨.String, by decide, fun _ => rfl, ?_⟩
    have read := @readKind_puthead_string [] more (by simp) (by simp)
    simp only [encodeString]
    rw [read]
    simp [puthead_short (show 0 < 56 by decide)]
  | first :: second :: rest =>
    refine ⟨.String, by decide, fun _ => rfl, ?_⟩
    have read := @readKind_puthead_string (first :: second :: rest) more bound (by simp)
    simp only [encodeString]
    rw [read]
    simp

/-- Split of an encoded string: the string and what follows it. -/
theorem Split_encodeString (bytes more : List UInt8) (bound : bytes.length < 2 ^ 64) :
    ∃ kind, kind ≠ .List ∧ (bytes.length ≠ 1 → kind = .String) ∧
      Split (encodeString bytes ++ more) = .ok (kind, bytes, more) := by
  obtain ⟨kind, notList, notSingle, read⟩ := readKind_encodeString bytes more bound
  refine ⟨kind, notList, notSingle, ?_⟩
  obtain ⟨header, split⟩ : ∃ header, encodeString bytes = header ++ bytes := by
    unfold encodeString
    split
    · split
      · exact ⟨[], rfl⟩
      · exact ⟨_, rfl⟩
    · exact ⟨_, rfl⟩
  rw [split] at read ⊢
  apply Split_of_readKind
  rw [read]
  simp

theorem SplitString_encodeString (bytes more : List UInt8) (bound : bytes.length < 2 ^ 64) :
    SplitString (encodeString bytes ++ more) = .ok (bytes, more) := by
  obtain ⟨kind, notList, -, split⟩ := Split_encodeString bytes more bound
  rw [SplitString, split]
  simp [notList]

/-- Split of an encoded list: the concatenated elements and what follows. -/
theorem Split_encode_list (items : List Item) (more : List UInt8)
    (bound : (encodeList items).length < 2 ^ 64) :
    Split ((Item.list items).encode ++ more) = .ok (.List, encodeList items, more) := by
  rw [Item.encode]
  exact Split_of_readKind (readKind_puthead_list more bound)

theorem SplitList_encode_list (items : List Item) (more : List UInt8)
    (bound : (encodeList items).length < 2 ^ 64) :
    SplitList ((Item.list items).encode ++ more) = .ok (encodeList items, more) := by
  rw [SplitList, Split_encode_list items more bound]
  rfl

/-! ### Counting the elements of a list -/

/-- The size an item's header announces. -/
def Item.payloadLength : Item → Nat
  | .str bytes => bytes.length
  | .list items => (encodeList items).length

/-- The payload an item's header announces is part of its encoding. -/
theorem payloadLength_le (item : Item) : item.payloadLength ≤ item.encode.length := by
  cases item with
  | str bytes =>
    rw [Item.payloadLength, Item.encode]
    unfold encodeString
    split
    · split <;> simp
    · simp
  | list items =>
    rw [Item.payloadLength, Item.encode, List.length_append]
    omega

/-- The header of an encoded item covers exactly its encoding. -/
theorem readKind_encode (item : Item) (more : List UInt8) (bound : item.payloadLength < 2 ^ 64) :
    ∃ kind tagsize size, readKind (item.encode ++ more) = .ok (kind, tagsize, size) ∧
      tagsize + size = item.encode.length := by
  cases item with
  | str bytes =>
    obtain ⟨kind, -, -, read⟩ := readKind_encodeString bytes more bound
    refine ⟨kind, _, _, read, ?_⟩
    have longer := payloadLength_le (.str bytes)
    rw [Item.payloadLength, Item.encode] at longer
    rw [Item.encode]
    omega
  | list items =>
    refine ⟨.List, _, _, readKind_puthead_list more bound, ?_⟩
    rw [Item.encode, List.length_append]

theorem encodeList_append (first second : List Item) :
    encodeList (first ++ second) = encodeList first ++ encodeList second := by
  induction first with
  | nil => rfl
  | cons item rest inductionHypothesis =>
    rw [List.cons_append, encodeList, encodeList, inductionHypothesis, List.append_assoc]

/-- CountValues counts the elements of an encoded list. -/
theorem CountValues_encodeList (items : List Item) (bounds : ∀ item ∈ items, item.payloadLength < 2 ^ 64) :
    CountValues (encodeList items) = .ok items.length := by
  induction items with
  | nil =>
    rw [encodeList, CountValues]
    rfl
  | cons item rest inductionHypothesis =>
    obtain ⟨kind, tagsize, size, read, covers⟩ :=
      readKind_encode item (encodeList rest) (bounds item List.mem_cons_self)
    rw [encodeList]
    cases split : item.encode ++ encodeList rest with
    | nil => rw [split] at read; cases read
    | cons first tail =>
      rw [split] at read
      rw [CountValues_of_readKind read, ← split, covers, List.drop_left,
        inductionHypothesis (fun other member => bounds other (List.mem_cons_of_mem _ member))]
      rfl

end Meshbox.Rlp
