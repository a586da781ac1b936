/-
This file proves that the stream decoder of rlp/decode.go and the encbuf
encoder of rlp/encode.go are inverse to each other over every item tree.
Decoding an encoded item into an interface{} gives the item back and reads
exactly its encoding, whatever follows it; and whatever decodeInterface
accepts is the encoding of what it returns, since every header it reads is
checked to be the one the writer writes. Together they give the round trip of
EncodeToBytes and DecodeBytes in both directions.

Both directions follow decodeInterface along the tree, by induction on its
budget: a string is its header and contents, a list is its header and the
elements its loop decodes until Kind reports EOL at the end of the list's
content. The element loop is proved once for any element decoder that reads
items and reports EOL only at the end of its list.
-/

import Meshbox.Rlp.Stream
import Meshbox.Rlp.Encbuf

namespace Meshbox.Rlp

/-! ### Lengths of encodings -/

theorem puthead_ne_nil (smalltag largetag : UInt8) (size : Nat) :
    puthead smalltag largetag size ≠ [] := by
  unfold puthead
  split <;> simp

theorem encodeString_ne_nil (bytes : List UInt8) : encodeString bytes ≠ [] := by
  unfold encodeString
  split
  · split <;> simp [puthead_ne_nil]
  · simp [puthead_ne_nil]

theorem one_le_length_encode (item : Item) : 1 ≤ item.encode.length := by
  cases item with
  | str bytes =>
    rw [Item.encode]
    exact List.length_pos_iff.mpr (encodeString_ne_nil bytes)
  | list items =>
    rw [Item.encode, List.length_append]
    have := List.length_pos_iff.mpr (puthead_ne_nil 0xC0 0xF7 (encodeList items).length)
    omega

theorem length_encode_le_encodeList {items : List Item} {item : Item} (member : item ∈ items) :
    item.encode.length ≤ (encodeList items).length := by
  induction items with
  | nil => cases member
  | cons first rest inductionHypothesis =>
    rw [encodeList, List.length_append]
    rcases List.mem_cons.mp member with rfl | later
    · omega
    · have := inductionHypothesis later
      omega

theorem length_le_encodeList (items : List Item) : items.length ≤ (encodeList items).length := by
  induction items with
  | nil => simp [encodeList]
  | cons first rest inductionHypothesis =>
    rw [encodeList, List.length_append, List.length_cons]
    have := one_le_length_encode first
    omega

/-- A list's header adds at least one byte to its elements. -/
theorem length_encodeList_lt (items : List Item) :
    (encodeList items).length < (Item.list items).encode.length := by
  rw [Item.encode, List.length_append, puthead]
  split <;> simp

/-- A single byte below 0x80 is its own encoding. -/
theorem encodeString_single {b : UInt8} (small : b.toNat < 0x80) : encodeString [b] = [b] := by
  have low : b ≤ 0x7F := by rw [UInt8.le_iff_toNat_le]; simp; omega
  simp [encodeString, low]

/-- Every other string is encoded after a string header. -/
theorem encodeString_eq_header {bytes : List UInt8}
    (canonical : ¬ (bytes.length = 1 ∧ bytes.head?.any (fun first => first < 128))) :
    encodeString bytes = header .String bytes.length ++ bytes := by
  match bytes with
  | [b] =>
    have large : ¬ b ≤ 0x7F := by
      rw [UInt8.le_iff_toNat_le]
      simp only [List.length_singleton, List.head?_cons, Option.any_some, decide_eq_true_eq,
        true_and, UInt8.lt_iff_toNat_lt] at canonical
      simp at canonical ⊢
      omega
    simp [encodeString, large, header]
  | [] => simp [encodeString, header]
  | first :: second :: rest => simp [encodeString, header]

/-! ### Reading a list's content -/

/-- Reading a list's whole content inside the list's frame, and then leaving
the list, reads the content in the enclosing list. -/
theorem Reads.pop {s s' : Stream} {bytes : List UInt8} {size : Nat}
    (reads : Reads { s with stack := ⟨0, size⟩ :: s.stack, kind := none, size := 0 } bytes s') :
    s'.stack = ⟨bytes.length, size⟩ :: s.stack ∧
      Reads s bytes { s' with stack := advanceTop s.stack bytes.length, kind := none, size := 0 } := by
  refine ⟨by simp [reads.stack, advanceTop], reads.input, reads.limited, reads.remaining, rfl⟩

/-- A list whose content is at least one byte is not used up. -/
theorem not_atEOL_of_room {s : Stream} {n : Nat} (room : s.Room n) (positive : 0 < n) : ¬ s.AtEOL := by
  rintro ⟨tos, rest, stack, atEnd⟩
  have := room.1 tos (by simp [stack])
  omega

section Elements

variable {α : Type} {elemdec : Stream → Option (Result α)}

/-- The element loop never passes EOL on: it ends the loop. -/
theorem decodeSliceElems_error :
    ∀ fuel s s' (err : StreamError), decodeSliceElems elemdec fuel s = some (.error err s') → err ≠ .EOL := by
  intro fuel
  induction fuel with
  | zero =>
    intro s s' err result
    cases result
  | succ fuel inductionHypothesis =>
    intro s s' err result
    simp only [decodeSliceElems] at result
    split at result
    · cases result
    · cases result
    · rename_i err' s₁ notEOL _
      cases result
      exact notEOL
    · split at result
      · cases result
      · exact inductionHypothesis _ _ _ result

/-- The loop decodes the elements of a list whose remaining content is their
encodings, when elemdec reads each element and reports EOL at the end of its
list. Induction on the elements: each one reads its encoding and leaves the
rest of the content in the innermost list. -/
theorem decodeSliceElems_encode {elemdec : Stream → Option (Result Item)} (items : List Item)
    (decodes : ∀ item ∈ items, ∀ s more, s.kind = none → s.r = item.encode ++ more →
      s.Room item.encode.length →
        ∃ s', elemdec s = some (.ok item s') ∧ Reads s item.encode s' ∧ s'.kind = none)
    (ends : ∀ s, s.kind = none → s.AtEOL → elemdec s = some (.error .EOL { s with kinderr := none })) :
    ∀ fuel, items.length < fuel → ∀ s more tos rest, s.kind = none →
      s.r = encodeList items ++ more → s.Room (encodeList items).length → s.stack = tos :: rest →
      tos.pos + (encodeList items).length = tos.size →
      ∃ s', decodeSliceElems elemdec fuel s = some (.ok items s') ∧ Reads s (encodeList items) s' ∧
        s'.kind = none := by
  induction items with
  | nil =>
    intro fuel enough s more tos rest rearmed _ _ stack atEnd
    obtain ⟨fuel, rfl⟩ : ∃ previous, fuel = previous + 1 := ⟨fuel - 1, by simp at enough; omega⟩
    simp only [encodeList, List.length_nil, Nat.add_zero] at atEnd ⊢
    refine ⟨{ s with kinderr := none }, ?_, ⟨rfl, rfl, by simp, by simp⟩, rearmed⟩
    simp only [decodeSliceElems, ends s rearmed ⟨tos, rest, stack, atEnd⟩]
  | cons item items inductionHypothesis =>
    intro fuel enough s more tos rest rearmed input room stack atEnd
    obtain ⟨fuel, rfl⟩ : ∃ previous, fuel = previous + 1 := ⟨fuel - 1, by simp at enough; omega⟩
    rw [encodeList, List.append_assoc] at input
    rw [encodeList, List.length_append] at room atEnd
    obtain ⟨s₁, first, firstReads, firstRearmed⟩ := decodes item List.mem_cons_self s _ rearmed input
      (room_mono room (Nat.le_add_right _ _))
    -- the rest of the content follows, in the same list
    have input₁ : s₁.r = encodeList items ++ more := by
      rw [firstReads.input] at input
      exact List.append_cancel_left input
    have stack₁ : s₁.stack = ⟨tos.pos + item.encode.length, tos.size⟩ :: rest := by
      rw [firstReads.stack, stack, advanceTop]
    obtain ⟨s₂, later, laterReads, laterRearmed⟩ := inductionHypothesis
      (fun other member => decodes other (List.mem_cons_of_mem _ member)) fuel
      (by simp at enough; omega) s₁ more _ rest firstRearmed input₁ (firstReads.room room) stack₁
      (by simp only; omega)
    refine ⟨s₂, ?_, by rw [encodeList]; exact firstReads.trans laterReads, laterRearmed⟩
    simp only [decodeSliceElems, first, later]

/-- What the loop accepts is the encodings of the elements it returns, and it
stops exactly at the end of the innermost list, when elemdec reads items and
reports EOL only at the end of its list. Induction on the fuel. -/
theorem decodeSliceElems_sound {elemdec : Stream → Option (Result Item)}
    (sound : ∀ s v s', elemdec s = some (.ok v s') → s.kind = none →
      Reads s v.encode s' ∧ s'.kind = none)
    (ends : ∀ s s', elemdec s = some (.error .EOL s') → s.kind = none →
      s.AtEOL ∧ s' = { s with kinderr := none }) :
    ∀ fuel s items s', decodeSliceElems elemdec fuel s = some (.ok items s') → s.kind = none →
      Reads s (encodeList items) s' ∧ s'.kind = none ∧ s'.AtEOL := by
  intro fuel
  induction fuel with
  | zero =>
    intro s items s' result
    cases result
  | succ fuel inductionHypothesis =>
    intro s items s' result rearmed
    simp only [decodeSliceElems] at result
    split at result
    · cases result
    · -- EOL: the list is used up, and nothing was read
      rename_i s₁ atEnd
      cases result
      obtain ⟨atEOL, rfl⟩ := ends s _ atEnd rearmed
      exact ⟨⟨rfl, rfl, by simp [encodeList], by simp [encodeList]⟩, rearmed, atEOL⟩
    · cases result
    · rename_i value s₁ first
      obtain ⟨firstReads, firstRearmed⟩ := sound s value s₁ first rearmed
      split at result
      · rename_i values s₂ later
        cases result
        obtain ⟨laterReads, laterRearmed, atEOL⟩ := inductionHypothesis s₁ values s' later firstRearmed
        exact ⟨by rw [encodeList]; exact firstReads.trans laterReads, laterRearmed, atEOL⟩
      · rename_i notOk
        exact absurd result (notOk items s')

end Elements

/-! ### Headers read by Kind -/

/-- Kind reads the header puthead writes for a string or a list, when the value
fits what is left of its list and of the input, and caches its kind and size. -/
theorem Kind_of_header {s : Stream} (kind : Kind) {size : Nat} {rest : List UInt8}
    (rearmed : s.kind = none) (notByte : kind ≠ .Byte) (bound : size < 2 ^ 64)
    (room : s.Room ((header kind size).length + size)) (input : s.r = header kind size ++ rest) :
    ∃ s₂, s.Kind = .ok (kind, size) s₂ ∧ Reads s (header kind size) s₂ ∧ s₂.kind = some kind ∧
      s₂.kinderr = none ∧ s₂.size = size ∧ s₂.Room size ∧ s₂.r = rest := by
  have headerRoom : Stream.Room { s with kinderr := none } (header kind size).length :=
    room_mono room (Nat.le_add_right _ _)
  obtain ⟨s₁, read, headerReads, _⟩ := readKind_header (s := { s with kinderr := none }) notByte bound
    headerRoom input
  have notEnd : ¬ s.AtEOL := not_atEOL_of_room room (by
    have : 0 < (header kind size).length := by
      cases kind <;> simp only [header, puthead] <;> split <;> simp
    omega)
  have fits : s₁.Room size := headerReads.room room
  refine ⟨_, Kind_read rearmed notEnd read fits, ⟨headerReads.input, headerReads.limited,
    headerReads.remaining, headerReads.stack⟩, rfl, rfl, rfl, fits, ?_⟩
  have := headerReads.input
  rw [input] at this
  exact (List.append_cancel_left this).symm

/-! ### Lists -/

section Lists

variable {α : Type} {elemdec : Stream → Option (Result α)}

/-- A list's decoder passes EOL on from nowhere: its loop ends at EOL, and
List and ListEnd report their own errors. -/
theorem decodeListSlice_error {fuel : Nat} {s s' : Stream} {err : StreamError}
    (cached : s.kind = some .List) (noError : s.kinderr = none)
    (result : decodeListSlice elemdec fuel s = some (.error err s')) : err ≠ .EOL := by
  simp only [decodeListSlice, List_cached cached noError] at result
  split at result
  · split at result
    · cases result
    · rename_i err' s₁ endResult
      cases result
      exact ListEnd_error endResult
  · split at result
    · split at result
      · cases result
      · rename_i err' s₁ endResult
        cases result
        exact ListEnd_error endResult
    · exact decodeSliceElems_error _ _ _ _ result

end Lists

/-- decodeInterface reports EOL only at the end of the innermost list, and then
reads nothing. -/
theorem decodeInterface_EOL {fuel : Nat} {s s' : Stream} (rearmed : s.kind = none)
    (result : decodeInterface fuel s = some (.error .EOL s')) :
    s.AtEOL ∧ s' = { s with kinderr := none } := by
  rw [decodeInterface] at result
  split at result
  · rename_i err s₁ kindResult
    cases result
    exact Kind_EOL_inv rearmed kindResult
  · rename_i kind size s₂ kindResult
    obtain ⟨s₁, _, rfl⟩ := Kind_inv rearmed kindResult
    split at result
    · rename_i isList
      subst isList
      split at result
      · cases result
      · split at result
        · cases result
        · cases result
        · rename_i err s₃ listResult
          cases result
          exact absurd rfl (decodeListSlice_error rfl rfl listResult)
    · split at result
      · cases result
      · rename_i err s₃ bytesResult
        cases result
        exact absurd rfl (Bytes_error rfl rfl bytesResult)

/-! ### Decoding what the writer wrote -/

/-- A string decodes from its encoding, a single byte below 0x80 from itself
and any other string from its header and contents. -/
theorem decodeInterface_encodeString (fuel : Nat) (bytes : List UInt8) {s : Stream} {more : List UInt8}
    (bound : (encodeString bytes).length < 2 ^ 64) (rearmed : s.kind = none)
    (input : s.r = encodeString bytes ++ more) (room : s.Room (encodeString bytes).length) :
    ∃ s', decodeInterface fuel s = some (.ok (.str bytes) s') ∧ Reads s (encodeString bytes) s' ∧
      s'.kind = none := by
  by_cases single : bytes.length = 1 ∧ bytes.head?.any (fun first => first < 128)
  · obtain ⟨b, rfl⟩ := List.length_eq_one_iff.mp single.1
    have small : b.toNat < 0x80 := by simpa [UInt8.lt_iff_toNat_lt] using single.2
    rw [encodeString_single small] at input room ⊢
    have read := readKind_byte (s := { s with kinderr := none }) room input small
    have fits : Stream.Room { { s with kinderr := none }.charged 1 with r := more, byteval := b } 0 :=
      ⟨fun _ _ => Nat.zero_le _, fun _ => Nat.zero_le _⟩
    have kindResult := Kind_read rearmed (not_atEOL_of_room room Nat.one_pos) read fits
    refine ⟨{ { s with kinderr := none }.charged 1 with r := more, byteval := b, size := 0 }, ?_,
      ⟨input, rfl, rfl, rfl⟩, rfl⟩
    rw [decodeInterface, kindResult]
    simp [Bytes_byte, Stream.charged]
  · rw [encodeString_eq_header single] at bound input room ⊢
    rw [List.length_append] at bound room
    rw [List.append_assoc] at input
    obtain ⟨s₂, kindResult, headerReads, cached, noError, sized, fits, rest₂⟩ :=
      Kind_of_header .String rearmed (by decide) (by omega) room input
    have bytesResult := Bytes_string cached noError (by rw [sized]; exact fits) rest₂ sized.symm
      (by rw [sized]; exact single)
    refine ⟨_, ?_, headerReads.trans (reads_charged s₂ rest₂ sized.symm), rfl⟩
    rw [decodeInterface, kindResult]
    simp [bytesResult]

/-- A list's decoder decodes its elements from their encodings, once Kind has
cached the list's header, when elemdec decodes each element and reports EOL at
the end of its list. -/
theorem decodeListSlice_encode {elemdec : Stream → Option (Result Item)} (items : List Item)
    (decodes : ∀ item ∈ items, ∀ s more, s.kind = none → s.r = item.encode ++ more →
      s.Room item.encode.length →
        ∃ s', elemdec s = some (.ok item s') ∧ Reads s item.encode s' ∧ s'.kind = none)
    (ends : ∀ s, s.kind = none → s.AtEOL → elemdec s = some (.error .EOL { s with kinderr := none }))
    (fuel : Nat) (enough : items.length < fuel) {s : Stream} {more : List UInt8}
    (cached : s.kind = some .List) (noError : s.kinderr = none) (sized : s.size = (encodeList items).length)
    (room : s.Room (encodeList items).length) (input : s.r = encodeList items ++ more) :
    ∃ s', decodeListSlice elemdec fuel s = some (.ok items s') ∧ Reads s (encodeList items) s' ∧
      s'.kind = none := by
  simp only [decodeListSlice, List_cached cached noError]
  by_cases empty : s.size = 0
  · -- an empty list is left at once
    have noItems : items = [] := by
      have := length_le_encodeList items
      exact List.eq_nil_of_length_eq_zero (by omega)
    subst noItems
    rw [if_pos empty, ListEnd_ok rfl empty.symm]
    refine ⟨_, rfl, ⟨by simp [input, encodeList], rfl, by simp [encodeList], by simp [empty, encodeList]⟩, rfl⟩
  · rw [if_neg empty]
    -- the elements fill the list's content exactly
    have room₃ : Stream.Room { s with stack := ⟨0, s.size⟩ :: s.stack, kind := none, size := 0 }
        (encodeList items).length :=
      ⟨fun tos member => by simp only [List.head?_cons, Option.mem_def, Option.some_inj] at member; subst member; simp [sized],
        room.2⟩
    obtain ⟨s₄, loop, loopReads, _⟩ := decodeSliceElems_encode items decodes ends fuel enough
      { s with stack := ⟨0, s.size⟩ :: s.stack, kind := none, size := 0 } more ⟨0, s.size⟩ s.stack rfl
      input room₃ rfl (by simp [sized])
    obtain ⟨stack₄, popReads⟩ := loopReads.pop
    rw [← sized] at popReads
    rw [loop]
    simp only
    rw [ListEnd_ok stack₄ sized.symm]
    exact ⟨_, rfl, popReads, rfl⟩

/-- Completeness of the decoder: every item tree decodes from its encoding,
whatever follows it, and reads exactly its encoding, when the encoding fits
what is left of the innermost list and of the input and the budget exceeds its
length. Induction on the budget, one list level at a time. -/
theorem decodeInterface_encode :
    ∀ fuel (v : Item), v.encode.length < fuel → v.encode.length < 2 ^ 64 →
      ∀ s more, s.kind = none → s.r = v.encode ++ more → s.Room v.encode.length →
        ∃ s', decodeInterface fuel s = some (.ok v s') ∧ Reads s v.encode s' ∧ s'.kind = none := by
  intro fuel
  induction fuel with
  | zero =>
    intro v enough
    omega
  | succ fuel inductionHypothesis =>
    intro v enough bound s more rearmed input room
    cases v with
    | str bytes => exact decodeInterface_encodeString _ bytes bound rearmed input room
    | list items =>
      have longer := length_encodeList_lt items
      have headerIs : (Item.list items).encode = header .List (encodeList items).length ++ encodeList items := by
        rw [Item.encode, header]
      rw [headerIs] at input room ⊢
      rw [List.append_assoc] at input
      rw [List.length_append] at room
      obtain ⟨s₂, kindResult, headerReads, cached, noError, sized, fits, rest₂⟩ :=
        Kind_of_header .List rearmed (by decide) (by omega) room input
      -- the elements decode on the budget one level down
      have decodes : ∀ item ∈ items, ∀ s more, s.kind = none → s.r = item.encode ++ more →
          s.Room item.encode.length →
            ∃ s', decodeInterface fuel s = some (.ok item s') ∧ Reads s item.encode s' ∧ s'.kind = none :=
        fun item member => inductionHypothesis item
          (by have := length_encode_le_encodeList member; omega)
          (by have := length_encode_le_encodeList member; omega)
      have ends : ∀ s, s.kind = none → s.AtEOL →
          decodeInterface fuel s = some (.error .EOL { s with kinderr := none }) := by
        intro s rearmed atEnd
        rw [decodeInterface, Kind_EOL rearmed atEnd]
      obtain ⟨s', listResult, listReads, rearmed'⟩ := decodeListSlice_encode items decodes ends fuel
        (by have := length_le_encodeList items; omega) cached noError sized fits rest₂
      refine ⟨s', ?_, headerReads.trans listReads, rearmed'⟩
      rw [decodeInterface, kindResult]
      simp [listResult]

/-! ### What the decoder accepts -/

/-- Reads looks at the input, the budget and the stack only: what readKind read
is still read once Kind caches the header it found. -/
theorem Reads.recache {s s' : Stream} {bytes : List UInt8}
    (reads : Reads { s with kinderr := none } bytes s') (kind : Option Kind) (size : Nat) :
    Reads s bytes { s' with kind := kind, size := size, kinderr := none } :=
  ⟨reads.input, reads.limited, reads.remaining, reads.stack⟩

/-- What Bytes accepts after Kind read a string or single-byte header is the
encoding of the string it returns: every header readKind accepts is the one
the writer writes, and Bytes rejects a single byte below 0x80 behind a string
header. -/
theorem encode_of_Bytes {s s₂ s' : Stream} {kind : Kind} {size : Nat} {b : List UInt8}
    (rearmed : s.kind = none) (kindResult : s.Kind = .ok (kind, size) s₂) (notList : kind ≠ .List)
    (bytesResult : s₂.Bytes = .ok b s') : Reads s (Item.str b).encode s' ∧ s'.kind = none := by
  obtain ⟨s₁, read, rfl⟩ := Kind_inv rearmed kindResult
  obtain ⟨_, byte | ⟨notByte, headerReads⟩⟩ := readKind_inv read
  · -- a single byte below 0x80
    obtain ⟨rfl, rfl, small, byteReads⟩ := byte
    rw [Bytes_byte rfl rfl] at bytesResult
    cases bytesResult
    rw [Item.encode, encodeString_single small]
    exact ⟨byteReads.recache _ _, rfl⟩
  · -- a string: its header and contents
    have isString : kind = .String := by cases kind <;> simp_all
    subst isString
    obtain ⟨length, canonical, contentReads, rearmed'⟩ := Bytes_string_inv rfl rfl bytesResult
    simp only at length canonical
    rw [Item.encode, encodeString_eq_header (by rw [length]; exact canonical), length]
    exact ⟨(headerReads.recache _ _).trans contentReads, rearmed'⟩

/-- What a list's decoder accepts, once Kind has cached the list's header: the
encodings of its elements, exactly as many bytes as the header says, when
elemdec accepts encodings of items and reports EOL only at the end of its
list. -/
theorem decodeListSlice_sound {elemdec : Stream → Option (Result Item)}
    (sound : ∀ s v s', elemdec s = some (.ok v s') → s.kind = none →
      Reads s v.encode s' ∧ s'.kind = none)
    (ends : ∀ s s', elemdec s = some (.error .EOL s') → s.kind = none →
      s.AtEOL ∧ s' = { s with kinderr := none })
    {fuel : Nat} {s s' : Stream} {items : List Item} (cached : s.kind = some .List)
    (noError : s.kinderr = none) (result : decodeListSlice elemdec fuel s = some (.ok items s')) :
    (encodeList items).length = s.size ∧ Reads s (encodeList items) s' ∧ s'.kind = none := by
  simp only [decodeListSlice, List_cached cached noError] at result
  split at result
  · -- an empty list: ListEnd at once
    rename_i empty
    split at result
    · rename_i s₄ endResult
      cases result
      obtain ⟨tos, rest, stack, -, rfl⟩ := ListEnd_inv endResult
      simp only [List.cons.injEq] at stack
      obtain ⟨rfl, rfl⟩ := stack
      exact ⟨by simp [encodeList, empty], ⟨by simp [encodeList], rfl, by simp [encodeList],
        by simp [encodeList, empty]⟩, rfl⟩
    · cases result
  · split at result
    · rename_i loop
      split at result
      · rename_i endResult
        cases result
        obtain ⟨loopReads, -, -⟩ := decodeSliceElems_sound sound ends fuel _ _ _ loop rfl
        obtain ⟨stack₄, popReads⟩ := loopReads.pop
        obtain ⟨tos, rest, stack, atEnd, rfl⟩ := ListEnd_inv endResult
        rw [stack₄] at stack
        simp only [List.cons.injEq] at stack
        obtain ⟨rfl, rfl⟩ := stack
        -- the loop stopped at the end of the list's content
        simp only at atEnd
        rw [atEnd] at popReads
        exact ⟨atEnd, popReads, rfl⟩
      · cases result
    · rename_i notOk
      exact absurd result (notOk items s')

/-- What a list's header and decoder accept is the encoding of the list. -/
theorem encode_of_decodeListSlice {elemdec : Stream → Option (Result Item)}
    (sound : ∀ s v s', elemdec s = some (.ok v s') → s.kind = none →
      Reads s v.encode s' ∧ s'.kind = none)
    (ends : ∀ s s', elemdec s = some (.error .EOL s') → s.kind = none →
      s.AtEOL ∧ s' = { s with kinderr := none })
    {fuel size : Nat} {s s₂ s' : Stream} {items : List Item} (rearmed : s.kind = none)
    (kindResult : s.Kind = .ok (.List, size) s₂)
    (listResult : decodeListSlice elemdec fuel s₂ = some (.ok items s')) :
    Reads s (Item.list items).encode s' ∧ s'.kind = none := by
  obtain ⟨s₁, read, rfl⟩ := Kind_inv rearmed kindResult
  obtain ⟨_, ⟨isByte, -⟩ | ⟨-, headerReads⟩⟩ := readKind_inv read
  · cases isByte
  obtain ⟨length, contentReads, rearmed'⟩ := decodeListSlice_sound sound ends rfl rfl listResult
  simp only at length
  have encoding : (Item.list items).encode = header .List size ++ encodeList items := by
    rw [Item.encode, length, header]
  rw [encoding]
  exact ⟨(headerReads.recache _ _).trans contentReads, rearmed'⟩

/-- Soundness of the decoder: what decodeInterface accepts is the encoding of
the item it returns, read off the front of the input. Induction on the budget,
one list level at a time. -/
theorem decodeInterface_sound :
    ∀ fuel s v s', decodeInterface fuel s = some (.ok v s') → s.kind = none →
      Reads s v.encode s' ∧ s'.kind = none := by
  intro fuel
  induction fuel with
  | zero =>
    intro s v s' result rearmed
    rw [decodeInterface] at result
    split at result
    · cases result
    · rename_i kind size s₂ kindResult
      split at result
      · cases result
      · rename_i notList
        split at result
        · rename_i bytesResult
          cases result
          exact encode_of_Bytes rearmed kindResult notList bytesResult
        · cases result
  | succ fuel inductionHypothesis =>
    intro s v s' result rearmed
    rw [decodeInterface] at result
    split at result
    · cases result
    · rename_i kind size s₂ kindResult
      split at result
      · rename_i isList
        subst isList
        simp only at result
        split at result
        · cases result
        · rename_i items s₃ listResult
          cases result
          exact encode_of_decodeListSlice inductionHypothesis (fun s s' result rearmed =>
            decodeInterface_EOL rearmed result) rearmed kindResult listResult
        · cases result
      · rename_i notList
        split at result
        · rename_i bytesResult
          cases result
          exact encode_of_Bytes rearmed kindResult notList bytesResult
        · cases result

/-! ### Round trip through DecodeBytes -/

/-- A fresh stream over b, limited to its length, has room for every prefix. -/
theorem room_NewStream (b : List UInt8) {n : Nat} (fits : n ≤ b.length) :
    (NewStream b b.length).Room n :=
  ⟨by simp [NewStream], fun _ => by simp only [NewStream]; split <;> omega⟩

/-- A stream over an item's encoding followed by any bytes decodes the item
and stops right after its encoding, on any budget beyond the encoding's
length. -/
theorem decodeInterface_NewStream (v : Item) (more : List UInt8) (bound : v.encode.length < 2 ^ 64)
    {fuel : Nat} (enough : v.encode.length < fuel) :
    ∃ s', decodeInterface fuel (NewStream (v.encode ++ more) (v.encode ++ more).length) =
      some (.ok v s') ∧ s'.r = more := by
  obtain ⟨s', result, reads, -⟩ := decodeInterface_encode fuel v enough bound
    (NewStream (v.encode ++ more) (v.encode ++ more).length) more rfl rfl
    (room_NewStream _ (by simp))
  have input : v.encode ++ more = v.encode ++ s'.r := reads.input
  exact ⟨s', result, (List.append_cancel_left input).symm⟩

/-- DecodeBytes recovers every item from its encoding. -/
theorem DecodeBytes_encode (v : Item) (bound : v.encode.length < 2 ^ 64) :
    DecodeBytes v.encode = some (.ok v) := by
  obtain ⟨s', result, rest⟩ := decodeInterface_NewStream v [] bound (Nat.lt_succ_self _)
  rw [List.append_nil] at result
  simp [DecodeBytes, result, rest]

/-- DecodeBytes is canonical: whatever it accepts is the encoding of the item
it returns. -/
theorem encode_of_DecodeBytes {b : List UInt8} {v : Item} (result : DecodeBytes b = some (.ok v)) :
    v.encode = b := by
  simp only [DecodeBytes] at result
  split at result
  · cases result
  · cases result
  · rename_i decoded
    split at result
    · cases result
    · rename_i s consumed
      cases result
      obtain ⟨reads, -⟩ := decodeInterface_sound _ _ _ _ decoded rfl
      have input : b = v.encode ++ s.r := reads.input
      -- nothing is left behind the item
      have empty : s.r = [] := List.length_eq_zero_iff.mp (by omega)
      rw [input, empty, List.append_nil]

/-- The RLP round trip: the encoder writes the encoding of every item tree; a
stream over it, followed by any bytes, decodes the tree and consumes exactly
its encoding, and so does DecodeBytes; and every byte string DecodeBytes
accepts is the encoding of the item it returns. -/
theorem EncodeToBytes_DecodeBytes (v : Item) (more : List UInt8) :
    ((EncodeToBytes v).length < 2 ^ 64 →
      DecodeBytes (EncodeToBytes v) = some (.ok v) ∧
      ∀ fuel, (EncodeToBytes v).length < fuel →
        ∃ s', decodeInterface fuel
          (NewStream (EncodeToBytes v ++ more) (EncodeToBytes v ++ more).length) =
            some (.ok v s') ∧ s'.r = more) ∧
    ∀ b, DecodeBytes b = some (.ok v) → EncodeToBytes v = b := by
  rw [(EncodeToBytes_eq_encode v).1]
  refine ⟨fun bound => ⟨DecodeBytes_encode v bound, fun fuel enough => ?_⟩,
    fun b result => encode_of_DecodeBytes result⟩
  exact decodeInterface_NewStream v more bound enough

/-- The round trip at the list of the strings "a" and the two bytes 0x80 0x01. -/
theorem EncodeToBytes_DecodeBytes_sample :
    DecodeBytes (EncodeToBytes (.list [.str [0x61], .str [0x80, 0x01]])) =
      some (.ok (.list [.str [0x61], .str [0x80, 0x01]])) :=
  ((EncodeToBytes_DecodeBytes (.list [.str [0x61], .str [0x80, 0x01]]) []).1 (by decide)).1

/-! ### The budget never runs out

Every header and every element takes at least one byte off the input, so a
budget beyond the input's length carries decodeInterface through any input:
the budget is never the reason the model stops, and DecodeBytes always gives
the source's answer. -/

/-- Reading a nonempty string shortens the input. -/
theorem Reads.length_lt {s s' : Stream} {bytes : List UInt8} (reads : Reads s bytes s')
    (nonempty : bytes ≠ []) : s'.r.length < s.r.length := by
  rw [reads.input, List.length_append]
  have := List.length_pos_iff.mpr nonempty
  omega

/-- Kind takes at least a byte off the input when it reads a header. -/
theorem Kind_shortens {s s₂ : Stream} {kind : Kind} {size : Nat} (rearmed : s.kind = none)
    (result : s.Kind = .ok (kind, size) s₂) : s₂.r.length < s.r.length := by
  obtain ⟨s₁, read, rfl⟩ := Kind_inv rearmed result
  obtain ⟨-, ⟨-, -, -, byteReads⟩ | ⟨-, headerReads⟩⟩ := readKind_inv read
  · exact byteReads.length_lt (List.cons_ne_nil _ _)
  · exact headerReads.length_lt (by cases kind <;> exact puthead_ne_nil _ _ _)

section Budget

variable {elemdec : Stream → Option (Result Item)} {budget : Nat}
  (sound : ∀ s v s', elemdec s = some (.ok v s') → s.kind = none →
    Reads s v.encode s' ∧ s'.kind = none)
  (total : ∀ s, s.kind = none → s.r.length < budget → elemdec s ≠ none)
include sound total

/-- The element loop does not run out on a budget beyond the input's length:
each element takes at least a byte, and the loop's last step reads EOL. -/
theorem decodeSliceElems_total :
    ∀ fuel s, fuel ≤ budget → s.kind = none → s.r.length < fuel →
      decodeSliceElems elemdec fuel s ≠ none := by
  intro fuel
  induction fuel with
  | zero =>
    intro s _ _ short
    omega
  | succ fuel inductionHypothesis =>
    intro s within rearmed short
    rw [decodeSliceElems]
    cases element : elemdec s with
    | none => exact absurd element (total s rearmed (by omega))
    | some result =>
      cases result with
      | error err s₁ => cases err <;> simp
      | ok v s₁ =>
        obtain ⟨reads, rearmed₁⟩ := sound s v s₁ element rearmed
        have shorter := reads.length_lt (List.ne_nil_of_length_pos (one_le_length_encode v))
        have loop := inductionHypothesis s₁ (by omega) rearmed₁ (by omega)
        -- the rest of the list decodes, well or not, and the loop passes it on
        obtain ⟨result, rest⟩ := Option.ne_none_iff_exists'.mp loop
        simp only [rest]
        cases result <;> simp

/-- A list's decoder does not run out on a budget beyond the input's length. -/
theorem decodeListSlice_total {s : Stream} (cached : s.kind = some .List) (noError : s.kinderr = none)
    (short : s.r.length < budget) : decodeListSlice elemdec budget s ≠ none := by
  simp only [decodeListSlice, List_cached cached noError]
  split
  · split <;> simp
  · have loop := decodeSliceElems_total sound total budget
      { s with stack := ⟨0, s.size⟩ :: s.stack, kind := none, size := 0 } le_rfl rfl short
    obtain ⟨result, rest⟩ := Option.ne_none_iff_exists'.mp loop
    simp only [rest]
    cases result with
    | ok values s₄ =>
      dsimp only
      cases s₄.ListEnd <;> simp
    | error err s₄ => simp

end Budget

/-- decodeInterface does not run out on a budget beyond the input's length.
Induction on the budget: a list's header takes a byte, which pays for the
level its elements are decoded at. -/
theorem decodeInterface_total :
    ∀ fuel s, s.kind = none → s.r.length < fuel → decodeInterface fuel s ≠ none := by
  intro fuel
  induction fuel with
  | zero =>
    intro s _ short
    omega
  | succ fuel inductionHypothesis =>
    intro s rearmed short
    rw [decodeInterface]
    split
    · simp
    · rename_i kind size s₂ kindResult
      have shorter := Kind_shortens rearmed kindResult
      obtain ⟨s₁, -, rfl⟩ := Kind_inv rearmed kindResult
      split
      · rename_i isList
        subst isList
        have list := decodeListSlice_total (fun s v s' result rearmed =>
          decodeInterface_sound fuel s v s' result rearmed) inductionHypothesis
          (s := { s₁ with kind := some .List, size := size, kinderr := none }) rfl rfl (by simp at shorter ⊢; omega)
        obtain ⟨result, listResult⟩ := Option.ne_none_iff_exists'.mp list
        simp only [listResult]
        cases result <;> simp
      · split <;> simp

/-- DecodeBytes always answers: its budget of the input's length plus one is
never exhausted. -/
theorem DecodeBytes_ne_none (b : List UInt8) : DecodeBytes b ≠ none := by
  have decoded := decodeInterface_total (b.length + 1) (NewStream b b.length) rfl
    (by simp [NewStream])
  obtain ⟨result, decodedResult⟩ := Option.ne_none_iff_exists'.mp decoded
  simp only [DecodeBytes, decodedResult]
  cases result <;> simp

end Meshbox.Rlp
