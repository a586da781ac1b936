/-
This file models the buffer rlp/encode.go encodes into. An encbuf keeps the
string data without any list header, and for each list a listhead that
remembers where in the string data the list's header belongs. The header's
size is only known when the list is closed: listEnd computes it from the
buffer's size, which counts the headers of the lists already closed inside it
through lhsize, and toBytes finally splices every header into the string data.

The main result is that this deferred bookkeeping writes what Item.encode lays
out directly: writing an item tree into a reset buffer and splicing gives the
item's encoding, and fills exactly the buffer of size() bytes that toBytes
allocates. The proof follows the writer along the tree: writing one item only
appends string data and closed headers after what the buffer held, and the
headers of one item splice independently of those before it.
-/

import Meshbox.Rlp.Raw

namespace Meshbox.Rlp

/-- listhead: the index in the string data of a list's header and, once the
list is closed, the total size of its payload. While the list is open, size
holds the buffer's lhsize at the list's start. -/
structure listhead where
  offset : Nat
  size : Nat
deriving DecidableEq, Repr

/-- The header head.encode writes for a closed list. -/
def listhead.encode (head : listhead) : List UInt8 :=
  puthead 0xC0 0xF7 head.size

/-- encbuf: the string data, all list headers in the order the lists were
opened, and the sum of the sizes of the encoded list headers. The 9-byte
auxiliary sizebuf only stages putint's output and is not modelled. -/
structure encbuf where
  str : List UInt8
  lheads : List listhead
  lhsize : Nat
deriving DecidableEq, Repr

/-- intsize: the number of bytes of i in big-endian form, at least one. -/
def intsize (i : Nat) : Nat :=
  max 1 (BigEndian.toBytes i).length

namespace encbuf

/-- The buffer after reset: no string data, no list headers. -/
def reset : encbuf :=
  ⟨[], [], 0⟩

/-- size: the size of the encoding, string data plus list headers. -/
def size (w : encbuf) : Nat :=
  w.str.length + w.lhsize

/-- encodeStringHeader: the header of a string of the given size, written to the
string data as puthead would write it. -/
def encodeStringHeader (w : encbuf) (size : Nat) : encbuf :=
  if size < 56 then { w with str := w.str ++ [0x80 + UInt8.ofNat size] }
  else
    let sizesize := (BigEndian.toBytes size).length
    { w with str := w.str ++ (0xB7 + UInt8.ofNat sizesize) :: BigEndian.toBytes size }

/-- encodeString: a single byte below 0x80 is written as it is, any other string
after a string header. -/
def encodeString (w : encbuf) (b : List UInt8) : encbuf :=
  match b with
  | [byte] =>
    -- fits single byte, no string header
    if byte ≤ 0x7F then { w with str := w.str ++ [byte] }
    else
      let w := w.encodeStringHeader 1
      { w with str := w.str ++ b }
  | _ =>
    let w := w.encodeStringHeader b.length
    { w with str := w.str ++ b }

/-- list: opens a list whose header goes at the current end of the string data.
The index of the new listhead stands for the pointer list returns. -/
def list (w : encbuf) : Nat × encbuf :=
  (w.lheads.length, { w with lheads := w.lheads ++ [⟨w.str.length, w.lhsize⟩] })

/-- listEnd: closes the list of header lh. Its payload is everything written
since list, the headers of the lists closed in between included, and its own
header now counts into lhsize. The pointer of the source is always valid, so
the case of a missing header does not occur. -/
def listEnd (w : encbuf) (lh : Nat) : encbuf :=
  match w.lheads[lh]? with
  | none => w
  | some head =>
    let size := w.size - head.offset - head.size
    { w with
      lheads := w.lheads.set lh ⟨head.offset, size⟩
      lhsize := w.lhsize + if size < 56 then 1 else 1 + intsize size }

/-- The loop of toBytes from position strpos of the string data on: before each
header, the string data from strpos up to the header's offset, then the header.
The source's slice of the string data is in range for every buffer the writers
build; take and drop stand for it. -/
def toBytesLoop (str : List UInt8) (strpos : Nat) : List listhead → List UInt8
  | [] => str.drop strpos
  | head :: heads =>
    let chunk := (str.drop strpos).take (head.offset - strpos)
    chunk ++ head.encode ++ toBytesLoop str (strpos + chunk.length) heads

/-- toBytes: the string data with every list header spliced in. The source
copies into a buffer of size() bytes; the pieces are appended here, and
size_writeItem shows they fill that buffer exactly. -/
def toBytes (w : encbuf) : List UInt8 :=
  toBytesLoop w.str 0 w.lheads

mutual

/-- The writer of an item held in an interface{}: writeBytes for a byte slice,
and for a []interface{} the slice writer, which opens a list, writes each
element and closes the list. -/
def writeItem (w : encbuf) : Item → encbuf
  | .str bytes => w.encodeString bytes
  | .list items =>
    let (lh, w) := w.list
    (w.writeItems items).listEnd lh

/-- The elements of a slice, written one after the other. -/
def writeItems (w : encbuf) : List Item → encbuf
  | [] => w
  | item :: rest => (w.writeItem item).writeItems rest

end

end encbuf

/-- EncodeToBytes of an item tree: written into a reset buffer and spliced. -/
def EncodeToBytes (val : Item) : List UInt8 :=
  (encbuf.reset.writeItem val).toBytes

namespace encbuf

/-! ### Headers -/

theorem encodeStringHeader_eq (w : encbuf) (size : Nat) :
    w.encodeStringHeader size = { w with str := w.str ++ puthead 0x80 0xB7 size } := by
  unfold encodeStringHeader puthead
  split <;> rfl

/-- The buffer's string writer appends the encoding of the string. -/
theorem encodeString_eq (w : encbuf) (b : List UInt8) :
    w.encodeString b = { w with str := w.str ++ Rlp.encodeString b } := by
  match b with
  | [byte] =>
    by_cases small : byte ≤ 0x7F
    · simp [encodeString, Rlp.encodeString, small]
    · simp [encodeString, Rlp.encodeString, small, encodeStringHeader_eq]
  | [] => simp [encodeString, Rlp.encodeString, encodeStringHeader_eq]
  | first :: second :: rest => simp [encodeString, Rlp.encodeString, encodeStringHeader_eq]

/-- What listEnd adds to lhsize is the length of the closed list's header. -/
theorem headerSize_eq (size : Nat) :
    (if size < 56 then 1 else 1 + intsize size) = (puthead 0xC0 0xF7 size).length := by
  unfold puthead
  split
  · rfl
  · rename_i large
    have nonempty : BigEndian.toBytes size ≠ [] := by
      rw [ne_eq, BigEndian.toBytes_eq_nil_iff]
      omega
    have positive := List.length_pos_iff.mpr nonempty
    simp only [intsize, List.length_cons]
    omega

/-- The total size of a list of headers. -/
def headersLength (heads : List listhead) : Nat :=
  (heads.map fun head => head.encode.length).sum

@[simp] theorem headersLength_nil : headersLength [] = 0 := rfl

@[simp] theorem headersLength_cons (head : listhead) (heads : List listhead) :
    headersLength (head :: heads) = head.encode.length + headersLength heads := by
  simp [headersLength]

@[simp] theorem headersLength_append (front back : List listhead) :
    headersLength (front ++ back) = headersLength front + headersLength back := by
  simp [headersLength]

/-! ### Splicing the headers -/

/-- Where every remaining header lies at or after m, the loop copies the string
data up to m and goes on from m. -/
theorem toBytesLoop_skip (str : List UInt8) {strpos m : Nat} (before : strpos ≤ m)
    (inside : m ≤ str.length) :
    ∀ heads : List listhead, (∀ head ∈ heads, m ≤ head.offset) →
      toBytesLoop str strpos heads = (str.drop strpos).take (m - strpos) ++ toBytesLoop str m heads
  | [], _ => by
    have rest : (str.drop strpos).drop (m - strpos) = str.drop m := by
      rw [List.drop_drop, Nat.add_sub_cancel' before]
    rw [toBytesLoop, toBytesLoop, ← rest, List.take_append_drop]
  | head :: heads, after => by
    have atHead := after head List.mem_cons_self
    have chunks : (str.drop strpos).take (head.offset - strpos) =
        (str.drop strpos).take (m - strpos) ++ (str.drop m).take (head.offset - m) := by
      rw [show head.offset - strpos = (m - strpos) + (head.offset - m) by omega, List.take_add,
        List.drop_drop, Nat.add_sub_cancel' before]
    -- both loops go on from the end of this header's chunk
    have same : strpos + ((str.drop strpos).take (head.offset - strpos)).length =
        m + ((str.drop m).take (head.offset - m)).length := by
      simp only [List.length_take, List.length_drop]
      omega
    simp only [toBytesLoop]
    rw [same, chunks]
    simp only [List.append_assoc]

/-- The headers before m and those at or after m splice independently: the ones
before over the string data up to m, the others from m on. -/
theorem toBytesLoop_append (str : List UInt8) {m : Nat} (inside : m ≤ str.length)
    (front back : List listhead) (frontBefore : ∀ head ∈ front, head.offset ≤ m)
    (backAfter : ∀ head ∈ back, m ≤ head.offset) :
    ∀ strpos, strpos ≤ m →
      toBytesLoop str strpos (front ++ back) =
        toBytesLoop (str.take m) strpos front ++ toBytesLoop str m back := by
  induction front with
  | nil =>
    intro strpos before
    rw [List.nil_append, toBytesLoop_skip str before inside back backAfter, toBytesLoop,
      List.drop_take]
  | cons head heads inductionHypothesis =>
    intro strpos before
    have atHead := frontBefore head List.mem_cons_self
    -- the chunk before this header lies within the first m bytes
    have chunk : ((str.take m).drop strpos).take (head.offset - strpos) =
        (str.drop strpos).take (head.offset - strpos) := by
      rw [List.drop_take, List.take_take, Nat.min_eq_left (by omega)]
    have next : strpos + ((str.drop strpos).take (head.offset - strpos)).length ≤ m := by
      simp only [List.length_take, List.length_drop]
      omega
    simp only [List.cons_append, toBytesLoop, chunk]
    rw [inductionHypothesis (fun other member => frontBefore other (List.mem_cons_of_mem _ member))
      _ next]
    simp only [List.append_assoc]

/-! ### What writing appends -/

/-- Writing took w to w' and appended out to what toBytes splices: w' holds w's
string data followed by written, and w's headers followed by closed headers
that lie within written and splice with it into out. -/
def Appends (w w' : encbuf) (out : List UInt8) : Prop :=
  ∃ written heads, w' = ⟨w.str ++ written, w.lheads ++ heads, w.lhsize + headersLength heads⟩ ∧
    (∀ head ∈ heads, w.str.length ≤ head.offset ∧ head.offset ≤ w.str.length + written.length) ∧
    toBytesLoop (w.str ++ written) w.str.length heads = out ∧
    out.length = written.length + headersLength heads

theorem appends_refl (w : encbuf) : Appends w w [] :=
  ⟨[], [], by simp, by simp, by simp [toBytesLoop], rfl⟩

/-- Writing one thing after another appends both. -/
theorem Appends.trans {w w₁ w₂ : encbuf} {first second : List UInt8} (written₁ : Appends w w₁ first)
    (written₂ : Appends w₁ w₂ second) : Appends w w₂ (first ++ second) := by
  obtain ⟨data₁, heads₁, rfl, within₁, splice₁, length₁⟩ := written₁
  obtain ⟨data₂, heads₂, rfl, within₂, splice₂, length₂⟩ := written₂
  simp only [List.length_append] at within₂ splice₂
  refine ⟨data₁ ++ data₂, heads₁ ++ heads₂, ?_, ?_, ?_, ?_⟩
  · simp only [List.append_assoc, headersLength_append, Nat.add_assoc]
  · intro head member
    rcases List.mem_append.mp member with front | back
    · have := within₁ head front
      simp only [List.length_append]
      omega
    · have := within₂ head back
      simp only [List.length_append]
      omega
  · have split := toBytesLoop_append (w.str ++ data₁ ++ data₂) (m := w.str.length + data₁.length)
      (by simp) heads₁ heads₂ (fun head member => (within₁ head member).2)
      (fun head member => (within₂ head member).1) w.str.length (Nat.le_add_right _ _)
    rw [← List.append_assoc, split, List.take_left' (by simp), splice₁, splice₂]
  · simp only [List.length_append, headersLength_append, length₁, length₂]
    omega

/-- The string writer appends the string's encoding. -/
theorem appends_encodeString (w : encbuf) (b : List UInt8) :
    Appends w (w.encodeString b) (Rlp.encodeString b) := by
  refine ⟨Rlp.encodeString b, [], ?_, by simp, by simp [toBytesLoop], by simp⟩
  rw [encodeString_eq]
  simp

/-- A list opened, written and closed appends its header and then what was
written in it: listEnd finds in lhsize exactly the headers closed in between,
so the size it computes is the size of the payload. -/
theorem appends_listEnd {w w' : encbuf} {out : List UInt8} (inner : Appends w.list.2 w' out) :
    Appends w (w'.listEnd w.list.1) (puthead 0xC0 0xF7 out.length ++ out) := by
  obtain ⟨written, heads, rfl, within, splice, length⟩ := inner
  simp only [list] at within splice ⊢
  have found : (w.lheads ++ [⟨w.str.length, w.lhsize⟩] ++ heads)[w.lheads.length]? =
      some ⟨w.str.length, w.lhsize⟩ := by
    simp
  have closed : (w.str ++ written).length + (w.lhsize + headersLength heads) - w.str.length -
      w.lhsize = out.length := by
    simp only [List.length_append]
    omega
  have reset : (w.lheads ++ [listhead.mk w.str.length w.lhsize] ++ heads).set w.lheads.length
      ⟨w.str.length, out.length⟩ = w.lheads ++ listhead.mk w.str.length out.length :: heads := by
    simp
  refine ⟨written, ⟨w.str.length, out.length⟩ :: heads, ?_, ?_, ?_, ?_⟩
  · simp only [listEnd, found, size, closed, reset]
    rw [headerSize_eq, headersLength_cons, listhead.encode]
    congr 1
    dsimp only
    omega
  · intro head member
    rcases List.mem_cons.mp member with rfl | later
    · exact ⟨Nat.le_refl _, Nat.le_add_right _ _⟩
    · exact within head later
  · -- the list's header comes first, with no string data before it
    simp only [toBytesLoop, Nat.sub_self, List.take_zero, List.length_nil, Nat.add_zero, splice,
      listhead.encode, List.nil_append]
  · simp only [List.length_append, headersLength_cons, listhead.encode, length]
    omega

mutual

/-- Writing an item appends its encoding. -/
theorem appends_writeItem (w : encbuf) : (v : Item) → Appends w (w.writeItem v) v.encode
  | .str bytes => by
    rw [writeItem, Item.encode]
    exact appends_encodeString w bytes
  | .list items => by
    rw [writeItem, Item.encode]
    exact appends_listEnd (appends_writeItems _ items)

/-- Writing the elements of a slice appends their encodings. -/
theorem appends_writeItems (w : encbuf) : (items : List Item) → Appends w (w.writeItems items) (encodeList items)
  | [] => by
    rw [writeItems, encodeList]
    exact appends_refl w
  | item :: rest => by
    rw [writeItems, encodeList]
    exact (appends_writeItem w item).trans (appends_writeItems _ rest)

end

end encbuf

/-- The encbuf encoder writes the encoding: writing an item tree into a reset
buffer and splicing in the deferred list headers gives Item.encode, and size()
is its length, so toBytes fills exactly the buffer it allocates. -/
theorem EncodeToBytes_eq_encode (v : Item) :
    EncodeToBytes v = v.encode ∧ (encbuf.reset.writeItem v).size = v.encode.length := by
  obtain ⟨written, heads, written_eq, _, splice, length⟩ := encbuf.appends_writeItem encbuf.reset v
  simp only [encbuf.reset, List.nil_append, List.length_nil, Nat.zero_add] at written_eq splice
  refine ⟨?_, ?_⟩
  · rw [EncodeToBytes, encbuf.reset, written_eq, encbuf.toBytes]
    exact splice
  · rw [encbuf.reset, written_eq, encbuf.size, length]

end Meshbox.Rlp
