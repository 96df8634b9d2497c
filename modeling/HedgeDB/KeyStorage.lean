/-
HedgeDB/KeyStorage.lean

A key object of `include/key.h` as memory: 32 bytes of storage, and a heap.

The storage is a union.  A long key has the pointer to its buffer in the bytes 0 to 7 and
its length in the bytes 8 to 15; a short key has its bytes in front and its length in the
last byte.  The top bit of the last byte says which of the two it is.

The operations are those of `key`, on the bytes and in the order of the source.  None of
them has a result when it deletes, reads or writes a buffer that is not allocated, or one
that is too small.  `new` is taken to succeed, with an address that is not null, fits a
pointer and is not in use (`Fresh`).

`Holds` says how a byte string lies in the storage.  A constructor leaves the storage
`Built`; `moveInto_spec` and `freeIfLongStr_cases` say what moving and releasing do.
-/
import HedgeDB.ByteCodec
import HedgeDB.KeyRouting
import HedgeDB.OwnedHeap
import HedgeDB.Run
import Mathlib.Data.Nat.Bitwise

namespace HedgeDB

open ByteCodec OwnedHeap List

def longStringFlag : ℕ := 0x80

/-- The memory of a `key`. -/
structure KeyStorage where
  bytes : Bytes
  length_bytes : bytes.length = 32

/-- The allocated buffers. -/
abbrev KeyHeap := Heap Bytes

/-- What `new` may return. -/
def Fresh (heap : KeyHeap) (a : ℕ) : Prop := a ≠ 0 ∧ a < 2 ^ 64 ∧ heap.cells a = none

instance decidableFresh (heap : KeyHeap) (a : ℕ) : Decidable (Fresh heap a) :=
  inferInstanceAs (Decidable (_ ∧ _))

/-- The source of a `memcpy` of `len` bytes. -/
def readBuffer (heap : KeyHeap) (a len : ℕ) : Option Bytes :=
  (heap.read a).bind fun old => if len ≤ old.length then some (old.take len) else none

/-- A `memcpy` of `bytes` to the start of a buffer. -/
def fillBuffer (heap : KeyHeap) (a : ℕ) (bytes : Bytes) : Option KeyHeap :=
  (heap.read a).bind fun old =>
    if bytes.length ≤ old.length then heap.store a (bytes ++ old.drop bytes.length) else none

namespace KeyStorage

/-! ### The storage -/

variable {off : ℕ}

theorem length_writeAt_bytes (k : KeyStorage) {bytes : Bytes} (h : off + bytes.length ≤ 32) :
    (ByteCodec.writeAt k.bytes off bytes).length = 32 := by
  rw [length_writeAt (k.length_bytes.symm ▸ h), k.length_bytes]

/-- Overwrite a part of the storage. -/
def write (k : KeyStorage) (off : ℕ) (bytes : Bytes) (h : off + bytes.length ≤ 32) : KeyStorage :=
  ⟨ByteCodec.writeAt k.bytes off bytes, k.length_writeAt_bytes h⟩

variable {n : ℕ}

theorem le_fits (v : ℕ) (h : off + n ≤ 32) : off + (le n v).length ≤ 32 := by
  rwa [length_le]

/-- `_storage.variable.buf`. -/
def buf (k : KeyStorage) : ℕ := field k.bytes 0 8

/-- `_storage.variable.long_key_length`. -/
def longKeyLength (k : KeyStorage) : ℕ := field k.bytes 8 8

/-- `_flag_byte`, which is also `_storage.fixed.short_key_length`. -/
def flagByte (k : KeyStorage) : ℕ := field k.bytes 31 1

def setBuf (k : KeyStorage) (a : ℕ) : KeyStorage :=
  k.write 0 (le 8 a) (le_fits a (Nat.le_of_ble_eq_true rfl))

def setLongKeyLength (k : KeyStorage) (len : ℕ) : KeyStorage :=
  k.write 8 (le 8 len) (le_fits len (Nat.le_of_ble_eq_true rfl))

/-- `_set_flag`, and the assignment to `short_key_length`. -/
def setFlag (k : KeyStorage) (v : ℕ) : KeyStorage :=
  k.write 31 (le 1 v) (le_fits v (Nat.le_of_ble_eq_true rfl))

theorem inline_fits {bytes : Bytes} (h : bytes.length ≤ maxInlineLength) :
    0 + bytes.length ≤ 32 := by
  rw [maxInlineLength] at h
  omega

/-- A `memcpy` into `_storage.fixed.buf`. -/
def setInline (k : KeyStorage) (bytes : Bytes) (h : bytes.length ≤ maxInlineLength) : KeyStorage :=
  k.write 0 bytes (inline_fits h)

def isLongStr (k : KeyStorage) : Bool := k.flagByte &&& longStringFlag != 0

def size (k : KeyStorage) : ℕ := if k.isLongStr then k.longKeyLength else k.flagByte

/-- `as_bytes`, the bytes of the span. -/
def asBytes (k : KeyStorage) (heap : KeyHeap) : Option Bytes :=
  if k.isLongStr then readBuffer heap k.buf k.longKeyLength
  else if k.flagByte ≤ maxInlineLength then some (k.bytes.take k.flagByte) else none

/-! ### The operations -/

/-- The storage that the default constructor clears. -/
def zero : KeyStorage := ⟨replicate 32 0, length_replicate⟩

/-- The part of `_init` and `make_with_length` for a long string, up to the `memcpy`:
`uninit` is what the new buffer holds. -/
def newLong (dst : KeyStorage) (heap : KeyHeap) (addr : ℕ) (uninit : Bytes) :
    KeyStorage × KeyHeap :=
  let dst := dst.setFlag longStringFlag
  let heap := heap.alloc addr uninit
  let dst := dst.setBuf addr
  let dst := dst.setLongKeyLength uninit.length
  (dst, heap)

def init (dst : KeyStorage) (heap : KeyHeap) (addr : ℕ) (bytes : Bytes) :
    Option (KeyStorage × KeyHeap) :=
  if h : bytes.length ≤ maxInlineLength then
    some ((dst.setFlag bytes.length).setInline bytes h, heap)
  else
    let r := dst.newLong heap addr (replicate bytes.length 0)
    (fillBuffer r.2 r.1.buf bytes).map fun heap => (r.1, heap)

/-- `make_with_length`, for the length of `uninit`. -/
def makeWithLength (dst : KeyStorage) (heap : KeyHeap) (addr : ℕ) (uninit : Bytes) :
    KeyStorage × KeyHeap :=
  if uninit.length ≤ maxInlineLength then (dst.setFlag uninit.length, heap)
  else dst.newLong heap addr uninit

/-- The bytes copied to `data()` by `read_key_unsafe`. -/
def fill (k : KeyStorage) (heap : KeyHeap) (bytes : Bytes) : Option (KeyStorage × KeyHeap) :=
  if k.isLongStr then (fillBuffer heap k.buf bytes).map fun heap => (k, heap)
  else if h : bytes.length ≤ maxInlineLength then some (k.setInline bytes h, heap) else none

def freeIfLongStr (k : KeyStorage) (heap : KeyHeap) : Option (KeyStorage × KeyHeap) :=
  if k.isLongStr ∧ k.buf ≠ 0 then
    (heap.free k.buf).map fun heap => ((k.setFlag 0).setBuf 0, heap)
  else some (k, heap)

def longStrCopyUnsafe (dest src : KeyStorage) (heap : KeyHeap) (addr : ℕ) :
    Option (KeyStorage × KeyHeap) :=
  let r := dest.newLong heap addr (replicate src.longKeyLength 0)
  (readBuffer r.2 src.buf src.longKeyLength).bind fun bytes =>
    (fillBuffer r.2 r.1.buf bytes).map fun heap => (r.1, heap)

/-- `_copy`, behind the release of the destination. -/
def copyInto (dst src : KeyStorage) (heap : KeyHeap) (addr : ℕ) : Option (KeyStorage × KeyHeap) :=
  if src.isLongStr then longStrCopyUnsafe dst src heap addr
  -- `_short_str_copy_unsafe` copies all of the storage
  else some (src, heap)

/-- `_copy<STORAGE_INITIALIZED>`. -/
def copy (storageInitialized : Bool) (dst src : KeyStorage) (heap : KeyHeap) (addr : ℕ) :
    Option (KeyStorage × KeyHeap) :=
  (if storageInitialized then dst.freeIfLongStr heap else some (dst, heap)).bind fun r =>
    r.1.copyInto src r.2 addr

/-- `_move`, behind the release of the destination: the destination and the source. -/
def moveInto (dst src : KeyStorage) : KeyStorage × KeyStorage :=
  if src.isLongStr then
    let dst := dst.setBuf src.buf
    let src := src.setBuf 0
    let dst := dst.setLongKeyLength src.longKeyLength
    let src := src.setLongKeyLength 0
    (dst.setFlag longStringFlag, src.setFlag 0)
  else (src, src)

/-- `_move<true>` of an object to itself: the exchanges put back what they take out. -/
def moveSelf (k : KeyStorage) (heap : KeyHeap) : Option (KeyStorage × KeyHeap) :=
  (k.freeIfLongStr heap).map fun r =>
    (if r.1.isLongStr then (r.1.setFlag longStringFlag).setFlag 0 else r.1, r.2)

/-- `_move<STORAGE_INITIALIZED>` between two objects. -/
def move (storageInitialized : Bool) (dst src : KeyStorage) (heap : KeyHeap) :
    Option (KeyStorage × KeyStorage × KeyHeap) :=
  (if storageInitialized then dst.freeIfLongStr heap else some (dst, heap)).map fun r =>
    ((r.1.moveInto src).1, (r.1.moveInto src).2, r.2)

/-! ### What the assignments leave -/

section Fields

variable (k : KeyStorage) {a len v : ℕ}

theorem off_le (h : off ≤ 32) : off ≤ k.bytes.length := k.length_bytes.symm ▸ h

theorem buf_setBuf (ha : a < 2 ^ 64) : (k.setBuf a).buf = a :=
  field_writeAt_le (k.off_le (by decide)) (ha.trans_eq (by decide))

@[simp] theorem longKeyLength_setBuf : (k.setBuf a).longKeyLength = k.longKeyLength :=
  field_writeAt_behind (by rw [length_le]) (k.off_le (by decide))

@[simp] theorem flagByte_setBuf : (k.setBuf a).flagByte = k.flagByte :=
  field_writeAt_behind (by rw [length_le]; decide) (k.off_le (by decide))

@[simp] theorem buf_setLongKeyLength : (k.setLongKeyLength len).buf = k.buf :=
  field_writeAt_front (by decide) (k.off_le (by decide))

theorem longKeyLength_setLongKeyLength (hlen : len < 2 ^ 64) :
    (k.setLongKeyLength len).longKeyLength = len :=
  field_writeAt_le (k.off_le (by decide)) (hlen.trans_eq (by decide))

@[simp] theorem flagByte_setLongKeyLength : (k.setLongKeyLength len).flagByte = k.flagByte :=
  field_writeAt_behind (by rw [length_le]; decide) (k.off_le (by decide))

@[simp] theorem buf_setFlag : (k.setFlag v).buf = k.buf :=
  field_writeAt_front (by decide) (k.off_le (by decide))

@[simp] theorem longKeyLength_setFlag : (k.setFlag v).longKeyLength = k.longKeyLength :=
  field_writeAt_front (by decide) (k.off_le (by decide))

theorem flagByte_setFlag (hv : v < 256) : (k.setFlag v).flagByte = v :=
  field_writeAt_le (k.off_le (by decide)) (hv.trans_eq (by decide))

theorem take_setFlag (hn : n ≤ maxInlineLength) : (k.setFlag v).bytes.take n = k.bytes.take n :=
  take_writeAt hn (k.off_le (by decide))

variable {bytes : Bytes} (h : bytes.length ≤ maxInlineLength)

theorem flagByte_setInline : (k.setInline bytes h).flagByte = k.flagByte :=
  field_writeAt_behind (by rw [Nat.zero_add]; exact h) (k.off_le (by decide))

theorem take_setInline : (k.setInline bytes h).bytes.take bytes.length = bytes := by
  show (ByteCodec.writeAt k.bytes 0 bytes).take bytes.length = bytes
  rw [ByteCodec.writeAt, take_zero, nil_append, take_left]

theorem buf_lt : k.buf < 2 ^ 64 :=
  (field_lt (k.off_le (by decide))).trans_eq (by decide)

theorem longKeyLength_lt : k.longKeyLength < 2 ^ 64 :=
  (field_lt (k.off_le (by decide))).trans_eq (by decide)

variable {k}

theorem isLongStr_of_long (hk : k.flagByte = longStringFlag) : k.isLongStr = true := by
  rw [isLongStr, hk]
  rfl

theorem isLongStr_of_short (hk : k.flagByte ≤ maxInlineLength) : k.isLongStr = false := by
  have hbit : k.flagByte.testBit 7 = false :=
    Nat.testBit_lt_two_pow (hk.trans_lt (by decide))
  have hand : k.flagByte &&& longStringFlag = 0 := by
    show k.flagByte &&& 2 ^ 7 = 0
    rw [Nat.and_two_pow, hbit]
    rfl
  rw [isLongStr, hand]
  rfl

end Fields

/-! ### How a byte string lies in the storage -/

/-- The buffer that the destructor would delete. -/
def owned (k : KeyStorage) : Option ℕ := if k.isLongStr ∧ k.buf ≠ 0 then some k.buf else none

/-- The storage and the heap hold the byte string. -/
inductive Holds (cells : ℕ → Option (ℕ × Bytes)) (k : KeyStorage) (v : Bytes) : Prop
  | short (hlen : v.length ≤ maxInlineLength) (hflag : k.flagByte = v.length)
      (hbytes : k.bytes.take v.length = v)
  | long (hlen : maxInlineLength < v.length) (hflag : k.flagByte = longStringFlag)
      (hlong : k.longKeyLength = v.length) (hbuf : k.buf ≠ 0)
      (hcell : ∃ n, cells k.buf = some (n, v))

/-- What a key reads back as when its value has been moved away. -/
def movedFrom (v : Bytes) : Bytes := if maxInlineLength < v.length then [] else v

section Holds

variable {cells cells' : ℕ → Option (ℕ × Bytes)} {k : KeyStorage} {v : Bytes}

theorem owned_of_short (hk : k.isLongStr = false) : k.owned = none :=
  if_neg fun h => Bool.false_ne_true (hk.symm.trans h.1)

theorem owned_of_long (hk : k.isLongStr = true) (hbuf : k.buf ≠ 0) : k.owned = some k.buf :=
  if_pos ⟨hk, hbuf⟩

theorem Holds.isLongStr (h : k.Holds cells v) : k.isLongStr = true ↔ maxInlineLength < v.length := by
  cases h with
  | short hlen hflag hbytes =>
    rw [isLongStr_of_short (hflag.trans_le hlen)]
    exact iff_of_false Bool.false_ne_true (Nat.not_lt.mpr hlen)
  | long hlen hflag hlong hbuf hcell => exact iff_of_true (isLongStr_of_long hflag) hlen

theorem Holds.owned_long (h : k.Holds cells v) (hlen : maxInlineLength < v.length) :
    k.owned = some k.buf ∧ k.longKeyLength = v.length ∧ ∃ n, cells k.buf = some (n, v) := by
  cases h with
  | short hlen' => omega
  | long _ hflag hlong hbuf hcell =>
    exact ⟨owned_of_long (isLongStr_of_long hflag) hbuf, hlong, hcell⟩

theorem Holds.owned_short (h : k.Holds cells v) (hlen : v.length ≤ maxInlineLength) :
    k.owned = none :=
  owned_of_short (Bool.eq_false_iff.mpr fun hk => Nat.not_lt.mpr hlen (h.isLongStr.mp hk))

theorem Holds.frame (h : k.Holds cells v) (hcells : ∀ a, k.owned = some a → cells' a = cells a) :
    k.Holds cells' v := by
  cases h with
  | short hlen hflag hbytes => exact .short hlen hflag hbytes
  | long hlen hflag hlong hbuf hcell =>
    refine .long hlen hflag hlong hbuf ?_
    rwa [hcells _ (owned_of_long (isLongStr_of_long hflag) hbuf)]

theorem readBuffer_eq {heap : KeyHeap} {a : ℕ} (ha : heap.cells a = some (n, v)) :
    readBuffer heap a v.length = some v := by
  rw [readBuffer, Heap.read, ha]
  show (if v.length ≤ v.length then some (v.take v.length) else none) = some v
  rw [if_pos le_rfl, take_length]

/-- **`size` and `as_bytes`** give the byte string. -/
theorem Holds.reads {heap : KeyHeap} (h : k.Holds heap.cells v) :
    k.size = v.length ∧ k.asBytes heap = some v := by
  cases h with
  | short hlen hflag hbytes =>
    have hshort := isLongStr_of_short (hflag.trans_le hlen)
    refine ⟨?_, ?_⟩
    · simp [size, hshort, hflag]
    · simp [asBytes, hshort, hflag, hlen, hbytes]
  | long hlen hflag hlong hbuf hcell =>
    obtain ⟨n, hn⟩ := hcell
    have hk := isLongStr_of_long hflag
    refine ⟨?_, ?_⟩
    · simp [size, hk, hlong]
    · rw [asBytes, if_pos hk, hlong, readBuffer_eq hn]

theorem holds_zero : zero.Holds cells [] := .short (Nat.zero_le _) (by decide) rfl

theorem holds_nil (hk : k.flagByte = 0) : k.Holds cells [] :=
  .short (Nat.zero_le _) hk rfl

end Holds

/-! ### What the operations give -/

/-- Storage that was made to hold `v`, inline or with a new buffer. -/
inductive Built (heap : KeyHeap) (v : Bytes) (d : KeyStorage) : KeyHeap → Prop
  | inline (hlen : v.length ≤ maxInlineLength) (hholds : d.Holds heap.cells v) : Built heap v d heap
  | boxed {a : ℕ} (ha : heap.cells a = none) (howned : d.owned = some a)
      (hholds : d.Holds (heap.alloc a v).cells v) : Built heap v d (heap.alloc a v)

section Operations

variable {heap : KeyHeap} {addr : ℕ} {dst src k : KeyStorage} {v uninit : Bytes}

theorem fillBuffer_eq {a : ℕ} (ha : heap.cells a = some (n, uninit))
    (hlen : uninit.length = v.length) : fillBuffer heap a v = some (heap.overwrite a n v) := by
  rw [fillBuffer, Heap.read, ha]
  show (if v.length ≤ uninit.length then _ else none) = _
  rw [if_pos hlen.ge, ← hlen, drop_length, append_nil, Heap.store_eq ha]

theorem fillBuffer_alloc (hlen : uninit.length = v.length) :
    fillBuffer (heap.alloc addr uninit) addr v = some (heap.alloc addr v) := by
  rw [fillBuffer_eq Heap.alloc_cells_self hlen, Heap.overwrite_alloc]

theorem newLong_built (dst : KeyStorage) (hlen : maxInlineLength < v.length) (hv : v.length < 2 ^ 64)
    (hfresh : Fresh heap addr) (huninit : uninit.length = v.length) :
    (dst.newLong heap addr uninit).1.buf = addr ∧
      Built heap v (dst.newLong heap addr uninit).1 (heap.alloc addr v) := by
  obtain ⟨hne, hlt, hnone⟩ := hfresh
  have hbuf : (dst.newLong heap addr uninit).1.buf = addr := by
    rw [newLong, buf_setLongKeyLength, buf_setBuf _ hlt]
  have hflag : (dst.newLong heap addr uninit).1.flagByte = longStringFlag := by
    rw [newLong, flagByte_setLongKeyLength, flagByte_setBuf, flagByte_setFlag _ (by decide)]
  have hlong : (dst.newLong heap addr uninit).1.longKeyLength = v.length := by
    rw [newLong, huninit, longKeyLength_setLongKeyLength _ hv]
  generalize (dst.newLong heap addr uninit).1 = d at hbuf hflag hlong
  subst hbuf
  exact ⟨rfl, .boxed hnone (owned_of_long (isLongStr_of_long hflag) hne)
    (.long hlen hflag hlong hne ⟨heap.count, Heap.alloc_cells_self⟩)⟩

/-- **`_init`.** -/
theorem init_spec (dst : KeyStorage) (hv : v.length < 2 ^ 64) (hfresh : maxInlineLength < v.length → Fresh heap addr) :
    ∃ d heap', dst.init heap addr v = some (d, heap') ∧ Built heap v d heap' := by
  by_cases hlen : v.length ≤ maxInlineLength
  · have hflag : ((dst.setFlag v.length).setInline v hlen).flagByte = v.length := by
      rw [flagByte_setInline, flagByte_setFlag _ (hlen.trans_lt (by decide))]
    exact ⟨_, heap, by rw [init, dif_pos hlen], .inline hlen (.short hlen hflag (take_setInline ..))⟩
  · have hlong : maxInlineLength < v.length := Nat.lt_of_not_le hlen
    obtain ⟨hbuf, hbuilt⟩ := newLong_built dst hlong hv (hfresh hlong)
      (length_replicate (a := (0 : UInt8)))
    refine ⟨_, _, ?_, hbuilt⟩
    rw [init, dif_neg hlen]
    show (fillBuffer (heap.alloc addr _) (dst.newLong heap addr _).1.buf v).map _ = _
    rw [hbuf, fillBuffer_alloc length_replicate, Option.map_some]

/-- What the memory holds when `make_with_length` returns. -/
def leftIn (dst : KeyStorage) (uninit : Bytes) : Bytes :=
  if uninit.length ≤ maxInlineLength then dst.bytes.take uninit.length else uninit

/-- **`make_with_length`.** -/
theorem makeWithLength_spec (hv : uninit.length < 2 ^ 64)
    (hfresh : maxInlineLength < uninit.length → Fresh heap addr) :
    Built heap (dst.leftIn uninit) (dst.makeWithLength heap addr uninit).1
      (dst.makeWithLength heap addr uninit).2 := by
  by_cases hlen : uninit.length ≤ maxInlineLength
  · have htake : (dst.bytes.take uninit.length).length = uninit.length :=
      length_take_of_le (dst.off_le (hlen.trans (by decide)))
    rw [makeWithLength, leftIn, if_pos hlen, if_pos hlen]
    refine .inline (htake.trans_le hlen) (.short (htake.trans_le hlen) ?_ ?_)
    · rw [htake, flagByte_setFlag _ (hlen.trans_lt (by decide))]
    · rw [htake, take_setFlag _ hlen]
  · rw [makeWithLength, leftIn, if_neg hlen, if_neg hlen]
    have hlong : maxInlineLength < uninit.length := Nat.lt_of_not_le hlen
    exact (newLong_built dst hlong hv (hfresh hlong) rfl).2

/-- **`_copy`** into storage that owns nothing. -/
theorem copyInto_spec (dst : KeyStorage) (hsrc : src.Holds heap.cells v)
    (hfresh : src.isLongStr = true → Fresh heap addr) :
    ∃ d heap', dst.copyInto src heap addr = some (d, heap') ∧ Built heap v d heap' := by
  cases hk : src.isLongStr with
  | false =>
    have hlen : v.length ≤ maxInlineLength := by
      by_contra hlt
      exact Bool.false_ne_true (hk.symm.trans (hsrc.isLongStr.mpr (Nat.lt_of_not_le hlt)))
    refine ⟨src, heap, ?_, .inline hlen hsrc⟩
    rw [copyInto, if_neg (by rw [hk]; exact Bool.false_ne_true)]
  | true =>
    have hlen := hsrc.isLongStr.mp hk
    have hfresh := hfresh hk
    obtain ⟨-, hlong, n, hcell⟩ := hsrc.owned_long hlen
    -- the new buffer is not the one that is read
    have hne : src.buf ≠ addr := by
      intro heq
      rw [heq, hfresh.2.2] at hcell
      cases hcell
    obtain ⟨hbuf, hbuilt⟩ := newLong_built dst hlen
      (hlong ▸ src.longKeyLength_lt) hfresh (length_replicate (a := (0 : UInt8)))
    refine ⟨_, _, ?_, hbuilt⟩
    have hread : readBuffer (heap.alloc addr (replicate v.length 0)) src.buf v.length =
        some v := readBuffer_eq ((Heap.alloc_cells_of_ne hne).trans hcell)
    rw [copyInto, if_pos hk, longStrCopyUnsafe, hlong]
    show (readBuffer (heap.alloc addr _) src.buf v.length).bind _ = _
    rw [hread, Option.bind_some, hbuf]
    show (fillBuffer (heap.alloc addr _) addr v).map _ = _
    rw [fillBuffer_alloc length_replicate, Option.map_some]

theorem moveInto_fields (dst : KeyStorage) (hk : src.isLongStr = true) :
    (dst.moveInto src).1.buf = src.buf ∧ (dst.moveInto src).1.flagByte = longStringFlag ∧
      (dst.moveInto src).1.longKeyLength = src.longKeyLength ∧
      (dst.moveInto src).2.flagByte = 0 := by
  rw [moveInto, if_pos hk]
  refine ⟨?_, ?_, ?_, ?_⟩
  · rw [buf_setFlag, buf_setLongKeyLength, buf_setBuf _ src.buf_lt]
  · rw [flagByte_setFlag _ (by decide)]
  · rw [longKeyLength_setFlag, longKeyLength_setBuf,
      longKeyLength_setLongKeyLength _ src.longKeyLength_lt]
  · rw [flagByte_setFlag _ (by decide)]

/-- **`_move`** into storage that owns nothing: the buffer goes over to the destination. -/
theorem moveInto_spec (dst : KeyStorage) {cells : ℕ → Option (ℕ × Bytes)} (hsrc : src.Holds cells v) :
    (dst.moveInto src).1.Holds cells v ∧ (dst.moveInto src).2.Holds cells (movedFrom v) ∧
      (dst.moveInto src).1.owned = src.owned ∧ (dst.moveInto src).2.owned = none := by
  cases hsrc with
  | short hlen hflag hbytes =>
    have hk := isLongStr_of_short (hflag.trans_le hlen)
    rw [moveInto, if_neg (by rw [hk]; exact Bool.false_ne_true), movedFrom,
      if_neg (Nat.not_lt.mpr hlen)]
    exact ⟨.short hlen hflag hbytes, .short hlen hflag hbytes, rfl, owned_of_short hk⟩
  | long hlen hflag hlong hbuf hcell =>
    have hk := isLongStr_of_long hflag
    obtain ⟨hdbuf, hdflag, hdlong, hsflag⟩ := moveInto_fields dst hk
    rw [movedFrom, if_pos hlen]
    generalize dst.moveInto src = r at hdbuf hdflag hdlong hsflag
    have hrbuf : r.1.buf ≠ 0 := by rwa [hdbuf]
    refine ⟨.long hlen hdflag (hdlong.trans hlong) hrbuf (by rwa [hdbuf]), holds_nil hsflag, ?_,
      owned_of_short (isLongStr_of_short (by rw [hsflag]; exact Nat.zero_le _))⟩
    rw [owned_of_long hk hbuf, owned_of_long (isLongStr_of_long hdflag) hrbuf, hdbuf]

/-- `_free_if_long_str`: nothing happens, or the owned buffer is deleted and the key empty. -/
theorem freeIfLongStr_cases (k : KeyStorage) (heap : KeyHeap) :
    k.owned = none ∧ k.freeIfLongStr heap = some (k, heap) ∨
      k.owned = some k.buf ∧ ((k.setFlag 0).setBuf 0).flagByte = 0 ∧
        k.freeIfLongStr heap = (heap.free k.buf).map fun heap => ((k.setFlag 0).setBuf 0, heap) := by
  by_cases hk : k.isLongStr ∧ k.buf ≠ 0
  · refine .inr ⟨if_pos hk, ?_, if_pos hk⟩
    rw [flagByte_setBuf, flagByte_setFlag _ (by decide)]
  · exact .inl ⟨if_neg hk, if_neg hk⟩

end Operations

end KeyStorage

end HedgeDB
