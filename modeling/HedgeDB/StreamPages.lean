/-
HedgeDB/StreamPages.lean

Streaming the blocks of an SST (`src/db/merge/sst_stream.h`, `block_buffer_reader` of
`src/db/block.h`, `src/fs/file_reader2.cc`).

Three cursors are nested: the entry in a block, the block in a buffer and the buffer
in a queue.  `refresh` reads the next buffer from the file and puts it at the end of
the queue, `pop_front` moves the cursors.  `Streaming` says what is still to come, and
neither call changes it but for the entry that is popped.

Sizes are 64-bit numbers, and no buffer of `2 ^ 63` bytes can be allocated.  A read takes
its length as a 32-bit number, does not fail and transfers at most `maxRwCount` bytes;
`refresh` does not look at how many there were, and the rest of the buffer stays zero.
-/
import HedgeDB.Run
import HedgeDB.SstLookup

namespace HedgeDB

open List

variable {checksum : Bytes → UInt32}

/-! ### The file reader -/

/-- `file_reader2` on a file. -/
structure FileReader where
  file : Bytes
  hasDirectAccess : Bool
  endOffset : ℕ
  readAheadSize : ℕ
  currentOffset : ℕ

namespace FileReader

def make (file : Bytes) (hasDirectAccess : Bool) (startOffset endOffset readAheadSize : ℕ) :
    FileReader :=
  { file, hasDirectAccess, endOffset
    readAheadSize :=
      if readAheadSize % pageSizeInBytes = 0 then readAheadSize else ceilPageAlign readAheadSize
    currentOffset := startOffset }

def isEof (r : FileReader) : Bool := r.currentOffset ≥ r.endOffset

/-- How much `next` reads. -/
def bytesToRead (r : FileReader) : ℕ :=
  let bytes :=
    if (r.currentOffset + r.readAheadSize) % 2 ^ 64 > r.endOffset then r.endOffset - r.currentOffset
    else r.readAheadSize
  if r.hasDirectAccess ∧ bytes % pageSizeInBytes ≠ 0 then ceilPageAlign bytes else bytes

/-- `MAX_RW_COUNT` of Linux: what one request transfers at most. -/
def maxRwCount : ℕ := 0x7ffff000

/-- What a read of `len` bytes transfers: `io_uring_prep_read` takes the length as an
`unsigned`. -/
def transferred (len : ℕ) : ℕ := min (len % 2 ^ 32) maxRwCount

/-- `next`: nothing at the end, and otherwise a buffer and the reader behind it. -/
def next (r : FileReader) : Option (Option (Bytes × FileReader)) :=
  if r.currentOffset ≥ r.endOffset then some none
  else if r.bytesToRead ≥ 2 ^ 63 then none
  else
    let data := (r.file.drop r.currentOffset).take (transferred r.bytesToRead)
    some (some (data ++ replicate (r.bytesToRead - data.length) 0,
      { r with currentOffset := (r.currentOffset + r.bytesToRead) % 2 ^ 64 }))

end FileReader

/-! ### The blocks of a buffer -/

/-- `block_buffer_reader`: what lies between `_next` and `_end`, and the block that is
read. -/
structure BlockBufferReader where
  next : Bytes := []
  blockDecoder : BlockDecoder := { page := [], kvCount := 0, checksum := 0 }
  blockIt : BlockIterator := { head := [], kvIdx := 0, kvsInBlockCount := 0, restartGroupSize := 0 }
  skipChecksum : Bool

namespace BlockBufferReader

/-- `reset`.  A buffer of less than a page has no footer to read. -/
def reset (checksum : Bytes → UInt32) (r : BlockBufferReader) (buffer : Bytes) :
    Option (Expected Unit × BlockBufferReader) :=
  if buffer.length < pageSizeInBytes then none
  else do
    let blockDecoder := BlockDecoder.reset blockConfig (buffer.take pageSizeInBytes)
    let blockIt ← blockDecoder.begin blockConfig
    some (if r.skipChecksum then .ok () else blockDecoder.sanityCheck checksum blockConfig,
      { r with next := buffer.drop pageSizeInBytes, blockDecoder, blockIt })

/-- `next`: to the next entry, in the next block if this one has no more. -/
def advance (checksum : Bytes → UInt32) (r : BlockBufferReader) :
    Option (Expected Unit × BlockBufferReader) := do
  let blockIt ← r.blockIt.readNext
  if ¬ blockIt.atEnd ∨ r.next = [] then some (.ok (), { r with blockIt })
  else if r.next.length < pageSizeInBytes then none
  else
    let blockDecoder := BlockDecoder.reset blockConfig (r.next.take pageSizeInBytes)
    let r := { r with next := r.next.drop pageSizeInBytes, blockDecoder, blockIt }
    match if r.skipChecksum then .ok () else blockDecoder.sanityCheck checksum blockConfig with
    | .error err => some (.error err, r)
    | .ok _ => do
        let blockIt ← blockDecoder.begin blockConfig
        some (.ok (), { r with blockIt })

/-- Comparison with `block_buffer_end_sentinel`. -/
def atEnd (r : BlockBufferReader) : Bool := r.next.isEmpty && r.blockIt.atEnd

end BlockBufferReader

/-! ### The stream -/

/-- `sst_stream`. -/
structure PageStream where
  buffers : List Bytes := []
  reader : FileReader
  blockReader : BlockBufferReader := { skipChecksum := true }

namespace PageStream

def make (file : Bytes) (hasDirectAccess : Bool) (startOffset endOffset readAheadSize : ℕ) :
    PageStream :=
  { reader := .make file hasDirectAccess startOffset endOffset readAheadSize }

def push (checksum : Bytes → UInt32) (s : PageStream) (buffer : Bytes) :
    Option (Expected Unit × PageStream) :=
  let s := { s with buffers := s.buffers ++ [buffer] }
  if s.buffers.length = 1 then do
    let (status, blockReader) ← s.blockReader.reset checksum buffer
    some (status, { s with blockReader })
  else some (.ok (), s)

def refresh (checksum : Bytes → UInt32) (s : PageStream) : Option (Expected Unit × PageStream) :=
  if s.reader.isEof then some (.ok (), s)
  else
    match s.reader.next with
    | none => none
    | some none => some (.ok (), s)
    | some (some (buffer, reader)) => { s with reader }.push checksum buffer

def popFront (checksum : Bytes → UInt32) (s : PageStream) : Option (Expected Unit × PageStream) := do
  let (status, blockReader) ← s.blockReader.advance checksum
  match status with
  | .error err => some (.error err, { s with blockReader })
  | .ok _ =>
      if ¬ blockReader.atEnd then some (.ok (), { s with blockReader })
      else
        match s.buffers.tail with
        | [] => some (.ok (), { s with buffers := [], blockReader })
        | buffer :: rest => do
            let (status, blockReader) ← blockReader.reset checksum buffer
            some (status, { s with buffers := buffer :: rest, blockReader })

/-- `front`: the entry at the iterator. -/
def front (s : PageStream) : Bytes × Bytes := (s.blockReader.blockIt.key, s.blockReader.blockIt.value)

def bufferEmpty (s : PageStream) : Bool := s.buffers.isEmpty

def isEof (s : PageStream) : Bool := s.reader.isEof && s.bufferEmpty

end PageStream

/-- What a user of the stream calls. -/
inductive StreamAct
  | refresh
  | popFront
  deriving DecidableEq

/-- A call, with the entries that were at the front when they were popped.  `pop_front` is
not called on an empty buffer, and a call that fails ends the use of the stream. -/
def streamStep (checksum : Bytes → UInt32) :
    PageStream × List (Bytes × Bytes) → StreamAct → Option (PageStream × List (Bytes × Bytes))
  | (s, seen), .refresh =>
      match s.refresh checksum with
      | some (.ok _, s') => some (s', seen)
      | _ => none
  | (s, seen), .popFront =>
      if s.bufferEmpty then none
      else
        match s.popFront checksum with
        | some (.ok _, s') => some (s', seen ++ [s.front])
        | _ => none

/-! ### Blocks in bytes -/

/-- Bytes that are the pages of non-empty blocks. -/
def HoldsBlocks : Bytes → List (List (Bytes × Bytes)) → Prop
  | bytes, [] => bytes = []
  | bytes, block :: blocks =>
      pageSizeInBytes ≤ bytes.length ∧ block ≠ [] ∧
        (BlockDecoder.reset blockConfig (bytes.take pageSizeInBytes)).entries blockConfig =
          some block ∧
        HoldsBlocks (bytes.drop pageSizeInBytes) blocks

variable {blocks : List (List (Bytes × Bytes))} {bytes : Bytes}

theorem HoldsBlocks.length (h : HoldsBlocks bytes blocks) :
    bytes.length = pageSizeInBytes * blocks.length := by
  induction blocks generalizing bytes with
  | nil => exact congrArg length h
  | cons block blocks ih =>
    obtain ⟨hle, -, -, hrest⟩ := h
    have hlen := ih hrest
    rw [length_drop] at hlen
    rw [length_cons, Nat.mul_succ]
    omega

theorem holdsBlocks_flatten_iff {pages : List Bytes}
    (hlen : ∀ page ∈ pages, page.length = pageSizeInBytes) :
    HoldsBlocks pages.flatten blocks ↔
      Forall₂ (fun page block => block ≠ [] ∧
        (BlockDecoder.reset blockConfig page).entries blockConfig = some block) pages blocks := by
  induction pages generalizing blocks with
  | nil =>
    rcases blocks with - | ⟨block, blocks⟩
    · exact ⟨fun _ => .nil, fun _ => rfl⟩
    · constructor
      · intro h
        exact absurd h.1 (by decide)
      · intro h
        cases h
  | cons page pages ih =>
    obtain ⟨hpage, hpages⟩ := forall_mem_cons.mp hlen
    rcases blocks with - | ⟨block, blocks⟩
    · constructor
      · intro h
        have hzero : (page ++ pages.flatten).length = 0 := congrArg length h
        rw [length_append, hpage] at hzero
        exact absurd hzero (by rw [pageSizeInBytes]; omega)
      · intro h
        cases h
    · rw [HoldsBlocks, flatten_cons, take_left' hpage, drop_left' hpage,
        forall₂_cons, ih hpages, length_append, hpage]
      constructor
      · rintro ⟨-, hne, hread, hrest⟩
        exact ⟨⟨hne, hread⟩, hrest⟩
      · rintro ⟨⟨hne, hread⟩, hrest⟩
        exact ⟨Nat.le_add_right _ _, hne, hread, hrest⟩

theorem HoldsBlocks.split (h : HoldsBlocks bytes blocks) (n : ℕ) :
    HoldsBlocks (bytes.take (pageSizeInBytes * n)) (blocks.take n) ∧
      HoldsBlocks (bytes.drop (pageSizeInBytes * n)) (blocks.drop n) := by
  induction n generalizing bytes blocks with
  | zero => exact ⟨by simp [HoldsBlocks], by simpa using h⟩
  | succ n ih =>
    rcases blocks with - | ⟨block, blocks⟩
    · obtain rfl : bytes = [] := h
      simp [HoldsBlocks]
    · obtain ⟨hle, hne, hentries, hrest⟩ := h
      obtain ⟨htake, hdrop⟩ := ih hrest
      rw [Nat.mul_succ, Nat.add_comm (pageSizeInBytes * n)]
      refine ⟨⟨?_, hne, ?_, ?_⟩, ?_⟩
      · rw [length_take]
        omega
      · rw [take_take, Nat.min_eq_left (Nat.le_add_right _ _)]
        exact hentries
      · rw [drop_take, Nat.add_sub_cancel_left]
        exact htake
      · rw [← drop_drop]
        exact hdrop

/-! ### The entries left in a block -/

section Block

variable {it it' : BlockIterator}

theorem readByte_frame {b : UInt8} (h : it.readByte = some (b, it')) :
    it' = { it with head := it'.head } := by
  rw [BlockIterator.readByte] at h
  split at h
  · cases h
  · cases h
    rfl

theorem readSpan_frame {n : ℕ} (h : it.readSpan n = some (bytes, it')) :
    it' = { it with head := it'.head } := by
  rw [BlockIterator.readSpan] at h
  split at h
  · cases h
    rfl
  · cases h

theorem readNext_frame (h : it.readNext = some it') :
    it'.kvIdx = it.kvIdx + 1 ∧ it'.kvsInBlockCount = it.kvsInBlockCount := by
  rw [BlockIterator.readNext] at h
  dsimp only at h
  split at h
  · cases h
    exact ⟨rfl, rfl⟩
  · split at h
    · obtain ⟨⟨b, it₁⟩, hbyte, h₁⟩ := Option.bind_eq_some_iff.mp h
      obtain ⟨⟨key, it₂⟩, hspan, h₂⟩ := Option.bind_eq_some_iff.mp h₁
      obtain ⟨-, hidx, hcount⟩ := readValue_frame h₂
      rw [hidx, hcount]
      dsimp only
      rw [readSpan_frame hspan, readByte_frame hbyte]
      exact ⟨rfl, rfl⟩
    · obtain ⟨⟨shared, it₁⟩, hbyte, h₁⟩ := Option.bind_eq_some_iff.mp h
      obtain ⟨⟨delta, it₂⟩, hbyte', h₂⟩ := Option.bind_eq_some_iff.mp h₁
      obtain ⟨⟨suffix, it₃⟩, hspan, h₃⟩ := Option.bind_eq_some_iff.mp h₂
      obtain ⟨-, hidx, hcount⟩ := readValue_frame h₃
      rw [hidx, hcount]
      dsimp only
      rw [readSpan_frame hspan, readByte_frame hbyte', readByte_frame hbyte]
      exact ⟨rfl, rfl⟩

/-- The iterator is at an entry, and `left` are the entries from there to the end of the
block. -/
def BlockLeft (it : BlockIterator) (left : List (Bytes × Bytes)) : Prop :=
  it.kvIdx ≤ it.kvsInBlockCount ∧ it.toEnd (it.kvsInBlockCount + 2 - it.kvIdx) = some left

theorem BlockLeft.readNext {left : List (Bytes × Bytes)} (h : BlockLeft it left) :
    ∃ tail it', left = (it.key, it.value) :: tail ∧ it.readNext = some it' ∧
      (it'.atEnd = true ∧ tail = [] ∨ it'.atEnd = false ∧ BlockLeft it' tail) := by
  obtain ⟨hidx, hread⟩ := h
  obtain ⟨fuel, hfuel⟩ : ∃ n, it.kvsInBlockCount + 2 - it.kvIdx = n + 2 :=
    ⟨it.kvsInBlockCount - it.kvIdx, by omega⟩
  have hend : it.atEnd = false := by
    rw [BlockIterator.atEnd, decide_eq_false_iff_not]
    omega
  rw [hfuel, BlockIterator.toEnd, hend, if_neg Bool.false_ne_true] at hread
  obtain ⟨it', hnext, hread'⟩ := Option.bind_eq_some_iff.mp hread
  obtain ⟨tail, htail, hcons⟩ := Option.bind_eq_some_iff.mp hread'
  obtain ⟨hidx', hcount⟩ := readNext_frame hnext
  refine ⟨tail, it', (Option.some.inj hcons).symm, hnext, ?_⟩
  cases hend' : it'.atEnd with
  | true =>
    rw [BlockIterator.toEnd, hend', if_pos rfl] at htail
    exact .inl ⟨rfl, (Option.some.inj htail).symm⟩
  | false =>
    rw [BlockIterator.atEnd, decide_eq_false_iff_not] at hend'
    refine .inr ⟨rfl, by omega, ?_⟩
    rwa [show it'.kvsInBlockCount + 2 - it'.kvIdx = fuel + 1 by omega]

theorem blockLeft_begin {d : BlockDecoder} {block : List (Bytes × Bytes)} (hne : block ≠ [])
    (h : d.entries blockConfig = some block) :
    ∃ it, d.begin blockConfig = some it ∧ BlockLeft it block := by
  obtain ⟨it, hbegin, hread⟩ := Option.bind_eq_some_iff.mp h
  obtain ⟨hidx, hcount⟩ := readNext_frame hbegin
  dsimp only at hidx hcount
  refine ⟨it, hbegin, ?_, ?_⟩
  · by_contra hend
    have hatEnd : it.atEnd = true := by
      rw [BlockIterator.atEnd, decide_eq_true_eq]
      omega
    rw [BlockIterator.toEnd, if_pos hatEnd] at hread
    exact hne (Option.some.inj hread).symm
  · rwa [hcount, hidx]

end Block

/-! ### The entries left in a buffer -/

section Buffer

variable {r : BlockBufferReader} {left : List (Bytes × Bytes)}

/-- The reader is at an entry, and `left` are the entries from there to the end of the
buffer. -/
def BufferLeft (r : BlockBufferReader) (left : List (Bytes × Bytes)) : Prop :=
  ∃ cur blocks, BlockLeft r.blockIt cur ∧ HoldsBlocks r.next blocks ∧ left = cur ++ blocks.flatten

theorem reset_spec (checksum : Bytes → UInt32) (hskip : r.skipChecksum = true) {buffer : Bytes}
    (hne : blocks ≠ []) (h : HoldsBlocks buffer blocks) :
    ∃ r', r.reset checksum buffer = some (.ok (), r') ∧ BufferLeft r' blocks.flatten ∧
      r'.skipChecksum = true := by
  obtain ⟨block, blocks, rfl⟩ := exists_cons_of_ne_nil hne
  obtain ⟨hle, hblock, hentries, hrest⟩ := h
  obtain ⟨it, hbegin, hleft⟩ := blockLeft_begin hblock hentries
  refine ⟨{ r with next := buffer.drop pageSizeInBytes
                   blockDecoder := BlockDecoder.reset blockConfig (buffer.take pageSizeInBytes)
                   blockIt := it }, ?_, ⟨block, blocks, hleft, hrest, flatten_cons⟩, hskip⟩
  rw [BlockBufferReader.reset, if_neg (Nat.not_lt.mpr hle)]
  simp only [hbegin, hskip, Option.bind_eq_bind, Option.bind_some, if_true]

theorem advance_spec (checksum : Bytes → UInt32) (hskip : r.skipChecksum = true)
    (h : BufferLeft r left) :
    ∃ tail r', left = (r.blockIt.key, r.blockIt.value) :: tail ∧
      r.advance checksum = some (.ok (), r') ∧ r'.skipChecksum = true ∧
      (r'.atEnd = true ∧ tail = [] ∨ r'.atEnd = false ∧ BufferLeft r' tail) := by
  obtain ⟨cur, blocks, hcur, hblocks, rfl⟩ := h
  obtain ⟨tail, it', rfl, hnext, hend⟩ := hcur.readNext
  rcases hend with ⟨hend, rfl⟩ | ⟨hend, hleft⟩
  · rcases blocks with - | ⟨block, blocks⟩
    · -- the last block of the buffer
      have hnil : r.next = [] := hblocks
      refine ⟨[], { r with blockIt := it' }, rfl, ?_, hskip, .inl ⟨?_, rfl⟩⟩
      · simp only [BlockBufferReader.advance, hnext, hnil, or_true, if_true, Option.bind_eq_bind,
          Option.bind_some]
      · simp [BlockBufferReader.atEnd, hnil, hend]
    · obtain ⟨hle, hblock, hentries, hrest⟩ := hblocks
      obtain ⟨it'', hbegin, hleft⟩ := blockLeft_begin hblock hentries
      have hne : r.next ≠ [] := by
        rintro hnil
        rw [hnil] at hle
        exact absurd hle (by decide)
      refine ⟨block ++ blocks.flatten,
        { r with next := r.next.drop pageSizeInBytes
                 blockDecoder := BlockDecoder.reset blockConfig (r.next.take pageSizeInBytes)
                 blockIt := it'' }, rfl, ?_, hskip, .inr ⟨?_, block, blocks, hleft, hrest, rfl⟩⟩
      · simp only [BlockBufferReader.advance, hnext, hend, hne, not_true_eq_false, or_self, if_false,
          if_neg (Nat.not_lt.mpr hle), hskip, if_true, hbegin, Option.bind_eq_bind, Option.bind_some]
      · have hat : it''.atEnd = false := by
          rw [BlockIterator.atEnd, decide_eq_false_iff_not]
          exact Nat.not_lt.mpr hleft.1
        simp [BlockBufferReader.atEnd, hat]
  · refine ⟨tail ++ blocks.flatten, { r with blockIt := it' }, rfl, ?_, hskip,
      .inr ⟨?_, tail, blocks, hleft, hblocks, rfl⟩⟩
    · simp only [BlockBufferReader.advance, hnext, hend, Bool.false_eq_true, not_false_eq_true,
        true_or, if_true, Option.bind_eq_bind, Option.bind_some]
    · simp [BlockBufferReader.atEnd, hend]

end Buffer

/-! ### The blocks left in the file -/

section File

variable {r : FileReader} {blocks : List (List (Bytes × Bytes))}

theorem transferred_eq {len : ℕ} (h : len ≤ FileReader.maxRwCount) :
    FileReader.transferred len = len := by
  rw [FileReader.transferred, FileReader.maxRwCount] at *
  omega

/-- The blocks that the reader has yet to read.  While there are some, its read-ahead is a
whole number of pages and does not overflow, and one request transfers all of it or all
that is left. -/
structure FileLeft (r : FileReader) (blocks : List (List (Bytes × Bytes))) : Prop where
  holds : HoldsBlocks ((r.file.drop r.currentOffset).take (r.endOffset - r.currentOffset)) blocks
  inside : r.endOffset ≤ r.file.length
  small : r.file.length < 2 ^ 63
  ahead : r.currentOffset < r.endOffset →
    r.currentOffset + r.readAheadSize < 2 ^ 64 ∧ ∃ n, r.readAheadSize = pageSizeInBytes * (n + 1)
  request : min (r.endOffset - r.currentOffset) r.readAheadSize ≤ FileReader.maxRwCount

theorem FileLeft.length (h : FileLeft r blocks) :
    r.endOffset - r.currentOffset = pageSizeInBytes * blocks.length := by
  have hlen := h.holds.length
  have hinside := h.inside
  rw [length_take, length_drop] at hlen
  omega

theorem FileLeft.isEof_iff (h : FileLeft r blocks) : r.isEof = true ↔ blocks = [] := by
  have hlen := h.length
  rw [FileReader.isEof, decide_eq_true_eq, ← length_eq_zero_iff]
  rw [pageSizeInBytes] at hlen
  omega

theorem FileLeft.bytesToRead (h : FileLeft r blocks) (hne : blocks ≠ []) :
    ∃ n, r.bytesToRead = pageSizeInBytes * (n + 1) ∧
      r.currentOffset + r.bytesToRead ≤ r.endOffset ∧
      (r.currentOffset + r.bytesToRead < r.endOffset → r.bytesToRead = r.readAheadSize) ∧
      r.bytesToRead ≤ FileReader.maxRwCount := by
  have hlen := h.length
  have hrequest := h.request
  obtain ⟨m, hm⟩ : ∃ m, blocks.length = m + 1 :=
    Nat.exists_eq_succ_of_ne_zero (mt length_eq_zero_iff.mp hne)
  rw [hm] at hlen
  have hlt : r.currentOffset < r.endOffset := by
    rw [pageSizeInBytes] at hlen
    omega
  obtain ⟨hfits, n, hn⟩ := h.ahead hlt
  have hmod : (r.currentOffset + r.readAheadSize) % 2 ^ 64 = r.currentOffset + r.readAheadSize :=
    Nat.mod_eq_of_lt hfits
  rw [FileReader.bytesToRead, hmod]
  by_cases hclip : r.currentOffset + r.readAheadSize > r.endOffset
  · simp only [hclip, if_true, hlen, Nat.mul_mod_right, ne_eq, not_true_eq_false, and_false, if_false]
    exact ⟨m, rfl, by omega, fun hcon => by omega, by omega⟩
  · have hzero : r.readAheadSize % pageSizeInBytes = 0 := by rw [hn, Nat.mul_mod_right]
    simp only [if_neg hclip, hzero, ne_eq, not_true_eq_false, and_false, if_false]
    exact ⟨n, hn, by omega, fun _ => trivial, by omega⟩

theorem FileLeft.next (h : FileLeft r blocks) (hne : blocks ≠ []) :
    ∃ n buffer r', r.next = some (some (buffer, r')) ∧ HoldsBlocks buffer (blocks.take (n + 1)) ∧
      FileLeft r' (blocks.drop (n + 1)) := by
  obtain ⟨n, hbytes, hend, hahead, hrequest⟩ := h.bytesToRead hne
  have hinside := h.inside
  have hsmall := h.small
  have hpos : 0 < r.bytesToRead := by
    rw [hbytes, pageSizeInBytes]
    omega
  obtain ⟨htake, hdrop⟩ := h.holds.split (n + 1)
  rw [← hbytes, take_take, Nat.min_eq_left (by omega)] at htake
  rw [← hbytes, drop_take, drop_drop, Nat.sub_sub] at hdrop
  have hmod : (r.currentOffset + r.bytesToRead) % 2 ^ 64 = r.currentOffset + r.bytesToRead :=
    Nat.mod_eq_of_lt (by omega)
  have hdata : ((r.file.drop r.currentOffset).take r.bytesToRead).length = r.bytesToRead := by
    rw [length_take, length_drop]
    omega
  refine ⟨n, (r.file.drop r.currentOffset).take r.bytesToRead,
    { r with currentOffset := r.currentOffset + r.bytesToRead }, ?_, htake,
    ⟨hdrop, hinside, hsmall, fun hlt => ⟨?_, (h.ahead (by dsimp only at hlt; omega)).2⟩, ?_⟩⟩
  · rw [FileReader.next, if_neg (by omega), if_neg (by omega)]
    simp only [transferred_eq hrequest, hdata, Nat.sub_self, replicate_zero, append_nil, hmod]
  · -- only a whole read-ahead ends before the region does
    have hwhole := hahead hlt
    dsimp only at hlt ⊢
    omega
  · have hfirst := h.request
    dsimp only
    omega

end File

/-! ### The stream -/

section Stream

variable {s : PageStream} {left : List (Bytes × Bytes)}

/-- `left` are the entries from the front of the stream to its end. -/
structure Streaming (s : PageStream) (left : List (Bytes × Bytes)) : Prop where
  skip : s.blockReader.skipChecksum = true
  rest : ∃ unread, FileLeft s.reader unread ∧
    match s.buffers with
    | [] => left = unread.flatten
    | _ :: buffers => ∃ cur behind, BufferLeft s.blockReader cur ∧
        Forall₂ HoldsBlocks buffers behind ∧ (∀ blocks ∈ behind, blocks ≠ []) ∧
        left = cur ++ (behind.flatten ++ unread).flatten

theorem HoldsBlocks.ne_nil (h : HoldsBlocks bytes blocks) : ∀ block ∈ blocks, block ≠ [] := by
  induction blocks generalizing bytes with
  | nil => simp
  | cons block blocks ih => exact forall_mem_cons.mpr ⟨h.2.1, ih h.2.2.2⟩

theorem flatten_eq_nil (h : ∀ block ∈ blocks, block ≠ []) : blocks.flatten = [] ↔ blocks = [] := by
  refine ⟨fun hnil => eq_nil_iff_forall_not_mem.mpr fun block hblock => ?_, fun hnil => ?_⟩
  · exact h block hblock (flatten_eq_nil_iff.mp hnil block hblock)
  · rw [hnil]
    rfl

theorem Streaming.isEof_iff (h : Streaming s left) : s.isEof = true ↔ left = [] := by
  obtain ⟨-, unread, hfile, hbuffers⟩ := h
  rw [PageStream.isEof, PageStream.bufferEmpty, Bool.and_eq_true, hfile.isEof_iff, List.isEmpty_iff]
  rcases hs : s.buffers with - | ⟨buffer, buffers⟩
  · rw [hs] at hbuffers
    rw [hbuffers, flatten_eq_nil hfile.holds.ne_nil, and_iff_left rfl]
  · rw [hs] at hbuffers
    obtain ⟨cur, behind, ⟨block, blocks, hblock, -, rfl⟩, -, -, rfl⟩ := hbuffers
    obtain ⟨tail, it', rfl, -⟩ := hblock.readNext
    simp

theorem Streaming.refresh (checksum : Bytes → UInt32) (h : Streaming s left) :
    ∃ s', s.refresh checksum = some (.ok (), s') ∧ Streaming s' left ∧
      (s.reader.isEof = true → s' = s) ∧ (s'.bufferEmpty = true → s.isEof = true) := by
  obtain ⟨hskip, unread, hfile, hbuffers⟩ := h
  by_cases heof : s.reader.isEof = true
  · refine ⟨s, by rw [PageStream.refresh, if_pos heof], ⟨hskip, unread, hfile, hbuffers⟩,
      fun _ => rfl, fun hempty => ?_⟩
    rw [PageStream.isEof, heof, hempty]
    rfl
  · have hne : unread ≠ [] := mt hfile.isEof_iff.mpr heof
    obtain ⟨n, buffer, r', hnext, hholds, hfile'⟩ := hfile.next hne
    have htake : unread.take (n + 1) ≠ [] := by
      obtain ⟨block, blocks, rfl⟩ := exists_cons_of_ne_nil hne
      exact cons_ne_nil _ _
    rw [PageStream.refresh, if_neg heof, hnext]
    dsimp only
    rw [PageStream.push]
    dsimp only
    rcases hs : s.buffers with - | ⟨front, buffers⟩
    · -- the first buffer is opened at once
      rw [hs] at hbuffers
      obtain ⟨br, hreset, hleft, hskip'⟩ := reset_spec checksum hskip htake hholds
      refine ⟨{ s with buffers := [buffer], reader := r', blockReader := br }, ?_,
        ⟨hskip', unread.drop (n + 1), hfile', unread.take (n + 1) |>.flatten, [], hleft, .nil,
          fun _ h => absurd h not_mem_nil, ?_⟩, fun h => absurd h heof,
        fun h => absurd h Bool.false_ne_true⟩
      · rw [nil_append, length_singleton, if_pos rfl, hreset]
        rfl
      · rw [hbuffers, flatten_nil, nil_append, ← flatten_append, take_append_drop]
    · rw [hs] at hbuffers
      obtain ⟨cur, behind, hcur, hall, hnonempty, rfl⟩ := hbuffers
      refine ⟨{ s with buffers := front :: (buffers ++ [buffer]), reader := r' }, ?_,
        ⟨hskip, unread.drop (n + 1), hfile', cur, behind ++ [unread.take (n + 1)], hcur,
          rel_append hall (.cons hholds .nil), ?_, ?_⟩, fun h => absurd h heof,
        fun h => absurd h Bool.false_ne_true⟩
      · rw [cons_append, length_cons, length_append, length_singleton,
          if_neg (by omega)]
      · intro blocks hblocks
        rcases mem_append.mp hblocks with hmem | hmem
        · exact hnonempty blocks hmem
        · rwa [mem_singleton.mp hmem]
      · have hsplit : (behind ++ [unread.take (n + 1)]).flatten ++ unread.drop (n + 1) =
            behind.flatten ++ unread := by
          rw [flatten_append, flatten_singleton, append_assoc, take_append_drop]
        rw [hsplit]

theorem Streaming.popFront (checksum : Bytes → UInt32) (h : Streaming s left)
    (hbuffers : s.bufferEmpty = false) :
    ∃ tail s', left = s.front :: tail ∧ s.popFront checksum = some (.ok (), s') ∧
      Streaming s' tail := by
  obtain ⟨hskip, unread, hfile, hrest⟩ := h
  rcases hs : s.buffers with - | ⟨front, buffers⟩
  · rw [PageStream.bufferEmpty, hs] at hbuffers
    cases hbuffers
  · rw [hs] at hrest
    obtain ⟨cur, behind, hcur, hall, hnonempty, rfl⟩ := hrest
    obtain ⟨tail, br, rfl, hadvance, hskip', hend⟩ := advance_spec checksum hskip hcur
    refine ⟨tail ++ (behind.flatten ++ unread).flatten, ?_⟩
    rw [PageStream.popFront, hadvance, hs]
    simp only [Option.bind_eq_bind, Option.bind_some, tail_cons]
    rcases hend with ⟨hend, rfl⟩ | ⟨hend, hleft⟩
    · rw [hend, if_neg (not_not.mpr rfl)]
      cases hall with
      | nil =>
        exact ⟨{ s with buffers := [], blockReader := br }, rfl, rfl, hskip', unread, hfile, rfl⟩
      | @cons buffer blocks buffers behind hholds hall =>
        -- the next buffer of the queue is opened
        have hne := hnonempty blocks mem_cons_self
        obtain ⟨br', hreset, hleft, hskip''⟩ := reset_spec checksum hskip' hne hholds
        refine ⟨{ s with buffers := buffer :: buffers, blockReader := br' }, rfl, ?_, hskip'',
          unread, hfile, blocks.flatten, behind, hleft, hall,
          fun blocks h => hnonempty blocks (mem_cons_of_mem _ h), ?_⟩
        · simp only [hreset, Option.bind_some]
        · rw [flatten_cons, append_assoc, flatten_append, nil_append]
    · rw [hend, if_pos Bool.false_ne_true]
      exact ⟨{ s with buffers := front :: buffers, blockReader := br }, rfl, rfl, hskip', unread,
        hfile, tail, behind, hleft, hall, hnonempty, rfl⟩

end Stream

/-! ### Every use of a stream -/

section Runs

variable (checksum : Bytes → UInt32)

/-- However a stream is used, what its user sees are the entries: the ones popped so far,
the one at the front and the rest.  It ends behind the last one, and no call fails. -/
def StreamsExactly (s₀ : PageStream) (entries : List (Bytes × Bytes)) : Prop :=
  ∀ acts s seen, Run.exec (streamStep checksum) (s₀, []) acts = some (s, seen) →
    seen <+: entries ∧
      (s.bufferEmpty = false → ∃ rest, entries = seen ++ s.front :: rest) ∧
      (s.isEof = true ↔ seen = entries) ∧
      (s.reader.isEof = true → s.refresh checksum = some (.ok (), s)) ∧
      (∃ s', s.refresh checksum = some (.ok (), s') ∧ (s'.bufferEmpty = true → s.isEof = true)) ∧
      (s.bufferEmpty = false → ∃ s', s.popFront checksum = some (.ok (), s'))

theorem streamStep_ok {entries : List (Bytes × Bytes)} {p q : PageStream × List (Bytes × Bytes)}
    {a : StreamAct} (h : ∃ left, Streaming p.1 left ∧ entries = p.2 ++ left)
    (hstep : streamStep checksum p a = some q) :
    ∃ left, Streaming q.1 left ∧ entries = q.2 ++ left := by
  obtain ⟨s, seen⟩ := p
  obtain ⟨left, hstream, rfl⟩ := h
  cases a with
  | refresh =>
    obtain ⟨s', hrefresh, hstream', -⟩ := hstream.refresh checksum
    rw [streamStep, hrefresh] at hstep
    cases hstep
    exact ⟨left, hstream', rfl⟩
  | popFront =>
    rw [streamStep] at hstep
    split at hstep
    · cases hstep
    · next hempty =>
      obtain ⟨tail, s', rfl, hpop, hstream'⟩ :=
        hstream.popFront checksum (Bool.eq_false_iff.mpr hempty)
      rw [hpop] at hstep
      cases hstep
      exact ⟨tail, hstream', by simp⟩

theorem streamsExactly_of_streaming {s₀ : PageStream} {entries : List (Bytes × Bytes)}
    (h : Streaming s₀ entries) : StreamsExactly checksum s₀ entries := by
  intro acts s seen hrun
  obtain ⟨left, hstream, rfl⟩ := Run.exec_invariant (C := fun _ _ => True)
    (I := fun p => ∃ left, Streaming p.1 left ∧ entries = p.2 ++ left)
    (fun p a q hp _ hstep => streamStep_ok checksum hp hstep) ⟨entries, h, rfl⟩
    (Run.allSteps_true _ _) hrun
  obtain ⟨s', hrefresh, -, hsame, hempty⟩ := hstream.refresh checksum
  refine ⟨prefix_append _ _, fun hbuffers => ?_, ?_, fun heof => ?_, ⟨s', hrefresh, hempty⟩,
    fun hbuffers => ?_⟩
  · obtain ⟨tail, -, rfl, -⟩ := hstream.popFront checksum hbuffers
    exact ⟨tail, rfl⟩
  · rw [hstream.isEof_iff]
    simp
  · rw [hrefresh, hsame heof]
  · obtain ⟨-, s', -, hpop, -⟩ := hstream.popFront checksum hbuffers
    exact ⟨s', hpop⟩

theorem refresh_overflow {file : Bytes} (direct : Bool) {startOffset endOffset readAheadSize : ℕ}
    (hlt : startOffset < endOffset) (hsmall : endOffset < 2 ^ 63) (hahead : readAheadSize < 2 ^ 64)
    (hover : 2 ^ 64 ≤ startOffset +
      (readAheadSize + pageSizeInBytes - 1) / pageSizeInBytes * pageSizeInBytes) :
    (PageStream.make file direct startOffset endOffset readAheadSize).refresh checksum = none := by
  set r := FileReader.make file direct startOffset endOffset readAheadSize with hr
  have hcur : r.currentOffset = startOffset := rfl
  have hend : r.endOffset = endOffset := rfl
  have heof : r.isEof = false := by
    rw [FileReader.isEof, decide_eq_false_iff_not, hcur, hend]
    omega
  -- the aligned size is what it should be, or has wrapped to zero
  have hsize : r.readAheadSize % pageSizeInBytes = 0 ∧
      (r.readAheadSize = 0 ∨ 2 ^ 64 ≤ startOffset + r.readAheadSize ∧ r.readAheadSize < 2 ^ 64) := by
    have hmake : r.readAheadSize = if readAheadSize % pageSizeInBytes = 0 then readAheadSize else
        (readAheadSize + pageSizeInBytes - 1) % 2 ^ 64 / pageSizeInBytes * pageSizeInBytes := rfl
    rw [hmake]
    rw [pageSizeInBytes] at hover ⊢
    split <;> omega
  have hbytes : r.bytesToRead = r.readAheadSize := by
    have hclip : ¬ (r.currentOffset + r.readAheadSize) % 2 ^ 64 > r.endOffset := by
      rw [hcur, hend]
      omega
    simp only [FileReader.bytesToRead, if_neg hclip, hsize.1, ne_eq, not_true_eq_false, and_false,
      if_false]
  have hs : (PageStream.make file direct startOffset endOffset readAheadSize).reader = r := rfl
  have hnil : (PageStream.make file direct startOffset endOffset readAheadSize).buffers = [] := rfl
  rw [PageStream.refresh, hs, heof, if_neg Bool.false_ne_true, FileReader.next,
    if_neg (by omega), hbytes]
  rcases hsize.2 with hzero | ⟨hbig, -⟩
  · -- an empty buffer has no block to read
    rw [hzero, if_neg (by decide)]
    rfl
  · rw [if_pos (by omega)]

theorem make_readAheadSize (file : Bytes) (direct : Bool) (endOffset : ℕ)
    {startOffset readAheadSize : ℕ} (h : startOffset +
      (readAheadSize + pageSizeInBytes - 1) / pageSizeInBytes * pageSizeInBytes < 2 ^ 64) :
    (FileReader.make file direct startOffset endOffset readAheadSize).readAheadSize =
      (readAheadSize + pageSizeInBytes - 1) / pageSizeInBytes * pageSizeInBytes := by
  show (if readAheadSize % pageSizeInBytes = 0 then readAheadSize else
    (readAheadSize + pageSizeInBytes - 1) % 2 ^ 64 / pageSizeInBytes * pageSizeInBytes) = _
  rw [pageSizeInBytes] at h ⊢
  split <;> omega

/-- **Streaming is independent of buffering, exactly.**  Where one request transfers a whole
buffer, for every region of non-empty blocks of a file, however the stream is used, its user
sees the entries of the blocks in order, each once, if and only if the read-ahead size,
aligned and added to the start, stays below `2 ^ 64`. -/
theorem stream_exact_iff (checksum : Bytes → UInt32) (file : Bytes) (direct : Bool)
    (startOffset endOffset readAheadSize : ℕ) (blocks : List (List (Bytes × Bytes)))
    (hblocks : HoldsBlocks ((file.drop startOffset).take (endOffset - startOffset)) blocks)
    (hinside : endOffset ≤ file.length) (hsmall : file.length < 2 ^ 63)
    (hpos : 0 < readAheadSize) (hahead : readAheadSize < 2 ^ 64)
    (hrequest : min (endOffset - startOffset)
      ((readAheadSize + pageSizeInBytes - 1) / pageSizeInBytes * pageSizeInBytes) ≤
        FileReader.maxRwCount) :
    StreamsExactly checksum (.make file direct startOffset endOffset readAheadSize)
        blocks.flatten ↔
      (startOffset < endOffset → startOffset +
        (readAheadSize + pageSizeInBytes - 1) / pageSizeInBytes * pageSizeInBytes < 2 ^ 64) := by
  constructor
  · intro h hlt
    by_contra hover
    obtain ⟨-, -, -, -, ⟨s', hrefresh, -⟩, -⟩ := h [] _ _ rfl
    rw [refresh_overflow checksum direct hlt (by omega) hahead (Nat.not_lt.mp hover)] at hrefresh
    cases hrefresh
  · intro hfits
    have hsize := fun hlt => make_readAheadSize file direct endOffset (hfits hlt)
    refine streamsExactly_of_streaming checksum
      ⟨rfl, blocks, ⟨hblocks, hinside, hsmall, fun hlt => ?_, ?_⟩, rfl⟩
    · have hsum := hfits hlt
      show startOffset + (FileReader.make file direct startOffset endOffset _).readAheadSize < _ ∧
        ∃ n, (FileReader.make file direct startOffset endOffset _).readAheadSize = _
      rw [hsize hlt]
      refine ⟨hsum, (readAheadSize + pageSizeInBytes - 1) / pageSizeInBytes - 1, ?_⟩
      rw [pageSizeInBytes]
      omega
    · show min (endOffset - startOffset)
        (FileReader.make file direct startOffset endOffset _).readAheadSize ≤ _
      rcases Nat.lt_or_ge startOffset endOffset with hlt | hge
      · rwa [hsize hlt]
      · rw [Nat.sub_eq_zero_of_le hge, Nat.zero_min]
        exact Nat.zero_le _

end Runs

theorem holdsBlocks_flatten {pages : List Bytes}
    (h : Forall₂ (PageHolds checksum) pages blocks) (hne : ∀ block ∈ blocks, block ≠ []) :
    HoldsBlocks pages.flatten blocks := by
  have hlen : ∀ page ∈ pages, page.length = pageSizeInBytes := by
    intro page hpage
    obtain ⟨i, hi, rfl⟩ := getElem_of_mem hpage
    exact (Forall₂.get h hi (h.length_eq ▸ hi)).length
  refine (holdsBlocks_flatten_iff hlen).mpr (forall₂_iff_get.mpr ⟨h.length_eq, ?_⟩)
  intro i hi hi'
  exact ⟨hne _ (get_mem _ _), (Forall₂.get h hi hi').entries⟩

def streamFile : Bytes := (lookupBlocks.map encodePage).flatten

theorem streamFile_holds :
    HoldsBlocks ((streamFile.drop 0).take (8192 - 0)) lookupBlocks ∧ streamFile.length = 8192 := by
  have hholds : HoldsBlocks streamFile lookupBlocks :=
    holdsBlocks_flatten lookupBlocks_hold (by decide)
  have hlen : streamFile.length = 8192 := hholds.length
  refine ⟨?_, hlen⟩
  rw [drop_zero, take_of_length_le hlen.le]
  exact hholds

theorem stream_exact_one_byte_ahead :
    StreamsExactly (fun _ => 0) (.make streamFile true 0 8192 1) lookupBlocks.flatten := by
  obtain ⟨hholds, hlen⟩ := streamFile_holds
  exact (stream_exact_iff (fun _ => 0) streamFile true 0 8192 1 lookupBlocks hholds hlen.ge
    (by rw [hlen]; decide) (by decide) (by decide) (by decide)).mpr fun _ => by decide

/-- The largest read-ahead size is aligned to zero: the first `refresh` opens an empty
buffer. -/
theorem stream_read_ahead_wraps :
    HoldsBlocks ((streamFile.drop 0).take (8192 - 0)) lookupBlocks ∧
      (PageStream.make streamFile true 0 8192 (2 ^ 64 - 1)).reader.readAheadSize = 0 ∧
      (PageStream.make streamFile true 0 8192 (2 ^ 64 - 1)).refresh (fun _ => 0) = none :=
  ⟨streamFile_holds.1, by decide, refresh_overflow (fun _ => 0) true (by decide) (by decide)
    (by decide) (by decide)⟩

end HedgeDB
