/-
HedgeDB/BlockWriter.lean

Writing entries block by block (`block_buffer_writer` of `src/db/block.h`,
`merge_write_buffer` of `src/db/merge/write_buffer.h`).

The writer has a buffer of pages and an encoder on one of them.  A refused entry
moves the encoder to the next page; behind the last page it is handed back, the
buffer goes to the file and the entry is pushed again.  Pages are used again with
whatever they held before.

Which entries go into one block depends on the room they take and on nothing else:
`splitBlocks` cuts a list of entries accordingly, and `writeOrFlush_spec` says that
writing one entry agrees with it, wherever the page or the buffer ends.  The lists
`blocks`, `pushed` and `fileBlocks` name the entries behind the pages; the code does
not read them.
-/
import Mathlib.Data.List.Forall2
import Mathlib.Data.List.Induction
import HedgeDB.BlockFind

namespace HedgeDB

open List

variable {checksum : Bytes → UInt32}

/-- A default `block_config`. -/
def blockConfig : BlockConfig := {}

/-! ### Cutting entries into blocks -/

/-- `last_pushed_key` after these entries. -/
def lastKey (kvs : List (Bytes × Bytes)) : Bytes := (kvs.getLast?.map Prod.fst).getD []

/-- The room that entries take from number `i` on, behind the key `prev`. -/
def usedSpace (cfg : BlockConfig) : ℕ → Bytes → List (Bytes × Bytes) → ℕ
  | _, _, [] => 0
  | i, prev, (key, value) :: kvs =>
      entrySpace cfg i prev key value + usedSpace cfg (i + 1) key kvs

/-- The room that a block of these entries takes. -/
def blockSpace (block : List (Bytes × Bytes)) : ℕ :=
  sizeofBlockFooter + 2 + usedSpace blockConfig 0 [] block

/-- An entry is small enough for an empty block. -/
def FitsEmptyBlock (key value : Bytes) : Prop := blockSpace [(key, value)] ≤ pageSizeInBytes

instance (key value : Bytes) : Decidable (FitsEmptyBlock key value) :=
  inferInstanceAs (Decidable (_ ≤ _))

/-- The blocks that entries are cut into, when `block` is the one being filled. -/
def splitBlocks (block : List (Bytes × Bytes)) :
    List (Bytes × Bytes) → List (List (Bytes × Bytes))
  | [] => if block = [] then [] else [block]
  | kv :: kvs =>
      if blockSpace (block ++ [kv]) ≤ pageSizeInBytes then splitBlocks (block ++ [kv]) kvs
      else block :: splitBlocks [kv] kvs

theorem splitBlocks_flatten (block kvs : List (Bytes × Bytes)) :
    (splitBlocks block kvs).flatten = block ++ kvs := by
  induction kvs generalizing block with
  | nil =>
    rw [splitBlocks]
    split
    · next h => simp [h]
    · simp
  | cons kv kvs ih =>
    rw [splitBlocks]
    split
    · rw [ih, append_assoc]
      rfl
    · rw [flatten_cons, ih]
      rfl

theorem lastKey_concat (kvs : List (Bytes × Bytes)) (key value : Bytes) :
    lastKey (kvs ++ [(key, value)]) = key := by
  simp [lastKey]

theorem usedSpace_concat (i : ℕ) (prev : Bytes) (kvs : List (Bytes × Bytes)) (key value : Bytes) :
    usedSpace blockConfig i prev (kvs ++ [(key, value)]) =
      usedSpace blockConfig i prev kvs +
        entrySpace blockConfig (i + kvs.length) (keyBefore prev kvs) key value := by
  induction kvs generalizing i prev with
  | nil => simp [usedSpace, keyBefore]
  | cons kv kvs ih =>
    rw [cons_append, usedSpace, ih, keyBefore_cons, usedSpace, length_cons,
      Nat.add_right_comm i 1, Nat.add_assoc i, ← Nat.add_assoc (entrySpace _ _ _ _ _)]

theorem blockSpace_concat (block : List (Bytes × Bytes)) (key value : Bytes) :
    blockSpace (block ++ [(key, value)]) =
      blockSpace block + entrySpace blockConfig block.length (lastKey block) key value := by
  rw [blockSpace, blockSpace, usedSpace_concat, Nat.zero_add, ← Nat.add_assoc]
  rfl

theorem blockSpace_singleton (key value : Bytes) :
    blockSpace [(key, value)] =
      blockSpace [] + (1 + key.length + varintLength value.length + value.length + 2) := by
  rw [← nil_append [(key, value)], blockSpace_concat, entrySpace, length_nil,
    Nat.zero_and, if_neg (fun h => h rfl)]

theorem length_lastKey_le {block : List (Bytes × Bytes)} (hne : block ≠ []) :
    blockSpace [] + 3 + (lastKey block).length ≤ blockSpace block := by
  induction block using reverseRecOn with
  | nil => exact absurd rfl hne
  | append_singleton block kv ih =>
    rw [lastKey_concat]
    by_cases hnil : block = []
    · rw [hnil, nil_append, blockSpace_singleton]
      omega
    · have hshared := (sharedPrefixLength_le (lastKey block) kv.1).1
      have hroom := ih hnil
      rw [blockSpace_concat, entrySpace]
      split <;> omega

theorem blockSpace_singleton_le (block : List (Bytes × Bytes)) (key value : Bytes) :
    blockSpace [(key, value)] ≤ blockSpace (block ++ [(key, value)]) := by
  by_cases hnil : block = []
  · rw [hnil]
    exact le_rfl
  · have hlast := length_lastKey_le hnil
    have hshared := (sharedPrefixLength_le (lastKey block) key).1
    rw [blockSpace_singleton, blockSpace_concat, entrySpace]
    split <;> omega

/-! ### The buffer writer -/

/-- `page_aligned_buffer` as the writer uses it: one page or more, with any
contents. -/
structure PageBuffer where
  first : Bytes
  rest : List Bytes
  length_first : first.length = pageSizeInBytes
  length_rest : ∀ page ∈ rest, page.length = pageSizeInBytes

/-- A buffer of `n + 1` pages of zeros. -/
def PageBuffer.zeros (n : ℕ) : PageBuffer where
  first := replicate pageSizeInBytes 0
  rest := replicate n (replicate pageSizeInBytes 0)
  length_first := length_replicate
  length_rest := by
    intro page hpage
    rw [eq_of_mem_replicate hpage, length_replicate]

/-- `block_buffer_writer`: the pages before `_cur`, the encoder on the page at `_cur`
and the pages behind it. -/
structure BlockBufferWriter where
  done : List Bytes := []
  encoder : BlockEncoder
  rest : List Bytes
  blocks : List (List (Bytes × Bytes)) := []
  pushed : List (Bytes × Bytes) := []

namespace BlockBufferWriter

def make (buf : PageBuffer) : BlockBufferWriter :=
  { encoder := BlockEncoder.reset buf.first, rest := buf.rest }

/-- Push into the block at `_cur`. -/
def pushHere (checksum : Bytes → UInt32) (w : BlockBufferWriter) (key value : Bytes) :
    Expected Unit × BlockBufferWriter :=
  match w.encoder.push checksum blockConfig key value with
  | (.ok _, e) => (.ok (), { w with encoder := e, pushed := w.pushed ++ [(key, value)] })
  | (.error err, e) => (.error err, { w with encoder := e })

/-- Move `_cur` by a page, if it is not on the last one. -/
def nextPage (w : BlockBufferWriter) : Option BlockBufferWriter :=
  match w.rest with
  | [] => none
  | page :: rest =>
      some { done := w.done ++ [w.encoder.page], encoder := BlockEncoder.reset page, rest
             blocks := w.blocks ++ [w.pushed] }

/-- `push`, with the keys that `on_end_of_block` is called with. -/
def push (checksum : Bytes → UInt32) (w : BlockBufferWriter) (key value : Bytes) :
    Expected Unit × BlockBufferWriter × List Bytes :=
  match w.pushHere checksum key value with
  | (.ok _, w') => (.ok (), w', [])
  | (.error err, w') =>
      match w'.nextPage with
      | none => (.error err, w', [w'.encoder.lastKey])
      | some w'' =>
          let r := w''.pushHere checksum key value
          (r.1, r.2, [w'.encoder.lastKey])

def forceCommit (checksum : Bytes → UInt32) (w : BlockBufferWriter) : BlockBufferWriter :=
  { w with encoder := w.encoder.commit checksum blockConfig }

/-- `reset`: back to the first page of the buffer. -/
def reset (w : BlockBufferWriter) : BlockBufferWriter :=
  match w.done with
  | [] => { encoder := BlockEncoder.reset w.encoder.page, rest := w.rest }
  | page :: pages =>
      { encoder := BlockEncoder.reset page, rest := pages ++ w.encoder.page :: w.rest }

def empty (w : BlockBufferWriter) : Bool := w.done.isEmpty && w.encoder.kvsCount == 0

/-- The pages of the buffer up to `_cur`: `bytes_written` is their size. -/
def pages (w : BlockBufferWriter) : List Bytes := w.done ++ [w.encoder.page]

end BlockBufferWriter

/-! ### The write buffer and its file -/

/-- `merge_write_buffer` with the pages of the file it is flushed to and the keys of
the meta index. -/
structure BlockWriteBuffer where
  writer : BlockBufferWriter
  indexedKvs : ℕ := 0
  file : List Bytes := []
  metaIndex : List Bytes := []
  fileBlocks : List (List (Bytes × Bytes)) := []

namespace BlockWriteBuffer

def make (buf : PageBuffer) : BlockWriteBuffer := { writer := .make buf }

def writeItem (checksum : Bytes → UInt32) (s : BlockWriteBuffer) (key value : Bytes) :
    Expected Unit × BlockWriteBuffer :=
  match s.writer.push checksum key value with
  | (.ok _, w, ended) =>
      (.ok (), { s with writer := w, metaIndex := s.metaIndex ++ ended
                        indexedKvs := s.indexedKvs + 1 })
  | (.error err, w, ended) =>
      (.error err, { s with writer := w, metaIndex := s.metaIndex ++ ended })

/-- `flush`, the write succeeding. -/
def flush (checksum : Bytes → UInt32) (s : BlockWriteBuffer) : BlockWriteBuffer :=
  let w := s.writer.forceCommit checksum
  { s with
    writer := w.reset
    file := s.file ++ w.pages
    fileBlocks := s.fileBlocks ++ (w.blocks ++ [w.pushed]) }

/-- One entry in the loop of `_write_index`: on a full buffer, flush and retry. -/
def writeOrFlush (checksum : Bytes → UInt32) (s : BlockWriteBuffer) (key value : Bytes) :
    Expected BlockWriteBuffer :=
  match s.writeItem checksum key value with
  | (.ok _, s') => .ok s'
  | (.error _, s') =>
      match (s'.flush checksum).writeItem checksum key value with
      | (.ok _, s'') => .ok s''
      | (.error _, _) => .error { msg := "Could not write item after flush" }

/-- What `_write_index` does behind the last entry. -/
def finish (checksum : Bytes → UInt32) (s : BlockWriteBuffer) : BlockWriteBuffer :=
  if s.writer.empty then s
  else { s with metaIndex := s.metaIndex ++ [s.writer.encoder.lastKey] }.flush checksum

def blocks (s : BlockWriteBuffer) : List (List (Bytes × Bytes)) := s.fileBlocks ++ s.writer.blocks

end BlockWriteBuffer

/-! ### What the pages hold -/

/-- A page as the encoder leaves it for the entries of a block. -/
def PageOf (checksum : Bytes → UInt32) (page : Bytes) (block : List (Bytes × Bytes)) : Prop :=
  block ≠ [] ∧ BlockPage checksum blockConfig page block

theorem forall₂_mem {α β : Type*} {R : α → β → Prop} {l : List α} {l' : List β}
    (h : Forall₂ R l l') {a : α} (ha : a ∈ l) : ∃ b ∈ l', R a b := by
  induction h with
  | nil => cases ha
  | @cons x y l l' hxy _ ih =>
    rcases mem_cons.mp ha with rfl | ha'
    · exact ⟨y, mem_cons_self, hxy⟩
    · obtain ⟨b, hb, hR⟩ := ih ha'
      exact ⟨b, mem_cons_of_mem y hb, hR⟩

theorem pageOf_ne {checksum : Bytes → UInt32} {pages : List Bytes}
    {blocks : List (List (Bytes × Bytes))} (h : Forall₂ (PageOf checksum) pages blocks) :
    ∀ block ∈ blocks, block ≠ [] := by
  intro block hblock
  obtain ⟨page, -, hpage⟩ := forall₂_mem h.flip hblock
  exact hpage.1

theorem PageOf.length {page : Bytes} {block : List (Bytes × Bytes)} (h : PageOf checksum page block) :
    page.length = pageSizeInBytes := by
  obtain ⟨-, e, henc, -, -, -, rfl⟩ := h
  exact (commit_spec checksum henc).1.length

structure WriterHolds (checksum : Bytes → UInt32) (w : BlockBufferWriter) : Prop where
  done : Forall₂ (PageOf checksum) w.done w.blocks
  encoded : Encoded blockConfig (body blockConfig 0 [] w.pushed) w.encoder
  count : w.encoder.kvsCount = w.pushed.length
  last : w.encoder.lastKey = lastKey w.pushed
  offsets : w.encoder.offsets = groupOffsets blockConfig w.pushed
  capacity : w.encoder.offsets.length ≤ inlineVectorCapacity
  rest : ∀ page ∈ w.rest, page.length = pageSizeInBytes

structure WriterReady (checksum : Bytes → UInt32) (w : BlockBufferWriter) : Prop
    extends WriterHolds checksum w where
  writing : Writing blockConfig (body blockConfig 0 [] w.pushed) w.encoder
  space : w.encoder.bytesWritten = blockSpace w.pushed

theorem length_of_forall₂ {pages : List Bytes} {blocks : List (List (Bytes × Bytes))}
    (h : Forall₂ (PageOf checksum) pages blocks) :
    ∀ page ∈ pages, page.length = pageSizeInBytes := by
  induction h with
  | nil => simp
  | cons hpage _ ih =>
    intro page hmem
    rcases mem_cons.mp hmem with rfl | hmem'
    · exact hpage.length
    · exact ih page hmem'

theorem writerReady_reset {page : Bytes} {rest : List Bytes} (hpage : page.length = pageSizeInBytes)
    (hrest : ∀ page ∈ rest, page.length = pageSizeInBytes) :
    WriterReady checksum { encoder := BlockEncoder.reset page, rest } := by
  have h : BlockWrote blockConfig [] (BlockEncoder.reset page) :=
    wrote_reset (s := 2) rfl rfl hpage
  exact ⟨⟨.nil, h.writing.encoded, rfl, rfl, h.offsets, h.capacity, hrest⟩, h.writing, rfl⟩

open BlockBufferWriter BlockWriteBuffer

namespace WriterHolds

variable {w : BlockBufferWriter}

theorem forceCommit (h : WriterHolds checksum w) :
    WriterHolds checksum (w.forceCommit checksum) := by
  have henc := (commit_spec checksum h.encoded).1
  obtain ⟨hcount, hlast, hoffsets, -⟩ := BlockEncoder.commit_frame checksum blockConfig w.encoder
  rw [BlockBufferWriter.forceCommit]
  constructor
  case done => exact h.done
  case encoded => exact henc
  case count => exact hcount.trans h.count
  case last => exact hlast.trans h.last
  case offsets => exact hoffsets.trans h.offsets
  case capacity => exact hoffsets ▸ h.capacity
  case rest => exact h.rest

theorem pages (h : WriterHolds checksum w) (hne : w.pushed ≠ []) :
    Forall₂ (PageOf checksum) (w.forceCommit checksum).pages (w.blocks ++ [w.pushed]) := by
  have hpage : PageOf checksum (w.encoder.commit checksum blockConfig).page w.pushed :=
    ⟨hne, w.encoder, h.encoded, h.count, h.offsets, h.capacity, rfl⟩
  rw [BlockBufferWriter.forceCommit, BlockBufferWriter.pages]
  exact rel_append h.done (.cons hpage .nil)

theorem reset (h : WriterHolds checksum w) :
    WriterReady checksum w.reset ∧ w.reset.blocks = [] ∧ w.reset.pushed = [] := by
  have hpages := length_of_forall₂ h.done
  rw [BlockBufferWriter.reset]
  split
  · exact ⟨writerReady_reset h.encoded.length h.rest, rfl, rfl⟩
  · next page pages hdone =>
    rw [hdone] at hpages
    refine ⟨writerReady_reset (hpages page mem_cons_self) ?_, rfl, rfl⟩
    intro p hp
    rcases mem_append.mp hp with hp' | hp'
    · exact hpages p (mem_cons_of_mem page hp')
    · rcases mem_cons.mp hp' with rfl | hp''
      · exact h.encoded.length
      · exact h.rest p hp''

end WriterHolds

/-! ### One entry -/

section Push

variable {w : BlockBufferWriter} {key : Bytes} {value : Bytes}

/-- In the block at `_cur`, an entry is put behind the others if there is room for
it; otherwise the block is committed. -/
theorem pushHere_spec (h : WriterReady checksum w)
    (hkey : 1 ≤ key.length ∧ key.length ≤ maxKeyLen) :
    (pageSizeInBytes < blockSpace (w.pushed ++ [(key, value)]) ∧
        w.pushHere checksum key value = (.error BlockEncoder.bufferFull, w.forceCommit checksum)) ∨
      ∃ w', blockSpace (w.pushed ++ [(key, value)]) ≤ pageSizeInBytes ∧
        w.pushHere checksum key value = (.ok (), w') ∧ WriterReady checksum w' ∧
        w'.blocks = w.blocks ∧ w'.pushed = w.pushed ++ [(key, value)] := by
  have hbody : body blockConfig 0 [] (w.pushed ++ [(key, value)]) = _ :=
    body_append 0 [] w.pushed [(key, value)]
  rw [Nat.zero_add, body, body, append_nil] at hbody
  have hpush := push_spec checksum (show 1 ≤ 2 by decide) rfl rfl h.writing value hkey
  rw [blockSpace_concat, ← h.space, ← h.count, ← h.last]
  rcases hpush with ⟨hfull, hpush⟩ | ⟨e', hroom, hpush, hwriting, hcount, hlast, hspace⟩
  · refine .inl ⟨hfull, ?_⟩
    rw [pushHere, hpush]
    rfl
  · refine .inr ⟨{ w with encoder := e', pushed := w.pushed ++ [(key, value)] }, hroom, ?_, ?_,
      rfl, rfl⟩
    · rw [pushHere, hpush]
    · rw [h.count, h.last] at hwriting
      replace hwriting : Writing blockConfig _ e' := hbody ▸ hwriting
      obtain ⟨hoffsets, hcapacity⟩ := push_offsets checksum hpush
      refine ⟨⟨h.done, hwriting.encoded, ?_, ?_, ?_, hcapacity h.capacity, h.rest⟩, hwriting, ?_⟩
      · rw [hcount, h.count, length_append]
        rfl
      · rw [hlast, lastKey_concat]
      · rw [hoffsets, groupOffsets_concat (s := 2) rfl, h.offsets, h.count, h.writing.head]
      · rw [hspace, blockSpace_concat, h.space, h.count, h.last]

theorem pushed_ne_nil (hfits : FitsEmptyBlock key value)
    (hfull : pageSizeInBytes < blockSpace (w.pushed ++ [(key, value)])) : w.pushed ≠ [] := by
  intro hnil
  rw [hnil] at hfull
  exact absurd hfits (Nat.not_le.mpr hfull)

theorem pushHere_fresh (h : WriterReady checksum w) (hnil : w.pushed = [])
    (hkey : 1 ≤ key.length ∧ key.length ≤ maxKeyLen) (hfits : FitsEmptyBlock key value) :
    ∃ w', w.pushHere checksum key value = (.ok (), w') ∧ WriterReady checksum w' ∧
      w'.blocks = w.blocks ∧ w'.pushed = [(key, value)] := by
  rcases pushHere_spec h hkey with ⟨hfull, -⟩ | ⟨w', -, hpush, hready, hblocks, hpushed⟩
  · exact absurd hnil (pushed_ne_nil hfits hfull)
  · exact ⟨w', hpush, hready, hblocks, by rw [hpushed, hnil]; rfl⟩

theorem nextPage_spec (h : WriterHolds checksum w) (hne : w.pushed ≠ []) :
    (w.forceCommit checksum).nextPage = none ∨
      ∃ w', (w.forceCommit checksum).nextPage = some w' ∧ WriterReady checksum w' ∧
        w'.blocks = w.blocks ++ [w.pushed] ∧ w'.pushed = [] := by
  rcases hrest : w.rest with - | ⟨page, rest⟩
  · exact .inl (by simp [nextPage, BlockBufferWriter.forceCommit, hrest])
  · have hpages : ∀ p ∈ page :: rest, p.length = pageSizeInBytes := hrest ▸ h.rest
    have hready : WriterReady checksum { encoder := BlockEncoder.reset page, rest } :=
      writerReady_reset (hpages page mem_cons_self)
        fun p hp => hpages p (mem_cons_of_mem page hp)
    refine .inr ⟨{ done := (w.forceCommit checksum).pages, encoder := BlockEncoder.reset page, rest
                   blocks := w.blocks ++ [w.pushed] }, ?_, ?_, rfl, rfl⟩
    · simp [nextPage, BlockBufferWriter.forceCommit, BlockBufferWriter.pages, hrest]
    · exact ⟨⟨h.pages hne, hready.encoded, rfl, rfl, hready.offsets, hready.capacity, hready.rest⟩,
        hready.writing, rfl⟩

/-- `push` of an entry that fits an empty block: into the block at `_cur`, into the
next one, or nowhere, when the last block is full. -/
theorem push_cases (h : WriterReady checksum w)
    (hkey : 1 ≤ key.length ∧ key.length ≤ maxKeyLen) (hfits : FitsEmptyBlock key value) :
    (blockSpace (w.pushed ++ [(key, value)]) ≤ pageSizeInBytes ∧
        ∃ w', w.push checksum key value = (.ok (), w', []) ∧ WriterReady checksum w' ∧
          w'.blocks = w.blocks ∧ w'.pushed = w.pushed ++ [(key, value)]) ∨
      pageSizeInBytes < blockSpace (w.pushed ++ [(key, value)]) ∧ w.pushed ≠ [] ∧
        ((∃ w', w.push checksum key value = (.ok (), w', [lastKey w.pushed]) ∧
            WriterReady checksum w' ∧ w'.blocks = w.blocks ++ [w.pushed] ∧
            w'.pushed = [(key, value)]) ∨
          w.push checksum key value =
            (.error BlockEncoder.bufferFull, w.forceCommit checksum, [lastKey w.pushed])) := by
  rcases pushHere_spec h hkey with ⟨hfull, hpush⟩ | ⟨w', hroom, hpush, hready, hblocks, hpushed⟩
  · have hne := pushed_ne_nil hfits hfull
    have hlast : (w.forceCommit checksum).encoder.lastKey = lastKey w.pushed :=
      (BlockEncoder.commit_frame checksum blockConfig w.encoder).2.1.trans h.last
    refine .inr ⟨hfull, hne, ?_⟩
    rcases nextPage_spec h.toWriterHolds hne with hnone | ⟨w', hnext, hready, hblocks, hnil⟩
    · refine .inr ?_
      rw [BlockBufferWriter.push, hpush]
      dsimp only
      rw [hnone, hlast]
    · obtain ⟨w'', hpush', hready', hblocks', hpushed'⟩ := pushHere_fresh hready hnil hkey hfits
      refine .inl ⟨w'', ?_, hready', hblocks'.trans hblocks, hpushed'⟩
      rw [BlockBufferWriter.push, hpush]
      dsimp only
      rw [hnext, hlast]
      dsimp only
      rw [hpush']
  · refine .inl ⟨hroom, w', ?_, hready, hblocks, hpushed⟩
    rw [BlockBufferWriter.push, hpush]

end Push

/-! ### The write buffer -/

/-- A write buffer between two entries: the file and the buffer hold the blocks, and
the meta index has the last key of each complete one. -/
structure BufferReady (checksum : Bytes → UInt32) (s : BlockWriteBuffer) : Prop where
  file : Forall₂ (PageOf checksum) s.file s.fileBlocks
  writer : WriterReady checksum s.writer
  metaIndex : s.metaIndex = s.blocks.map lastKey
  fresh : s.writer.pushed = [] → s.writer.blocks = []

section Buffer

variable {s : BlockWriteBuffer} {key value : Bytes}

theorem bufferReady_make (buf : PageBuffer) : BufferReady checksum (.make buf) :=
  ⟨.nil, writerReady_reset buf.length_first buf.length_rest, rfl, fun _ => rfl⟩

/-- Flushing moves the blocks of the buffer to the file and leaves the buffer
unused. -/
theorem flush_spec (hfile : Forall₂ (PageOf checksum) s.file s.fileBlocks)
    (hwriter : WriterHolds checksum s.writer) (hne : s.writer.pushed ≠ []) :
    Forall₂ (PageOf checksum) (s.flush checksum).file (s.flush checksum).fileBlocks ∧
      WriterReady checksum (s.flush checksum).writer ∧ (s.flush checksum).writer.blocks = [] ∧
      (s.flush checksum).writer.pushed = [] ∧
      (s.flush checksum).fileBlocks = s.blocks ++ [s.writer.pushed] := by
  obtain ⟨hready, hblocks, hpushed⟩ := hwriter.forceCommit.reset
  have hkeep : (s.writer.forceCommit checksum).blocks = s.writer.blocks ∧
      (s.writer.forceCommit checksum).pushed = s.writer.pushed := by
    rw [BlockBufferWriter.forceCommit]
    exact ⟨rfl, rfl⟩
  rw [BlockWriteBuffer.flush, hkeep.1, hkeep.2]
  refine ⟨rel_append hfile (hwriter.pages hne), hready, hblocks, hpushed, ?_⟩
  rw [BlockWriteBuffer.blocks, append_assoc]

/-- **Writing one entry.**  An entry that fits an empty block is written, wherever
the block or the buffer ends, and the blocks are those of `splitBlocks`. -/
theorem writeOrFlush_spec (h : BufferReady checksum s)
    (hkey : 1 ≤ key.length ∧ key.length ≤ maxKeyLen) (hfits : FitsEmptyBlock key value) :
    ∃ s', s.writeOrFlush checksum key value = .ok s' ∧ BufferReady checksum s' ∧
      s'.indexedKvs = s.indexedKvs + 1 ∧
      ∀ kvs, s'.blocks ++ splitBlocks s'.writer.pushed kvs =
        s.blocks ++ splitBlocks s.writer.pushed ((key, value) :: kvs) := by
  rcases push_cases h.writer hkey hfits with
    ⟨hroom, w', hpush, hready, hblocks, hpushed⟩ |
    ⟨hfull, hne, ⟨w', hpush, hready, hblocks, hpushed⟩ | hpush⟩
  · refine ⟨{ s with writer := w', metaIndex := s.metaIndex ++ []
                     indexedKvs := s.indexedKvs + 1 }, ?_, ⟨h.file, hready, ?_, ?_⟩, rfl, ?_⟩
    · rw [writeOrFlush, writeItem, hpush]
    · rw [append_nil, h.metaIndex, BlockWriteBuffer.blocks, BlockWriteBuffer.blocks, hblocks]
    · simp [hpushed]
    · intro kvs
      rw [splitBlocks, if_pos hroom, BlockWriteBuffer.blocks, BlockWriteBuffer.blocks, hblocks, hpushed]
  · refine ⟨{ s with writer := w', metaIndex := s.metaIndex ++ [lastKey s.writer.pushed]
                     indexedKvs := s.indexedKvs + 1 }, ?_, ⟨h.file, hready, ?_, ?_⟩, rfl, ?_⟩
    · rw [writeOrFlush, writeItem, hpush]
    · simp [h.metaIndex, BlockWriteBuffer.blocks, hblocks]
    · simp [hpushed]
    · intro kvs
      simp [splitBlocks, if_neg (Nat.not_le.mpr hfull), BlockWriteBuffer.blocks, hblocks, hpushed]
  · -- the last page is full: the buffer is flushed and the entry goes to its first page
    set s₁ : BlockWriteBuffer := { s with
      writer := s.writer.forceCommit checksum
      metaIndex := s.metaIndex ++ [lastKey s.writer.pushed] } with hs₁
    have hitem : s.writeItem checksum key value = (.error BlockEncoder.bufferFull, s₁) := by
      rw [writeItem, hpush]
    obtain ⟨hfile, hready, hnoblocks, hnil, hfileBlocks⟩ :=
      flush_spec (s := s₁) h.file h.writer.forceCommit hne
    have hmeta : (s₁.flush checksum).metaIndex = s.blocks.map lastKey ++ [lastKey s.writer.pushed] := by
      rw [← h.metaIndex]
      rfl
    have hblocks₁ : (s₁.flush checksum).fileBlocks = s.blocks ++ [s.writer.pushed] := hfileBlocks
    have hcount : (s₁.flush checksum).indexedKvs = s.indexedKvs := rfl
    rcases push_cases hready hkey hfits with
      ⟨-, w', hpush', hready', hblocks', hpushed'⟩ | ⟨-, hne', -⟩
    · refine ⟨{ s₁.flush checksum with
          writer := w', metaIndex := (s₁.flush checksum).metaIndex ++ []
          indexedKvs := (s₁.flush checksum).indexedKvs + 1 }, ?_, ⟨hfile, hready', ?_, ?_⟩,
          by rw [hcount], ?_⟩
      · rw [writeOrFlush, hitem]
        dsimp only
        rw [writeItem, hpush']
      · simp [hmeta, BlockWriteBuffer.blocks, hblocks₁, hblocks', hnoblocks]
      · simp [hpushed']
      · intro kvs
        simp [splitBlocks, if_neg (Nat.not_le.mpr hfull), BlockWriteBuffer.blocks, hblocks₁, hblocks',
          hnoblocks, hpushed', hnil]
    · exact absurd hnil hne'

theorem push_refused (checksum : Bytes → UInt32) {e : BlockEncoder}
    (hspace : blockSpace [(key, value)] ≤
      e.bytesWritten + entrySpace blockConfig e.kvsCount e.lastKey key value)
    (hbad : ¬ ((1 ≤ key.length ∧ key.length ≤ maxKeyLen) ∧ FitsEmptyBlock key value)) :
    ∃ err e', e.push checksum blockConfig key value = (.error err, e') := by
  rw [BlockEncoder.push]
  by_cases hkey : key.length > maxKeyLen ∨ key.length = 0
  · exact ⟨_, _, if_pos hkey⟩
  · have hbig : pageSizeInBytes < blockSpace [(key, value)] :=
      Nat.lt_of_not_le fun hfits => hbad ⟨by omega, hfits⟩
    have hsize : blockConfig.blockSizeInBytes = pageSizeInBytes := rfl
    have hshared := (sharedPrefixLength_le e.lastKey key).2
    rw [if_neg hkey]
    rw [entrySpace] at hspace
    split
    · next hdelta =>
      rw [if_pos hdelta] at hspace
      exact ⟨_, _, if_pos (by omega)⟩
    · next hrestart =>
      rw [if_neg hrestart] at hspace
      exact ⟨_, _, if_pos (by omega)⟩

theorem pushHere_refused (checksum : Bytes → UInt32) {w : BlockBufferWriter}
    (hspace : blockSpace [(key, value)] ≤ w.encoder.bytesWritten +
      entrySpace blockConfig w.encoder.kvsCount w.encoder.lastKey key value)
    (hbad : ¬ ((1 ≤ key.length ∧ key.length ≤ maxKeyLen) ∧ FitsEmptyBlock key value)) :
    ∃ err w', w.pushHere checksum key value = (.error err, w') := by
  obtain ⟨err, e', hpush⟩ := push_refused checksum hspace hbad
  exact ⟨err, { w with encoder := e' }, by rw [pushHere, hpush]⟩

theorem space_reset (page key value : Bytes) :
    blockSpace [(key, value)] ≤ (BlockEncoder.reset page).bytesWritten +
      entrySpace blockConfig (BlockEncoder.reset page).kvsCount
        (BlockEncoder.reset page).lastKey key value :=
  (blockSpace_concat [] key value).le

theorem writeItem_refused (checksum : Bytes → UInt32)
    (hspace : blockSpace [(key, value)] ≤ s.writer.encoder.bytesWritten +
      entrySpace blockConfig s.writer.encoder.kvsCount s.writer.encoder.lastKey key value)
    (hbad : ¬ ((1 ≤ key.length ∧ key.length ≤ maxKeyLen) ∧ FitsEmptyBlock key value)) :
    ∃ err s', s.writeItem checksum key value = (.error err, s') := by
  obtain ⟨err, w, hpush⟩ := pushHere_refused checksum hspace hbad
  rw [writeItem, BlockBufferWriter.push, hpush]
  dsimp only
  rcases hrest : w.rest with - | ⟨page, rest⟩
  · have hnext : w.nextPage = none := by rw [nextPage, hrest]
    rw [hnext]
    exact ⟨_, _, rfl⟩
  · obtain ⟨w', hnext, hreset⟩ : ∃ w', w.nextPage = some w' ∧
        w'.encoder = BlockEncoder.reset page := by
      rw [nextPage, hrest]
      exact ⟨_, rfl, rfl⟩
    obtain ⟨err', w'', hpush'⟩ :=
      pushHere_refused checksum (w := w') (hreset ▸ space_reset page key value) hbad
    rw [hnext]
    dsimp only
    rw [hpush']
    exact ⟨_, _, rfl⟩

theorem writeOrFlush_refused (h : BufferReady checksum s)
    (hbad : ¬ ((1 ≤ key.length ∧ key.length ≤ maxKeyLen) ∧ FitsEmptyBlock key value)) :
    s.writeOrFlush checksum key value = .error { msg := "Could not write item after flush" } := by
  have hspace := blockSpace_singleton_le s.writer.pushed key value
  rw [blockSpace_concat, ← h.writer.space, ← h.writer.count, ← h.writer.last] at hspace
  obtain ⟨err, s', hfirst⟩ := writeItem_refused checksum hspace hbad
  obtain ⟨page, hreset⟩ : ∃ page, (s'.flush checksum).writer.encoder = BlockEncoder.reset page := by
    rw [BlockWriteBuffer.flush]
    dsimp only
    rw [BlockBufferWriter.reset]
    split <;> exact ⟨_, rfl⟩
  obtain ⟨err', s'', hsecond⟩ := writeItem_refused checksum
    (s := s'.flush checksum) (hreset ▸ space_reset page key value) hbad
  rw [writeOrFlush, hfirst]
  dsimp only
  rw [hsecond]

/-- Behind the last entry the file has all blocks, and the meta index the last key
of each. -/
theorem finish_spec (h : BufferReady checksum s) :
    Forall₂ (PageOf checksum) (s.finish checksum).file (s.finish checksum).fileBlocks ∧
      (s.finish checksum).fileBlocks = s.blocks ++ splitBlocks s.writer.pushed [] ∧
      (s.finish checksum).metaIndex = (s.finish checksum).fileBlocks.map lastKey ∧
      (s.finish checksum).indexedKvs = s.indexedKvs := by
  by_cases hnil : s.writer.pushed = []
  · have hblocks := h.fresh hnil
    have hdone : s.writer.done = [] := by
      have := h.writer.done
      rw [hblocks] at this
      exact forall₂_nil_right_iff.mp this
    have hempty : s.writer.empty = true := by
      simp [BlockBufferWriter.empty, hdone, h.writer.count, hnil]
    have hall : s.blocks = s.fileBlocks := by
      rw [BlockWriteBuffer.blocks, hblocks, append_nil]
    rw [BlockWriteBuffer.finish, if_pos hempty]
    refine ⟨h.file, ?_, hall ▸ h.metaIndex, rfl⟩
    simp [splitBlocks, hnil, hall]
  · have hempty : s.writer.empty = false := by
      simp [BlockBufferWriter.empty, h.writer.count, hnil]
    rw [BlockWriteBuffer.finish, hempty, if_neg (by simp)]
    obtain ⟨hfile, -, -, -, hblocks⟩ := flush_spec
      (s := { s with metaIndex := s.metaIndex ++ [s.writer.encoder.lastKey] })
      h.file h.writer.toWriterHolds hnil
    refine ⟨hfile, ?_, ?_, rfl⟩
    · rw [hblocks, splitBlocks, if_neg hnil]
      rfl
    · have hlast : s.writer.encoder.lastKey = lastKey s.writer.pushed := h.writer.last
      rw [hblocks, map_append]
      exact congrArg₂ _ h.metaIndex (congrArg (fun k => [k]) hlast)

end Buffer

end HedgeDB
