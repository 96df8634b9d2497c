/-
HedgeDB/Paging.lean

The index region of an SST file (`merge_write_buffer` of `src/db/merge/write_buffer.h`,
the loops of `_write_index` in `src/db/index_ops.cc` and of `k_way_merge_async2` in
`src/db/merge/merge.cc`, `append_meta_index_key` of `src/db/index_ops.h`).

Both callers push the entries one by one, flush a full buffer and push the refused
entry once more; they differ in the error of a second refusal.  `writeAll_spec` says
that no entry is refused twice and that pages, meta index and counters agree with
`splitBlocks`.  What is then read from the pages is another matter: the lengths of a
delta entry have a byte each, and a key of 256 bytes loses one of them
(`ReadsBack`).

A write does not fail.  How many bytes it transfers is counted and not compared with how
many there were, so that it is a parameter (`WritesWhole`).
-/
import HedgeDB.ByteCodec
import HedgeDB.StreamPages

namespace HedgeDB

open ByteCodec List

variable {checksum : Bytes → UInt32}

/-! ### The writer and its two callers -/

/-- `bytes_written`: up to the end of the page at `_cur`. -/
def BlockBufferWriter.bytesWritten (w : BlockBufferWriter) : ℕ :=
  w.done.length * pageSizeInBytes + pageSizeInBytes

def appendMetaIndexKey (buffer key : Bytes) : Bytes := buffer ++ encodeKeySize key.length :: key

/-- The write buffer with what its callers keep: the encoded meta index, the bytes of
the file and how many were written.  `write n` is what a write of `n` bytes transfers. -/
structure IndexWriter where
  buffer : BlockWriteBuffer
  encodedMetaIndex : Bytes := []
  region : Bytes := []
  bytesWritten : ℕ := 0
  write : ℕ → ℕ := id

/-- The two loops that write an index. -/
inductive IndexCaller
  | writeIndex
  | kWayMerge

/-- The error of an entry that is refused after the flush. -/
def IndexCaller.retryError : IndexCaller → Bytes → Error
  | .writeIndex, _ => { msg := "Could not write item after flush" }
  | .kWayMerge, key =>
      { msg := "Could not flush item of size: k[" ++ toString key.length ++ "]v[0]" }

namespace IndexWriter

def make (buf : PageBuffer) : IndexWriter := { buffer := .make buf }

/-- `write_item` with both meta indices. -/
def writeItem (checksum : Bytes → UInt32) (s : IndexWriter) (key value : Bytes) :
    Expected Unit × IndexWriter :=
  let r := s.buffer.writeItem checksum key value
  let ended := (s.buffer.writer.push checksum key value).2.2
  (r.1, { s with
    buffer := r.2
    encodedMetaIndex := ended.foldl appendMetaIndexKey s.encodedMetaIndex })

/-- The callers' `flush`: the pages go to the offset `bytes_written`, which moves by what
was transferred. -/
def flush (checksum : Bytes → UInt32) (s : IndexWriter) : IndexWriter :=
  let w := s.buffer.writer.forceCommit checksum
  { s with
    buffer := s.buffer.flush checksum
    region := writeAt s.region s.bytesWritten (w.pages.flatten.take (s.write w.bytesWritten))
    bytesWritten := s.bytesWritten + s.write w.bytesWritten }

/-- One entry: on a full buffer, flush and retry. -/
def writeOrRetry (caller : IndexCaller) (checksum : Bytes → UInt32) (s : IndexWriter)
    (key value : Bytes) : Expected IndexWriter :=
  match s.writeItem checksum key value with
  | (.ok _, s') => .ok s'
  | (.error _, s') =>
      match (s'.flush checksum).writeItem checksum key value with
      | (.ok _, s'') => .ok s''
      | (.error _, _) => .error (caller.retryError key)

/-- Behind the last entry: its key goes to both meta indices, and the buffer is flushed
if it is not empty. -/
def finish (checksum : Bytes → UInt32) (s : IndexWriter) : IndexWriter :=
  if s.buffer.writer.empty then s
  else
    let last := s.buffer.writer.encoder.lastKey
    { s with
      buffer := { s.buffer with metaIndex := s.buffer.metaIndex ++ [last] }
      encodedMetaIndex := appendMetaIndexKey s.encodedMetaIndex last }.flush checksum

def writeAll (caller : IndexCaller) (checksum : Bytes → UInt32) :
    IndexWriter → List (Bytes × Bytes) → Expected IndexWriter
  | s, [] => .ok (s.finish checksum)
  | s, (key, value) :: kvs =>
      match s.writeOrRetry caller checksum key value with
      | .ok s' => writeAll caller checksum s' kvs
      | .error err => .error err

end IndexWriter

/-! ### The counters and the encoded meta index -/

/-- Every write transfers all bytes. -/
def WritesWhole (write : ℕ → ℕ) : Prop := ∀ n, write n = n

/-- What is kept beside the write buffer agrees with it. -/
structure IndexKept (s : IndexWriter) : Prop where
  whole : WritesWhole s.write
  region : s.region = s.buffer.file.flatten
  length : s.region.length = s.bytesWritten
  bytes : s.bytesWritten = s.buffer.file.length * pageSizeInBytes
  encoded : s.encodedMetaIndex = s.buffer.metaIndex.foldl appendMetaIndexKey []

variable {pages : List Bytes}

section Step

variable {s : IndexWriter} {key value : Bytes}

/-- `write_item` does not touch the file, and the keys that it puts behind the one meta
index it puts behind the other. -/
theorem writeItem_frame (checksum : Bytes → UInt32) (b : BlockWriteBuffer) (key value : Bytes) :
    (b.writeItem checksum key value).2.file = b.file ∧
      (b.writeItem checksum key value).2.writer = (b.writer.push checksum key value).2.1 ∧
      (b.writeItem checksum key value).2.metaIndex =
        b.metaIndex ++ (b.writer.push checksum key value).2.2 := by
  rw [BlockWriteBuffer.writeItem]
  rcases b.writer.push checksum key value with ⟨st | st, w, ended⟩ <;> exact ⟨rfl, rfl, rfl⟩

theorem IndexKept.writeItem (h : IndexKept s) :
    IndexKept (s.writeItem checksum key value).2 := by
  obtain ⟨hfile, -, hmeta⟩ := writeItem_frame checksum s.buffer key value
  refine ⟨h.whole, ?_, h.length, ?_, ?_⟩
  · exact h.region.trans (congrArg List.flatten hfile.symm)
  · exact h.bytes.trans (congrArg (fun file => List.length file * pageSizeInBytes) hfile.symm)
  · show List.foldl _ s.encodedMetaIndex _ =
      List.foldl _ [] (s.buffer.writeItem checksum key value).2.metaIndex
    rw [hmeta, List.foldl_append, ← h.encoded]

theorem writeItem_holds (h : BufferReady checksum s.buffer)
    (hkey : 1 ≤ key.length ∧ key.length ≤ maxKeyLen) (hfits : FitsEmptyBlock key value) :
    WriterHolds checksum (s.writeItem checksum key value).2.buffer.writer := by
  show WriterHolds checksum (s.buffer.writeItem checksum key value).2.writer
  rw [(writeItem_frame checksum s.buffer key value).2.1]
  rcases push_cases h.writer hkey hfits with
    ⟨-, w', hpush, hready, -⟩ | ⟨-, -, ⟨w', hpush, hready, -⟩ | hpush⟩
  · rw [hpush]
    exact hready.toWriterHolds
  · rw [hpush]
    exact hready.toWriterHolds
  · rw [hpush]
    exact h.writer.forceCommit

theorem length_flatten_pages (hlen : ∀ page ∈ pages, page.length = pageSizeInBytes) :
    pages.flatten.length = pages.length * pageSizeInBytes := by
  rw [length_flatten, map_congr_left hlen, map_const', sum_replicate_nat]

theorem IndexKept.flush (h : IndexKept s) (hholds : WriterHolds checksum s.buffer.writer) :
    IndexKept (s.flush checksum) := by
  have hpages : ∀ page ∈ (s.buffer.writer.forceCommit checksum).pages,
      page.length = pageSizeInBytes := by
    intro page hpage
    rcases mem_append.mp hpage with hdone | hcur
    · exact length_of_forall₂ hholds.done page hdone
    · rw [mem_singleton.mp hcur]
      exact hholds.forceCommit.encoded.length
  have hcount : (s.buffer.writer.forceCommit checksum).pages.length =
      s.buffer.writer.done.length + 1 := length_append
  have hlen := length_flatten_pages hpages
  have hbytes : (s.buffer.writer.forceCommit checksum).bytesWritten =
      (s.buffer.writer.forceCommit checksum).pages.flatten.length := by
    rw [hlen, hcount, Nat.succ_mul]
    rfl
  -- the write begins where the region ends
  have hregion : (s.flush checksum).region =
      s.region ++ (s.buffer.writer.forceCommit checksum).pages.flatten := by
    show writeAt s.region s.bytesWritten (take (s.write _) _) = _
    rw [h.whole, hbytes, take_length, writeAt, ← h.length, take_length,
      drop_of_length_le (Nat.le_add_right _ _), append_nil]
  have hwritten : (s.flush checksum).bytesWritten =
      s.bytesWritten + (s.buffer.writer.forceCommit checksum).pages.flatten.length := by
    show s.bytesWritten + s.write _ = _
    rw [h.whole, hbytes]
  refine ⟨h.whole, ?_, ?_, ?_, h.encoded⟩
  · rw [hregion, h.region]
    exact flatten_append.symm
  · rw [hregion, length_append, h.length, hwritten]
  · rw [hwritten, hlen, h.bytes, ← Nat.add_mul, ← length_append]
    rfl

/-- **One entry.**  An entry that fits an empty block is taken at once or on the retry, as
by the write buffer alone. -/
theorem writeOrRetry_spec (caller : IndexCaller) (h : BufferReady checksum s.buffer)
    (hkept : IndexKept s) (hkey : 1 ≤ key.length ∧ key.length ≤ maxKeyLen)
    (hfits : FitsEmptyBlock key value) :
    ∃ s', s.writeOrRetry caller checksum key value = .ok s' ∧
      s.buffer.writeOrFlush checksum key value = .ok s'.buffer ∧ IndexKept s' := by
  obtain ⟨b, hwrite, -⟩ := writeOrFlush_spec h hkey hfits
  obtain ⟨s₁, hs₁⟩ : ∃ s₁, s₁ = (s.writeItem checksum key value).2 := ⟨_, rfl⟩
  obtain ⟨s₂, hs₂⟩ : ∃ s₂, s₂ = ((s₁.flush checksum).writeItem checksum key value).2 := ⟨_, rfl⟩
  have hfirst : s.writeItem checksum key value =
      ((s.buffer.writeItem checksum key value).1, s₁) := by rw [hs₁]; rfl
  have hsecond : (s₁.flush checksum).writeItem checksum key value =
      (((s₁.buffer.flush checksum).writeItem checksum key value).1, s₂) := by rw [hs₂]; rfl
  have hbuffer₁ : s₁.buffer = (s.buffer.writeItem checksum key value).2 := by rw [hs₁]; rfl
  have hbuffer₂ : s₂.buffer = ((s₁.buffer.flush checksum).writeItem checksum key value).2 := by
    rw [hs₂]; rfl
  have hkept₁ : IndexKept s₁ := hs₁ ▸ hkept.writeItem
  have hholds : WriterHolds checksum s₁.buffer.writer := hs₁ ▸ writeItem_holds h hkey hfits
  have hkept₂ : IndexKept s₂ := hs₂ ▸ (hkept₁.flush hholds).writeItem
  rw [hwrite, IndexWriter.writeOrRetry, hfirst]
  rw [BlockWriteBuffer.writeOrFlush] at hwrite
  rcases hitem : s.buffer.writeItem checksum key value with ⟨err | ok, b₁⟩
  · -- the buffer is full
    rw [hitem] at hwrite hbuffer₁
    dsimp only at hwrite hbuffer₁ ⊢
    rw [hsecond]
    rw [hbuffer₁] at hbuffer₂ ⊢
    rcases hretry : (b₁.flush checksum).writeItem checksum key value with ⟨err' | ok, b₂⟩
    · rw [hretry] at hwrite
      cases hwrite
    · rw [hretry] at hwrite hbuffer₂
      refine ⟨s₂, rfl, ?_, hkept₂⟩
      rw [hbuffer₂]
      exact hwrite.symm
  · rw [hitem] at hwrite hbuffer₁
    refine ⟨s₁, rfl, ?_, hkept₁⟩
    rw [hbuffer₁]
    exact hwrite.symm

theorem finish_buffer (checksum : Bytes → UInt32) (s : IndexWriter) :
    (s.finish checksum).buffer = s.buffer.finish checksum := by
  rw [IndexWriter.finish, BlockWriteBuffer.finish]
  split <;> rfl

theorem IndexKept.finish (h : IndexKept s) (hready : BufferReady checksum s.buffer) :
    IndexKept (s.finish checksum) := by
  rw [IndexWriter.finish]
  split
  · exact h
  · refine IndexKept.flush ⟨h.whole, h.region, h.length, h.bytes, ?_⟩ hready.writer.toWriterHolds
    show appendMetaIndexKey s.encodedMetaIndex _ = foldl _ [] (s.buffer.metaIndex ++ [_])
    rw [foldl_append, ← h.encoded]
    rfl

/-- **All entries.**  Every retry succeeds, and the pages in the file and the keys of the
meta index are those of the blocks that the entries are cut into. -/
theorem writeAll_spec (caller : IndexCaller) {kvs : List (Bytes × Bytes)}
    (h : BufferReady checksum s.buffer) (hkept : IndexKept s)
    (hkeys : ∀ kv ∈ kvs, (1 ≤ kv.1.length ∧ kv.1.length ≤ maxKeyLen) ∧ FitsEmptyBlock kv.1 kv.2) :
    ∃ s', s.writeAll caller checksum kvs = .ok s' ∧ IndexKept s' ∧
      Forall₂ (PageOf checksum) s'.buffer.file
        (s.buffer.blocks ++ splitBlocks s.buffer.writer.pushed kvs) ∧
      s'.buffer.metaIndex =
        (s.buffer.blocks ++ splitBlocks s.buffer.writer.pushed kvs).map lastKey ∧
      s'.buffer.indexedKvs = s.buffer.indexedKvs + kvs.length := by
  induction kvs generalizing s with
  | nil =>
    obtain ⟨hfile, hblocks, hmeta, hcount⟩ := finish_spec h
    refine ⟨s.finish checksum, rfl, hkept.finish h, ?_⟩
    rw [finish_buffer, ← hblocks]
    exact ⟨hfile, hmeta, hcount⟩
  | cons kv kvs ih =>
    obtain ⟨⟨hkey, hfits⟩, hkeys'⟩ := forall_mem_cons.mp hkeys
    obtain ⟨s₁, hwrite, hbuffer, hkept₁⟩ := writeOrRetry_spec caller h hkept hkey hfits
    obtain ⟨b, hb, hready, hcount, hblocks⟩ := writeOrFlush_spec h hkey hfits
    obtain rfl : b = s₁.buffer := Except.ok.inj (hb.symm.trans hbuffer)
    obtain ⟨s', hall, hkept', hfile, hmeta, hcount'⟩ := ih hready hkept₁ hkeys'
    rw [hblocks kvs] at hfile hmeta
    refine ⟨s', ?_, hkept', hfile, hmeta, ?_⟩
    · rw [IndexWriter.writeAll, hwrite]
      exact hall
    · rw [hcount', hcount, length_cons]
      omega

theorem writeOrRetry_refused (caller : IndexCaller) (h : BufferReady checksum s.buffer)
    (hbad : ¬ ((1 ≤ key.length ∧ key.length ≤ maxKeyLen) ∧ FitsEmptyBlock key value)) :
    s.writeOrRetry caller checksum key value = .error (caller.retryError key) := by
  have hwrite := writeOrFlush_refused h hbad
  obtain ⟨s₁, hs₁⟩ : ∃ s₁, s₁ = (s.writeItem checksum key value).2 := ⟨_, rfl⟩
  have hfirst : s.writeItem checksum key value =
      ((s.buffer.writeItem checksum key value).1, s₁) := by rw [hs₁]; rfl
  have hbuffer : s₁.buffer = (s.buffer.writeItem checksum key value).2 := by rw [hs₁]; rfl
  rw [IndexWriter.writeOrRetry, hfirst]
  rw [BlockWriteBuffer.writeOrFlush] at hwrite
  rcases hitem : s.buffer.writeItem checksum key value with ⟨err | ok, b₁⟩
  · rw [hitem] at hwrite hbuffer
    dsimp only at hwrite hbuffer ⊢
    obtain ⟨s₂, hsecond⟩ : ∃ s₂, (s₁.flush checksum).writeItem checksum key value =
        (((s₁.buffer.flush checksum).writeItem checksum key value).1, s₂) := ⟨_, rfl⟩
    rw [hsecond, hbuffer]
    rcases hretry : (b₁.flush checksum).writeItem checksum key value with ⟨err' | ok, b₂⟩
    · rfl
    · rw [hretry] at hwrite
      cases hwrite
  · rw [hitem] at hwrite
    cases hwrite

theorem writeAll_writable {caller : IndexCaller} {kvs : List (Bytes × Bytes)} {s' : IndexWriter}
    (h : BufferReady checksum s.buffer) (hkept : IndexKept s)
    (hall : s.writeAll caller checksum kvs = .ok s') :
    ∀ kv ∈ kvs, (1 ≤ kv.1.length ∧ kv.1.length ≤ maxKeyLen) ∧ FitsEmptyBlock kv.1 kv.2 := by
  induction kvs generalizing s with
  | nil => exact fun _ hmem => absurd hmem not_mem_nil
  | cons kv kvs ih =>
    rw [IndexWriter.writeAll] at hall
    by_cases hgood : (1 ≤ kv.1.length ∧ kv.1.length ≤ maxKeyLen) ∧ FitsEmptyBlock kv.1 kv.2
    · obtain ⟨s₁, hwrite, hbuffer, hkept₁⟩ := writeOrRetry_spec caller h hkept hgood.1 hgood.2
      obtain ⟨b, hb, hready, -⟩ := writeOrFlush_spec h hgood.1 hgood.2
      obtain rfl : b = s₁.buffer := Except.ok.inj (hb.symm.trans hbuffer)
      rw [hwrite] at hall
      exact forall_mem_cons.mpr ⟨hgood, ih hready hkept₁ hall⟩
    · rw [writeOrRetry_refused caller h hgood] at hall
      cases hall

end Step

/-! ### What is read from the pages -/

/-- The region is the entries cut into blocks, each of them read from its page, with one
key of the meta index for each page. -/
structure PagedAs (s : IndexWriter) (kvs : List (Bytes × Bytes))
    (blocks : List (List (Bytes × Bytes))) : Prop where
  region : HoldsBlocks s.region blocks
  entries : blocks.flatten = kvs
  metaIndex : s.buffer.metaIndex = blocks.map lastKey
  encoded : s.encodedMetaIndex =
    (blocks.map lastKey).flatMap fun key => encodeKeySize key.length :: key
  indexed : s.buffer.indexedKvs = kvs.length
  bytes : s.bytesWritten = blocks.length * pageSizeInBytes

theorem foldl_appendMetaIndexKey (keys : List Bytes) (buffer : Bytes) :
    keys.foldl appendMetaIndexKey buffer =
      buffer ++ keys.flatMap fun key => encodeKeySize key.length :: key := by
  induction keys generalizing buffer with
  | nil => exact (append_nil buffer).symm
  | cons key keys ih =>
    rw [foldl_cons, ih, appendMetaIndexKey, flatMap_cons, append_assoc]

section Pages

variable {kvs : List (Bytes × Bytes)} {s : IndexWriter}

theorem pageOf_entries {page : Bytes} {block : List (Bytes × Bytes)}
    (h : PageOf checksum page block)
    (hkeys : ∀ kv ∈ block, 1 ≤ kv.1.length ∧ kv.1.length ≤ maxKeyLen) :
    (ReadsBack blockConfig 0 [] block →
        (BlockDecoder.reset blockConfig page).entries blockConfig = some block) ∧
      (¬ ReadsBack blockConfig 0 [] block →
        ∀ l, (BlockDecoder.reset blockConfig page).entries blockConfig = some l →
          ∃ value, ([], value) ∈ l) := by
  obtain ⟨-, e, henc, hcount, -, -, rfl⟩ := h
  have hgroup : blockConfig.restartGroupSize = 2 ^ 2 := rfl
  exact entries_readsBack checksum hgroup rfl henc hcount hkeys

variable {blocks : List (List (Bytes × Bytes))}

theorem holdsBlocks_of_pageOf (h : Forall₂ (PageOf checksum) pages blocks)
    (hkeys : ∀ block ∈ blocks, ∀ kv ∈ block, 1 ≤ kv.1.length ∧ kv.1.length ≤ maxKeyLen)
    (hread : ∀ block ∈ blocks, ReadsBack blockConfig 0 [] block) :
    HoldsBlocks pages.flatten blocks := by
  refine (holdsBlocks_flatten_iff (length_of_forall₂ h)).mpr ?_
  induction h with
  | nil => exact .nil
  | cons hpage _ ih =>
    obtain ⟨hkey, hkeys'⟩ := forall_mem_cons.mp hkeys
    obtain ⟨hblock, hread'⟩ := forall_mem_cons.mp hread
    exact .cons ⟨hpage.1, (pageOf_entries hpage hkey).1 hblock⟩ (ih hkeys' hread')

theorem readsBack_of_holdsBlocks {read : List (List (Bytes × Bytes))}
    (h : Forall₂ (PageOf checksum) pages blocks)
    (hkeys : ∀ block ∈ blocks, ∀ kv ∈ block, 1 ≤ kv.1.length ∧ kv.1.length ≤ maxKeyLen)
    (hholds : HoldsBlocks pages.flatten read) (hread : ∀ kv ∈ read.flatten, kv.1 ≠ []) :
    ∀ block ∈ blocks, ReadsBack blockConfig 0 [] block := by
  have hpages := (holdsBlocks_flatten_iff (length_of_forall₂ h)).mp hholds
  clear hholds
  induction h generalizing read with
  | nil => exact fun _ hmem => absurd hmem not_mem_nil
  | cons hpage _ ih =>
    obtain ⟨hkey, hkeys'⟩ := forall_mem_cons.mp hkeys
    rcases hpages with - | ⟨⟨-, hentries⟩, hrest⟩
    rw [flatten_cons] at hread
    refine forall_mem_cons.mpr ⟨by_contra fun hlost => ?_, ih hkeys' ?_ hrest⟩
    · obtain ⟨value, hmem⟩ := (pageOf_entries hpage hkey).2 hlost _ hentries
      exact hread _ (mem_append_left _ hmem) rfl
    · exact fun kv hkv => hread kv (mem_append_right _ hkv)

variable (hkeys : ∀ kv ∈ kvs,
  (1 ≤ kv.1.length ∧ kv.1.length ≤ maxKeyLen) ∧ FitsEmptyBlock kv.1 kv.2)

include hkeys

theorem writeAll_make (checksum : Bytes → UInt32) (caller : IndexCaller) (buf : PageBuffer)
    (write : ℕ → ℕ) (hwrite : WritesWhole write) :
    ∃ s, { IndexWriter.make buf with write }.writeAll caller checksum kvs = .ok s ∧ IndexKept s ∧
      Forall₂ (PageOf checksum) s.buffer.file (splitBlocks [] kvs) ∧
      s.buffer.metaIndex = (splitBlocks [] kvs).map lastKey ∧
      s.buffer.indexedKvs = kvs.length := by
  obtain ⟨s, hall, hkept, hfile, hmeta, hcount⟩ :=
    writeAll_spec (s := { IndexWriter.make buf with write }) caller (bufferReady_make buf)
      ⟨hwrite, rfl, rfl, (Nat.zero_mul _).symm, rfl⟩ hkeys
  refine ⟨s, hall, hkept, hfile, hmeta, hcount.trans (Nat.zero_add _)⟩

theorem splitBlocks_keys :
    ∀ block ∈ splitBlocks [] kvs, ∀ kv ∈ block, 1 ≤ kv.1.length ∧ kv.1.length ≤ maxKeyLen := by
  intro block hblock kv hkv
  have hmem : kv ∈ (splitBlocks [] kvs).flatten := mem_flatten.mpr ⟨block, hblock, hkv⟩
  rw [splitBlocks_flatten, nil_append] at hmem
  exact (hkeys kv hmem).1

/-- The region of entries that can be told from their pages has blocks that read back. -/
theorem readsBack_of_pagedAs {caller : IndexCaller} {buf : PageBuffer} {write : ℕ → ℕ}
    (hwrite : WritesWhole write)
    (hall : { IndexWriter.make buf with write }.writeAll caller checksum kvs = .ok s)
    (h : PagedAs s kvs blocks) :
    ∀ block ∈ splitBlocks [] kvs, ReadsBack blockConfig 0 [] block := by
  obtain ⟨s', hall', hkept, hfile, -⟩ := writeAll_make hkeys checksum caller buf write hwrite
  obtain rfl : s' = s := Except.ok.inj (hall'.symm.trans hall)
  refine readsBack_of_holdsBlocks hfile (splitBlocks_keys hkeys) (hkept.region ▸ h.region) ?_
  rw [h.entries]
  intro kv hkv hnil
  have hkey := (hkeys kv hkv).1.1
  rw [hnil] at hkey
  exact Nat.not_succ_le_zero 0 hkey

/-- **Paging loses nothing exactly when no length is lost.**  Entries that fit an empty
block are all written, in either loop and with any number of pages; they are read back in
order, block by block, if no block has a delta entry whose lengths do not fit a byte. -/
theorem paging_exact_iff (checksum : Bytes → UInt32) (caller : IndexCaller) (buf : PageBuffer)
    (write : ℕ → ℕ) (hwrite : WritesWhole write) :
    (∃ s blocks, { IndexWriter.make buf with write }.writeAll caller checksum kvs = .ok s ∧
      PagedAs s kvs blocks) ↔
      ∀ block ∈ splitBlocks [] kvs, ReadsBack blockConfig 0 [] block := by
  constructor
  · rintro ⟨s, blocks, hall, h⟩
    exact readsBack_of_pagedAs hkeys hwrite hall h
  · intro hread
    obtain ⟨s, hall, hkept, hfile, hmeta, hcount⟩ :=
      writeAll_make hkeys checksum caller buf write hwrite
    refine ⟨s, splitBlocks [] kvs, hall, ?_, ?_, hmeta, ?_, hcount, ?_⟩
    · rw [hkept.region]
      exact holdsBlocks_of_pageOf hfile (splitBlocks_keys hkeys) hread
    · rw [splitBlocks_flatten, nil_append]
    · rw [hkept.encoded, hmeta, foldl_appendMetaIndexKey, nil_append]
    · rw [hkept.bytes, hfile.length_eq]

end Pages

def onePageBuffer : PageBuffer := .zeros 0

theorem paging_exact_two_entries :
    ∃ s blocks, (IndexWriter.make onePageBuffer).writeAll .kWayMerge (fun _ => 0)
        [([97], [1]), ([98], [2])] = .ok s ∧ PagedAs s [([97], [1]), ([98], [2])] blocks := by
  refine (paging_exact_iff ?_ (fun _ => 0) .kWayMerge onePageBuffer id fun _ => rfl).mpr
    (by decide)
  decide

/-- A key of 256 bytes behind one that it shares nothing with. -/
def longDeltaEntries : List (Bytes × Bytes) := [([97], [1]), (replicate 256 98, [2])]

theorem paging_loses_long_key :
    longDeltaEntries.Pairwise (fun a b => a.1 < b.1) ∧
      (∀ kv ∈ longDeltaEntries,
        (1 ≤ kv.1.length ∧ kv.1.length ≤ maxKeyLen) ∧ FitsEmptyBlock kv.1 kv.2) ∧
      ¬ ∃ s blocks, (IndexWriter.make onePageBuffer).writeAll .writeIndex (fun _ => 0)
          longDeltaEntries = .ok s ∧ PagedAs s longDeltaEntries blocks := by
  have hkeys : ∀ kv ∈ longDeltaEntries,
      (1 ≤ kv.1.length ∧ kv.1.length ≤ maxKeyLen) ∧ FitsEmptyBlock kv.1 kv.2 := by
    decide +kernel
  refine ⟨by decide, hkeys, ?_⟩
  rintro ⟨s, blocks, hall, h⟩
  exact absurd (readsBack_of_pagedAs hkeys (fun _ => rfl) hall h) (by decide +kernel)

end HedgeDB
