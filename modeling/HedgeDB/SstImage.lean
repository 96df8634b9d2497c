/-
HedgeDB/SstImage.lean

The file of an SST and the SST in memory (`sst_footer_builder` of `src/db/index_ops.h`,
`_write_qf_async` and `_export_as_sst_async` of `src/db/index_ops.cc`, the end of
`k_way_merge_async2` in `src/db/merge/merge.cc`, `sst::load` of `src/db/sst.cc`).

Behind the pages of the index a file has the encoded meta index, padded to a page, the struct
of the filter in a page of its own, the table of the filter, and the footer in the last page.
The two writers go through the same sections with their own texts (`writeTail`), and keep the
meta index, the filter and the footer in memory.  `sst::load` finds the footer at the end of
the file and the sections by the offsets in it.
-/
import HedgeDB.FlushFiles
import HedgeDB.Merge
import HedgeDB.PageRange
import HedgeDB.SstFilter

namespace HedgeDB

open ByteCodec

/-! ### The footer -/

structure SstFooter where
  header : Bytes
  version : ℕ
  upperBound : ℕ
  indexedKeys : ℕ
  metaIndexEntries : ℕ
  indexOffset : ℕ
  metaIndexOffset : ℕ
  qfOffset : ℕ
  qfSize : ℕ
  footerOffset : ℕ
  epoch : ℕ
  maxSeqNr : ℕ
  deriving DecidableEq

/-- The twelve characters that `sst::load` looks for. -/
def footerMagic : Bytes := "hedge_FOOTER".toList.map fun c => UInt8.ofNat c.toNat

structure SstFooterBuilder where
  upperBound : Option ℕ := none
  indexedKv : Option ℕ := none
  metaIndexEntries : Option ℕ := none
  indexOffset : Option ℕ := none
  metaIndexOffset : Option ℕ := none
  qfOffset : Option ℕ := none
  qfSize : Option ℕ := none
  footerOffset : Option ℕ := none
  epoch : Option ℕ := none
  maxSeqNr : Option ℕ := none

def fieldSet (name : String) : Option ℕ → Expected ℕ
  | some v => .ok v
  | none => .error { msg := "Footer " ++ name ++ " not set" }

def SstFooterBuilder.build (fb : SstFooterBuilder) : Expected SstFooter := do
  let upperBound ← fieldSet "upper_bound" fb.upperBound
  let indexedKeys ← fieldSet "indexed_keys" fb.indexedKv
  let metaIndexEntries ← fieldSet "meta_index_entries" fb.metaIndexEntries
  let indexOffset ← fieldSet "index_offset" fb.indexOffset
  let metaIndexOffset ← fieldSet "meta_index_offset" fb.metaIndexOffset
  let footerOffset ← fieldSet "footer_offset" fb.footerOffset
  let epoch ← fieldSet "epoch" fb.epoch
  let maxSeqNr ← fieldSet "max_seq_nr" fb.maxSeqNr
  return {
    header := footerMagic ++ List.replicate 4 0
    version := 1
    upperBound, indexedKeys, metaIndexEntries, indexOffset, metaIndexOffset
    qfOffset := fb.qfOffset.getD 0
    qfSize := fb.qfSize.getD 0
    footerOffset, epoch, maxSeqNr }

namespace SstFooter

/-- The fields of the struct, with the bytes that align `upper_bound`. -/
def fields (pad : BitVec 56) (f : SstFooter) : List (ℕ × ℕ) :=
  [(16, ofLe f.header), (1, f.version), (7, pad.toNat), (8, f.upperBound),
    (8, f.indexedKeys), (8, f.metaIndexEntries), (8, f.indexOffset), (8, f.metaIndexOffset),
    (8, f.qfOffset), (8, f.qfSize), (8, f.footerOffset), (8, f.epoch), (8, f.maxSeqNr)]

def widths : List ℕ := [16, 1, 7, 8, 8, 8, 8, 8, 8, 8, 8, 8, 8]

def bytes (pad : BitVec 56) (f : SstFooter) : Bytes := pack (f.fields pad)

/-- `memcpy` of the struct. -/
def ofBytes (page : Bytes) : SstFooter :=
  { header := page.take 16
    version := field page 16 1
    upperBound := field page 24 8
    indexedKeys := field page 32 8
    metaIndexEntries := field page 40 8
    indexOffset := field page 48 8
    metaIndexOffset := field page 56 8
    qfOffset := field page 64 8
    qfSize := field page 72 8
    footerOffset := field page 80 8
    epoch := field page 88 8
    maxSeqNr := field page 96 8 }

/-- The fields have their widths. -/
structure Storable (f : SstFooter) : Prop where
  header : f.header.length = 16
  version : f.version < 2 ^ 8
  upperBound : f.upperBound < 2 ^ 64
  indexedKeys : f.indexedKeys < 2 ^ 64
  metaIndexEntries : f.metaIndexEntries < 2 ^ 64
  indexOffset : f.indexOffset < 2 ^ 64
  metaIndexOffset : f.metaIndexOffset < 2 ^ 64
  qfOffset : f.qfOffset < 2 ^ 64
  qfSize : f.qfSize < 2 ^ 64
  footerOffset : f.footerOffset < 2 ^ 64
  epoch : f.epoch < 2 ^ 64
  maxSeqNr : f.maxSeqNr < 2 ^ 64

theorem length_bytes (pad : BitVec 56) (f : SstFooter) : (f.bytes pad).length = 104 := by
  rw [bytes, length_pack]
  show widths.sum = 104
  decide

theorem Storable.ofBytes {f : SstFooter} (h : f.Storable) (pad : BitVec 56) (rest : Bytes) :
    ofBytes (f.bytes pad ++ rest) = f := by
  have hwidths : (f.fields pad).map Prod.fst = widths := rfl
  have hword : (2 : ℕ) ^ 64 = 256 ^ 8 := by decide
  have hheader : (pack (f.fields pad) ++ rest).take 16 = f.header := by
    have hlen : (le 16 (ofLe f.header)).length = 16 := length_le _ _
    rw [fields, pack, List.flatMap_cons, List.append_assoc, List.take_left' hlen]
    exact h.header ▸ le_ofLe f.header
  have hversion : field _ 16 1 = f.version :=
    field_pack hwidths (i := 1) (by decide) rfl (h.version.trans_eq (by decide)) rest
  have hupperBound : field _ 24 8 = f.upperBound :=
    field_pack hwidths (i := 3) (by decide) rfl (h.upperBound.trans_eq hword) rest
  have hindexedKeys : field _ 32 8 = f.indexedKeys :=
    field_pack hwidths (i := 4) (by decide) rfl (h.indexedKeys.trans_eq hword) rest
  have hmetaIndexEntries : field _ 40 8 = f.metaIndexEntries :=
    field_pack hwidths (i := 5) (by decide) rfl (h.metaIndexEntries.trans_eq hword) rest
  have hindexOffset : field _ 48 8 = f.indexOffset :=
    field_pack hwidths (i := 6) (by decide) rfl (h.indexOffset.trans_eq hword) rest
  have hmetaIndexOffset : field _ 56 8 = f.metaIndexOffset :=
    field_pack hwidths (i := 7) (by decide) rfl (h.metaIndexOffset.trans_eq hword) rest
  have hqfOffset : field _ 64 8 = f.qfOffset :=
    field_pack hwidths (i := 8) (by decide) rfl (h.qfOffset.trans_eq hword) rest
  have hqfSize : field _ 72 8 = f.qfSize :=
    field_pack hwidths (i := 9) (by decide) rfl (h.qfSize.trans_eq hword) rest
  have hfooterOffset : field _ 80 8 = f.footerOffset :=
    field_pack hwidths (i := 10) (by decide) rfl (h.footerOffset.trans_eq hword) rest
  have hepoch : field _ 88 8 = f.epoch :=
    field_pack hwidths (i := 11) (by decide) rfl (h.epoch.trans_eq hword) rest
  have hmaxSeqNr : field _ 96 8 = f.maxSeqNr :=
    field_pack hwidths (i := 12) (by decide) rfl (h.maxSeqNr.trans_eq hword) rest
  rw [SstFooter.ofBytes, bytes, hheader, hversion, hupperBound, hindexedKeys, hmetaIndexEntries,
    hindexOffset, hmetaIndexOffset, hqfOffset, hqfSize, hfooterOffset, hepoch, hmaxSeqNr]

end SstFooter

/-! ### Writing the file -/

/-- What the writers get from outside: the answers to their requests, and the bytes of memory
that nobody has set. -/
structure OutputEnv where
  /-- The result of writing so many bytes at an offset. -/
  write : ℕ → ℕ → ℤ
  ftruncate : ℕ → ℤ
  fdatasync : ℤ
  strerror : ℤ → String
  memory : ℕ → UInt8
  headerPad : UInt8
  tableAddress : BitVec 64
  footerPad : BitVec 56

/-- Every write that can report its size does, and nothing fails. -/
structure OutputEnv.Complete (env : OutputEnv) : Prop where
  write : ∀ offset size : ℕ, size < 2 ^ 31 → env.write offset size = size
  ftruncate : ∀ size, 0 ≤ env.ftruncate size
  fdatasync : 0 ≤ env.fdatasync

/-- The output file and `bytes_written`. -/
structure OutputFile where
  contents : Bytes
  bytesWritten : ℕ

/-- A write at `bytes_written`; what is reported counts as written. -/
def OutputFile.write (env : OutputEnv) (what : String) (bytes : Bytes) (file : OutputFile) :
    Expected OutputFile :=
  let res := env.write file.bytesWritten bytes.length
  if res < 0 then .error { msg := what ++ ": " ++ env.strerror (-res) }
  else .ok
    { contents := ByteCodec.writeAt file.contents file.bytesWritten (bytes.take res.toNat)
      bytesWritten := file.bytesWritten + res.toNat }

/-- Bytes in a buffer of whole pages; the rest of it is whatever it is. -/
def inPages (rest : ℕ → UInt8) (bytes : Bytes) : Bytes :=
  bytes ++ (List.range (ceilPageAlign bytes.length - bytes.length)).map rest

/-- `_write_qf_async`, which `k_way_merge_async2` has in its own body. -/
def writeQf (env : OutputEnv) (qf : QuotientFilter) (file : OutputFile) : Expected OutputFile := do
  let file ← file.write env "Failed to write QF header"
    (inPages (fun _ => 0) (qf.headerBytes env.headerPad env.tableAddress))
  file.write env "Failed to write QF data" (inPages (fun _ => 0) qf.dataBytes)

/-- The pages of the filter, if there is one. -/
def writeFilter (env : OutputEnv) : Option QuotientFilter → OutputFile → Expected OutputFile
  | some qf, file => writeQf env qf file
  | none, file => .ok file

/-- What the two writers say when a step fails. -/
structure TailTexts where
  metaIndex : String
  footer : String
  truncate : String
  sync : String

/-- Behind the index: the meta index, the filter if there is one, and the footer. -/
def writeTail (texts : TailTexts) (env : OutputEnv) (fdatasyncOutput : Bool)
    (encodedMetaIndex : Bytes) (qf : Option QuotientFilter) (fb : SstFooterBuilder)
    (file : OutputFile) : Expected (SstFooter × Bytes) := do
  let metaIndexOffset := file.bytesWritten
  let file ← file.write env texts.metaIndex (inPages env.memory encodedMetaIndex)
  let qfOffset := file.bytesWritten
  let file ← writeFilter env qf file
  let fb :=
    { fb with
      indexOffset := some 0
      metaIndexOffset := some metaIndexOffset
      qfOffset := qf.map fun _ => qfOffset
      qfSize := qf.map fun _ => file.bytesWritten - qfOffset
      footerOffset := some file.bytesWritten }
  match fb.build with
  | .error err => .error { msg := "Failed to build footer: " ++ err.msg }
  | .ok footer =>
      let file ← file.write env texts.footer (inPages env.memory (footer.bytes env.footerPad))
      let res := env.ftruncate file.bytesWritten
      if res < 0 then .error { msg := texts.truncate ++ ": " ++ env.strerror (-res) }
      else if fdatasyncOutput && env.fdatasync < 0 then
        .error { msg := texts.sync ++ ": " ++ env.strerror (-env.fdatasync) }
      else .ok (footer, file.contents.take file.bytesWritten)

/-- The texts of `_export_as_sst_async`. -/
def exportTexts : TailTexts :=
  { metaIndex := "Failed to write meta-index"
    footer := "Failed to write footer"
    truncate := "Failed to truncate file"
    sync := "Failed to fdatasync file" }

/-- The texts of `k_way_merge_async2`. -/
def mergeTexts : TailTexts :=
  { metaIndex := "Failed to write meta index to file"
    footer := "Failed to write footer to file"
    truncate := "Failed to truncate merged file to final size"
    sync := "Failed to fdatasync merged file" }

/-- What an `sst` keeps in memory. -/
structure SstImage where
  metaIndex : List Bytes
  superIndex : Option (List Bytes)
  qf : Option QuotientFilter
  footer : SstFooter

namespace SstImage

def findPageId (sst : SstImage) (key : Bytes) : Option ℕ :=
  HedgeDB.findPageId sst.metaIndex sst.superIndex key

def findRange (sst : SstImage) (lower upper : Option Bytes) : Option PageRange :=
  HedgeDB.findRange sst.metaIndex.length sst.findPageId lower upper

def probeFilter (fuel : ℕ) (sst : SstImage) (keyHash : BitVec 64) : Option Bool :=
  match sst.qf with
  | none => some false
  | some qf => qf.mayContain fuel keyHash

end SstImage

/-- The filter for `numKeys` keys.  `_export_as_sst_async` throws when it cannot be made, and
`k_way_merge_async2` goes on without one. -/
def makeFilter (caller : IndexCaller) (fuel numKeys : ℕ) :
    Option (Expected (Option QuotientFilter)) := do
  match ← createQfForKeyCount fuel numKeys, caller with
  | .ok qf, _ => some (.ok (some qf))
  | .error err, .writeIndex =>
      some (.error { msg := "Failed to create quotient filter: " ++ err.msg })
  | .error _, .kWayMerge => some (.ok none)

/-- The filter when the hash of every key has been inserted. -/
def fillFilter (fuel : ℕ) (qf : Option QuotientFilter) (hashes : List (BitVec 64)) :
    Option (Option QuotientFilter) :=
  match qf with
  | none => some none
  | some qf => (qf.insertAll fuel hashes).map fun r => some r.2

structure SstWrite where
  env : OutputEnv
  fuel : ℕ
  hash : Bytes → BitVec 64
  checksum : Bytes → UInt32
  buf : PageBuffer
  /-- What `fallocate` has made the file. -/
  preallocated : Bytes
  fdatasyncOutput : Bool

/-- The footer and the file behind the entries, for both writers.  A hash is inserted right
before its entry is written; the two do not look at each other. -/
def SstWrite.run (cfg : SstWrite) (caller : IndexCaller) (texts : TailTexts) (numKeys : ℕ)
    (kvs : List (Bytes × Bytes)) (fb : SstFooterBuilder)
    (superIndex : List Bytes → Option (List Bytes)) : Option (Expected (SstImage × Bytes)) := do
  match ← makeFilter caller cfg.fuel numKeys with
  | .error err => some (.error err)
  | .ok qf =>
      let qf ← fillFilter cfg.fuel qf (kvs.map fun kv => cfg.hash kv.1)
      match (IndexWriter.make cfg.buf).writeAll caller cfg.checksum kvs with
      | .error err => some (.error err)
      | .ok w =>
          let fb :=
            { fb with
              indexedKv := some w.buffer.indexedKvs
              metaIndexEntries := some w.buffer.metaIndex.length }
          let file := ⟨ByteCodec.writeAt cfg.preallocated 0 w.region, w.bytesWritten⟩
          match writeTail texts cfg.env cfg.fdatasyncOutput w.encodedMetaIndex qf fb file with
          | .error err => some (.error err)
          | .ok (footer, contents) =>
              some (.ok ({ metaIndex := w.buffer.metaIndex
                           superIndex := superIndex w.buffer.metaIndex, qf, footer }, contents))

/-- `_export_as_sst_async` for one partition range. -/
def SstWrite.exportAsSst (cfg : SstWrite) (flushIteration : ℕ)
    (range : ℕ × List (MemtableEntry Bytes)) : Option (Expected (SstImage × Bytes)) :=
  let index := writeIndex none 0 range.2
  cfg.run .writeIndex exportTexts range.2.length (index.1.map MemtableEntry.kv)
    { upperBound := some range.1, epoch := some flushIteration, maxSeqNr := some index.2 }
    fun _ => none

/-- `k_way_merge_async2`, with the file that it writes. -/
def SstWrite.kWayMerge (cfg : SstWrite) (io : MergeIo Bytes) (config : MergeConfig) (fileId : ℕ)
    (indices : List (Sst Bytes)) : Option (Expected (SstImage × Bytes)) :=
  match kWayMergeAsync2 io config fileId indices with
  | .error err => some (.error err)
  | .ok out =>
      cfg.run .kWayMerge mergeTexts (totalKeys indices) (out.sst.entries.map Record.kv)
        { upperBound := some out.sst.upperBound, epoch := some out.sst.epoch
          maxSeqNr := some out.sst.maxSeqNr }
        loadSuperIndex

/-! ### Loading -/

/-- Subtraction of two `size_t`. -/
def sub64 (a b : ℕ) : ℕ := if b ≤ a then a - b else a + 2 ^ 64 - b

/-- `pread` into a buffer of `size` bytes, all of which have to come; the count is an `int`. -/
def preadAll (file : Bytes) (size offset : ℕ) : Option Bytes :=
  let bytes := (file.drop offset).take size
  let res := toInt32 bytes.length
  if res < 0 ∨ res ≠ size then none else some bytes

/-- The loop over `read_key_unsafe`; a key that ends behind the buffer is no key. -/
def readKeys : ℕ → Bytes → Option (List Bytes)
  | 0, _ => some []
  | _ + 1, [] => none
  | n + 1, b :: raw =>
      if raw.length < decodeKeySize b then none
      else (readKeys n (raw.drop (decodeKeySize b))).map (raw.take (decodeKeySize b) :: ·)

def readOr (msg : String) : Option Bytes → Expected Bytes
  | some bytes => .ok bytes
  | none => .error { msg }

/-- Go on with a result, or return the error. -/
def andThen {α β : Type} (r : Expected α) (f : α → Option (Expected β)) : Option (Expected β) :=
  match r with
  | .ok a => f a
  | .error err => some (.error err)

/-- The footer, from the last page. -/
def loadFooter (path : String) (file : Bytes) : Expected SstFooter := do
  let page ← readOr ("sst::load: failed to read footer from " ++ path)
    (preadAll file pageSizeInBytes (sub64 file.length pageSizeInBytes))
  let footer := SstFooter.ofBytes page
  if footer.header.take 12 ≠ footerMagic then
    .error { msg := "sst::load: invalid footer magic in " ++ path }
  else .ok footer

/-- The meta index; its keys are empty when no byte is read. -/
def loadMetaIndex (path : String) (file : Bytes) (footer : SstFooter) :
    Option (Expected (List Bytes)) :=
  let metaEnd := if footer.qfSize > 0 then footer.qfOffset else footer.footerOffset
  let metaSize := sub64 metaEnd footer.metaIndexOffset
  if metaSize > 0 then
    andThen (readOr ("sst::load: failed to read meta-index from " ++ path)
      (preadAll file metaSize footer.metaIndexOffset))
      fun raw => (readKeys footer.metaIndexEntries raw).map .ok
  else some (.ok (List.replicate footer.metaIndexEntries []))

/-- The filter at an offset, whose table has `dataSize` bytes. -/
def loadFilterAt (path : String) (file : Bytes) (qfOffset dataSize : ℕ) :
    Expected (Option QuotientFilter) := do
  let header ← readOr ("sst::load: failed to read QF header from " ++ path)
    (preadAll file pageSizeInBytes qfOffset)
  let data ← readOr ("sst::load: failed to read QF data from " ++ path)
    (preadAll file (ceilPageAlign dataSize) (qfOffset + pageSizeInBytes))
  match QuotientFilter.load header data dataSize with
  | .error err => .error { msg := "sst::load: failed to load quotient filter: " ++ err.msg }
  | .ok qf => .ok (some qf)

/-- The filter, if there is one. -/
def loadFilter (path : String) (file : Bytes) (footer : SstFooter) :
    Expected (Option QuotientFilter) :=
  if footer.qfSize > 0 then
    loadFilterAt path file footer.qfOffset (sub64 footer.qfSize pageSizeInBytes)
  else .ok none

/-- `sst::load` of a file that can be opened. -/
def SstImage.load (path : String) (file : Bytes) : Option (Expected SstImage) :=
  andThen (loadFooter path file) fun footer => do
    let r ← loadMetaIndex path file footer
    andThen r fun metaIndex =>
      andThen (loadFilter path file footer) fun qf =>
        some (.ok { metaIndex, superIndex := loadSuperIndex metaIndex, qf, footer })

end HedgeDB
