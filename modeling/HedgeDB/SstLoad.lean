/-
HedgeDB/SstLoad.lean

`sst::load` reads what the writers wrote (`src/db/sst.cc`, `src/db/index_ops.cc`,
`src/db/merge/merge.cc`).

The two sides meet at `LaidOut`, which says how the sections of a file hold an SST:

  index | encoded meta index | filter | footer page

and what the footer says about them.  `LaidOut.load` is the reader's half: whatever the padding
of the sections is, the SST in memory comes back, with the super index that `sst::load` builds.
`run_laidOut` is the writer's half, for both writers.  It needs no condition on the keys, since
a key that does not fit its length byte is refused by the block encoder.

The result of a write and that of `pread` are 32-bit numbers.  A write of `2 ^ 31` bytes cannot
report that it is complete, so that the sizes of the sections are bounded (`Reportable`).
-/
import HedgeDB.SstImage

namespace HedgeDB

open ByteCodec List Option

/-! ### Reading a stretch of the file -/

theorem preadAll_eq {file a b c : Bytes} {size offset : ℕ} (hfile : file = a ++ b ++ c)
    (hoffset : offset = a.length) (hsize : size = b.length) (hb : b.length < 2 ^ 31) :
    preadAll file size offset = some b := by
  have hbytes : (file.drop offset).take size = b := by
    rw [hfile, hoffset, hsize, append_assoc, drop_left, take_left]
  have hres : ¬ (toInt32 b.length < 0 ∨ toInt32 b.length ≠ size) := by
    rw [toInt32_of_lt hb, hsize]
    omega
  rw [preadAll, hbytes]
  exact if_neg hres

def encodeMetaIndex (keys : List Bytes) : Bytes :=
  keys.flatMap fun key => encodeKeySize key.length :: key

theorem readKeys_encodeMetaIndex {keys : List Bytes}
    (hkeys : ∀ key ∈ keys, 1 ≤ key.length ∧ key.length ≤ maxKeyLen) (rest : Bytes) :
    readKeys keys.length (encodeMetaIndex keys ++ rest) = some keys := by
  induction keys with
  | nil => rfl
  | cons key keys ih =>
    obtain ⟨hkey, hkeys'⟩ := forall_mem_cons.mp hkeys
    have hsize := decodeKeySize_encodeKeySize hkey
    rw [encodeMetaIndex, flatMap_cons, append_assoc, ← encodeMetaIndex,
      cons_append, length_cons, readKeys, hsize,
      if_neg (by rw [length_append]; omega), take_left, drop_left, ih hkeys',
      map_some]

/-! ### The sections -/

/-- The sections of a file, in their order. -/
structure SstSections where
  index : Bytes
  metaIndex : Bytes
  filter : Bytes
  footer : Bytes

def SstSections.file (s : SstSections) : Bytes := s.index ++ s.metaIndex ++ s.filter ++ s.footer

/-- The section of the filter, and what the footer says about it. -/
inductive FilterLaidOut (footer : SstFooter) (offset : ℕ) : Option QuotientFilter → Bytes → Prop
  | absent (hsize : footer.qfSize = 0) : FilterLaidOut footer offset none []
  | present {qf : QuotientFilter} {pad : UInt8} {address : BitVec 64} {rest : Bytes}
      (hqf : qf.Storable) (htable : qf.allocatedSize < 2 ^ 31)
      (hpage : (qf.headerBytes pad address ++ rest).length = pageSizeInBytes)
      (hoffset : footer.qfOffset = offset)
      (hsize : footer.qfSize = pageSizeInBytes + qf.allocatedSize) :
      FilterLaidOut footer offset (some qf) (qf.headerBytes pad address ++ rest ++ qf.dataBytes)

/-- The sections hold the SST. -/
structure LaidOut (image : SstImage) (s : SstSections) : Prop where
  keys : ∀ key ∈ image.metaIndex, 1 ≤ key.length ∧ key.length ≤ maxKeyLen
  metaIndex : ∃ rest, s.metaIndex = encodeMetaIndex image.metaIndex ++ rest
  metaIndex_lt : s.metaIndex.length < 2 ^ 31
  filter : FilterLaidOut image.footer (s.index.length + s.metaIndex.length) image.qf s.filter
  footer : ∃ pad rest, s.footer = image.footer.bytes pad ++ rest
  length_footer : s.footer.length = pageSizeInBytes
  magic : image.footer.header.take 12 = footerMagic
  entries : image.footer.metaIndexEntries = image.metaIndex.length
  metaIndexOffset : image.footer.metaIndexOffset = s.index.length
  footerOffset : image.footer.footerOffset = s.index.length + s.metaIndex.length + s.filter.length
  storable : image.footer.Storable

theorem sub64_add (a b : ℕ) : sub64 (a + b) b = a := by
  rw [sub64, if_pos (Nat.le_add_left b a), Nat.add_sub_cancel]

theorem ceilPageAlign_allocatedSize {qf : QuotientFilter} (h : qf.allocatedSize < 2 ^ 31) :
    ceilPageAlign qf.allocatedSize = qf.allocatedSize := by
  have hdvd : pageSizeInBytes ∣ qf.allocatedSize := by
    rw [QuotientFilter.allocatedSize, ceilPageAlign]
    exact Nat.dvd_mul_left ..
  generalize qf.allocatedSize = size at h hdvd
  obtain ⟨n, rfl⟩ := hdvd
  rw [ceilPageAlign]
  rw [pageSizeInBytes] at h ⊢
  omega

section Load

variable {image : SstImage} {s : SstSections} (h : LaidOut image s) (path : String)

include h

theorem LaidOut.loadFooter : loadFooter path s.file = .ok image.footer := by
  obtain ⟨pad, rest, hfooter⟩ := h.footer
  have hoffset : sub64 s.file.length pageSizeInBytes =
      (s.index ++ s.metaIndex ++ s.filter).length := by
    have hlen : s.file.length =
        (s.index ++ s.metaIndex ++ s.filter).length + pageSizeInBytes := by
      rw [SstSections.file, length_append, h.length_footer]
    rw [hlen, sub64_add]
  have hread : preadAll s.file pageSizeInBytes (sub64 s.file.length pageSizeInBytes) =
      some s.footer :=
    preadAll_eq (c := []) (append_nil _).symm hoffset h.length_footer.symm
      (h.length_footer.trans_lt (by decide))
  have hback : SstFooter.ofBytes s.footer = image.footer := by
    rw [hfooter, h.storable.ofBytes]
  rw [HedgeDB.loadFooter, hread]
  show (if (SstFooter.ofBytes s.footer).header.take 12 ≠ footerMagic then _ else _) = _
  rw [hback, if_neg (not_not.mpr h.magic)]

theorem LaidOut.metaEnd :
    (if image.footer.qfSize > 0 then image.footer.qfOffset else image.footer.footerOffset) =
      s.index.length + s.metaIndex.length := by
  have hend := h.footerOffset
  have hfilter := h.filter
  generalize image.qf = qf at hfilter
  generalize s.filter = bytes at hfilter hend
  cases hfilter with
  | absent hsize =>
    rw [if_neg (by omega), hend, length_nil, Nat.add_zero]
  | present hqf htable hpage hoffset hsize =>
    rw [pageSizeInBytes] at hsize
    rw [if_pos (by omega), hoffset]

theorem LaidOut.loadMetaIndex :
    loadMetaIndex path s.file image.footer = some (.ok image.metaIndex) := by
  obtain ⟨rest, hmeta⟩ := h.metaIndex
  have hlt := h.metaIndex_lt
  have hsize : sub64 (s.index.length + s.metaIndex.length) image.footer.metaIndexOffset =
      s.metaIndex.length := by
    rw [h.metaIndexOffset, Nat.add_comm, sub64_add]
  rw [HedgeDB.loadMetaIndex, h.metaEnd, hsize]
  by_cases hpos : s.metaIndex.length > 0
  · have hread : preadAll s.file s.metaIndex.length image.footer.metaIndexOffset =
        some s.metaIndex := by
      refine preadAll_eq (c := s.filter ++ s.footer) ?_ h.metaIndexOffset rfl hlt
      rw [SstSections.file, append_assoc _ s.filter]
    rw [if_pos hpos, hread, readOr, andThen, hmeta, h.entries, readKeys_encodeMetaIndex h.keys,
      map_some]
  · -- no page, and so no key
    have hnil : image.metaIndex = [] := by
      cases hkeys : image.metaIndex with
      | nil => rfl
      | cons key keys =>
        rw [hmeta, hkeys, encodeMetaIndex, flatMap_cons] at hpos
        simp at hpos
    rw [if_neg hpos, h.entries, hnil]
    rfl

theorem LaidOut.loadFilter : loadFilter path s.file image.footer = .ok image.qf := by
  have hfilter := h.filter
  have hfile : s.file = s.index ++ s.metaIndex ++ s.filter ++ s.footer := rfl
  generalize s.file = file at hfile
  generalize s.filter = bytes at hfilter hfile
  generalize image.qf = qf at hfilter
  cases hfilter with
  | absent hsize => rw [HedgeDB.loadFilter, if_neg (by omega)]
  | @present qf pad address rest hqf htable hpage hoffset hsize =>
    have hpos : image.footer.qfSize > 0 := by
      rw [hsize, pageSizeInBytes]
      omega
    have hdata : sub64 image.footer.qfSize pageSizeInBytes = qf.allocatedSize := by
      rw [hsize, Nat.add_comm, sub64_add]
    have hheader : preadAll file pageSizeInBytes image.footer.qfOffset =
        some (qf.headerBytes pad address ++ rest) := by
      refine preadAll_eq (a := s.index ++ s.metaIndex) (c := qf.dataBytes ++ s.footer) ?_ ?_
        hpage.symm (hpage.trans_lt (by decide))
      · rw [hfile]
        simp only [append_assoc]
      · rw [hoffset, length_append]
    have htail : preadAll file qf.allocatedSize (image.footer.qfOffset + pageSizeInBytes) =
        some qf.dataBytes := by
      refine preadAll_eq (c := s.footer)
        (a := s.index ++ s.metaIndex ++ (qf.headerBytes pad address ++ rest)) ?_ ?_
        hqf.length_dataBytes.symm (hqf.length_dataBytes.trans_lt htable)
      · rw [hfile]
        simp only [append_assoc]
      · rw [hoffset, length_append, hpage, length_append]
    have hload := hqf.load_header_data pad address rest []
    rw [append_nil] at hload
    rw [HedgeDB.loadFilter, if_pos hpos, hdata, loadFilterAt, hheader,
      ceilPageAlign_allocatedSize htable, htail, readOr, readOr, ok_bind, ok_bind, hload]

/-- **The reader's half.** -/
theorem LaidOut.load : SstImage.load path s.file =
    some (.ok { image with superIndex := loadSuperIndex image.metaIndex }) := by
  rw [SstImage.load, h.loadFooter path, andThen, h.loadMetaIndex path, bind_eq_bind,
    bind_some, andThen, h.loadFilter path, andThen]

end Load

/-! ### Writing -/

/-- The file up to `bytes_written`. -/
structure OutputFile.Holds (file : OutputFile) (written : Bytes) : Prop where
  contents : file.contents.take file.bytesWritten = written
  length : written.length = file.bytesWritten

variable {qf : Option QuotientFilter}

section Write

variable {env : OutputEnv} {file : OutputFile} {written bytes : Bytes}

theorem OutputFile.Holds.write (henv : env.Complete) (h : file.Holds written)
    (hbytes : bytes.length < 2 ^ 31) (what : String) :
    ∃ file', file.write env what bytes = .ok file' ∧ file'.Holds (written ++ bytes) := by
  have hres := henv.write file.bytesWritten bytes.length hbytes
  refine ⟨⟨ByteCodec.writeAt file.contents file.bytesWritten bytes, file.bytesWritten + bytes.length⟩, ?_,
    ?_, ?_⟩
  · rw [OutputFile.write, hres, if_neg (by omega), Int.toNat_natCast, take_length]
  · show (ByteCodec.writeAt file.contents file.bytesWritten bytes).take _ = written ++ bytes
    rw [ByteCodec.writeAt, h.contents]
    exact take_left' (by rw [length_append, h.length])
  · rw [length_append, h.length]

theorem length_inPages {rest : ℕ → UInt8} (h : bytes.length ≤ ceilPageAlign bytes.length) :
    (inPages rest bytes).length = ceilPageAlign bytes.length := by
  rw [inPages, length_append, length_map, length_range]
  omega

theorem writeQf_spec (henv : env.Complete) (h : file.Holds written) {qf : QuotientFilter}
    (hqf : qf.Storable) (htable : qf.allocatedSize < 2 ^ 31) :
    ∃ file' rest, writeQf env qf file = .ok file' ∧
      (qf.headerBytes env.headerPad env.tableAddress ++ rest).length = pageSizeInBytes ∧
      file'.Holds
        (written ++ (qf.headerBytes env.headerPad env.tableAddress ++ rest ++ qf.dataBytes)) := by
  have hheader : (inPages (fun _ => 0)
      (qf.headerBytes env.headerPad env.tableAddress)).length = pageSizeInBytes := by
    rw [length_inPages (by rw [QuotientFilter.length_headerBytes]; decide),
      QuotientFilter.length_headerBytes]
    decide
  -- the table has whole pages
  have hdata : inPages (fun _ => 0) qf.dataBytes = qf.dataBytes := by
    rw [inPages, hqf.length_dataBytes, ceilPageAlign_allocatedSize htable, Nat.sub_self]
    exact append_nil _
  obtain ⟨file₁, hwrite₁, h₁⟩ := h.write henv (hheader.trans_lt (by decide))
    "Failed to write QF header"
  obtain ⟨file₂, hwrite₂, h₂⟩ := h₁.write henv (hqf.length_dataBytes.trans_lt htable)
    "Failed to write QF data"
  refine ⟨file₂, _, ?_, hheader, ?_⟩
  · rw [writeQf, hwrite₁, ok_bind, hdata, hwrite₂]
  · rwa [append_assoc] at h₂

/-- What a complete write can report of the filter. -/
def TableReportable (qf : Option QuotientFilter) : Prop := ∀ f ∈ qf, f.allocatedSize < 2 ^ 31

theorem writeFilter_spec (henv : env.Complete) (h : file.Holds written)
    (hqf : ∀ f ∈ qf, f.Storable) (htable : TableReportable qf) :
    ∃ file' filter, writeFilter env qf file = .ok file' ∧ file'.Holds (written ++ filter) ∧
      ∀ footer : SstFooter, footer.qfOffset = (qf.map fun _ => file.bytesWritten).getD 0 →
        footer.qfSize = (qf.map fun _ => file'.bytesWritten - file.bytesWritten).getD 0 →
        FilterLaidOut footer written.length qf filter := by
  cases qf with
  | none =>
    refine ⟨file, [], rfl, by rwa [append_nil], fun footer _ hsize => .absent hsize⟩
  | some qf =>
    have hstorable := hqf qf rfl
    obtain ⟨file', rest, hwrite, hpage, h'⟩ := writeQf_spec henv h hstorable (htable qf rfl)
    refine ⟨file', _, hwrite, h', fun footer hoffset hsize => ?_⟩
    refine .present hstorable (htable qf rfl) hpage (hoffset.trans h.length.symm) ?_
    have hlen := h'.length
    rw [length_append, length_append, hpage, hstorable.length_dataBytes, h.length] at hlen
    rw [hsize, ← hlen]
    exact Nat.add_sub_cancel_left ..

/-- **The sections behind the index**, and the footer that tells where they are. -/
theorem writeTail_spec (henv : env.Complete) {index : Bytes} (h : file.Holds index)
    (texts : TailTexts) (sync : Bool) {encoded : Bytes}
    (hmeta : (inPages env.memory encoded).length < 2 ^ 31) (hqf : ∀ f ∈ qf, f.Storable)
    (htable : TableReportable qf) {fb : SstFooterBuilder}
    {upperBound indexedKv entries epoch maxSeqNr : ℕ} (hfb : fb =
      { upperBound := some upperBound
        indexedKv := some indexedKv
        metaIndexEntries := some entries
        epoch := some epoch
        maxSeqNr := some maxSeqNr }) :
    ∃ (footer : SstFooter) (s : SstSections),
      writeTail texts env sync encoded qf fb file = .ok (footer, s.file) ∧
      s.index = index ∧ s.metaIndex = inPages env.memory encoded ∧
      FilterLaidOut footer (s.index.length + s.metaIndex.length) qf s.filter ∧
      s.footer = inPages env.memory (footer.bytes env.footerPad) ∧
      footer.header.take 12 = footerMagic ∧ footer.metaIndexEntries = entries ∧
      footer.metaIndexOffset = s.index.length ∧
      footer.footerOffset = s.index.length + s.metaIndex.length + s.filter.length := by
  subst hfb
  obtain ⟨file₁, hwrite₁, h₁⟩ := h.write henv hmeta texts.metaIndex
  obtain ⟨file₂, filter, hwrite₂, h₂, hlaid⟩ := writeFilter_spec henv h₁ hqf htable
  obtain ⟨footer, hfooter⟩ : ∃ footer : SstFooter, footer =
      { header := footerMagic ++ replicate 4 0
        version := 1
        upperBound := upperBound
        indexedKeys := indexedKv
        metaIndexEntries := entries
        indexOffset := 0
        metaIndexOffset := file.bytesWritten
        qfOffset := (qf.map fun _ => file₁.bytesWritten).getD 0
        qfSize := (qf.map fun _ => file₂.bytesWritten - file₁.bytesWritten).getD 0
        footerOffset := file₂.bytesWritten
        epoch := epoch
        maxSeqNr := maxSeqNr } := ⟨_, rfl⟩
  have hpage : (inPages env.memory (footer.bytes env.footerPad)).length = pageSizeInBytes := by
    rw [length_inPages (by rw [SstFooter.length_bytes]; decide), SstFooter.length_bytes]
    decide
  obtain ⟨file₃, hwrite₃, h₃⟩ := h₂.write henv (hpage.trans_lt (by decide)) texts.footer
  refine ⟨footer, ⟨index, inPages env.memory encoded, filter,
    inPages env.memory (footer.bytes env.footerPad)⟩, ?_, rfl, rfl, ?_, rfl, ?_, ?_, ?_, ?_⟩
  · have hsync : (sync && decide (env.fdatasync < 0)) = false := by
      rw [decide_eq_false (not_lt.mpr henv.fdatasync), Bool.and_false]
    rw [writeTail, hwrite₁, ok_bind, hwrite₂, ok_bind]
    show (do
      let file ← file₂.write env texts.footer (inPages env.memory (SstFooter.bytes env.footerPad _))
      _) = _
    rw [← hfooter, hwrite₃, ok_bind, if_neg (not_lt.mpr (henv.ftruncate _)), hsync,
      if_neg Bool.false_ne_true, h₃.contents]
    rfl
  · rw [← length_append]
    exact hlaid footer (by rw [hfooter]) (by rw [hfooter])
  · rw [hfooter]
    exact take_left' (by decide)
  · rw [hfooter]
  · rw [hfooter]
    exact h.length.symm
  · have hoffset : footer.footerOffset = file₂.bytesWritten := by rw [hfooter]
    rw [hoffset, ← h₂.length, length_append, length_append]

end Write

/-! ### The two writers -/

section Writers

variable {cfg : SstWrite} {caller : IndexCaller} {texts : TailTexts} {numKeys : ℕ}
  {kvs : List (Bytes × Bytes)} {fb : SstFooterBuilder}
  {superIndex : List Bytes → Option (List Bytes)} {image : SstImage} {file : Bytes}

theorem fillFilter_storable {fuel : ℕ} {hashes : List (BitVec 64)} {qf₀ : Option QuotientFilter}
    (hmake : makeFilter caller fuel numKeys = some (.ok qf₀))
    (hfill : fillFilter fuel qf₀ hashes = some qf) : ∀ f ∈ qf, f.Storable := by
  cases qf₀ with
  | none =>
    obtain rfl : none = qf := some.inj hfill
    exact fun f hf => absurd hf (not_mem_none f)
  | some f₀ =>
    have hstorable : f₀.Storable := by
      rw [makeFilter] at hmake
      obtain ⟨r, hr, hmake⟩ := bind_eq_some_iff.mp hmake
      rw [createQfForKeyCount] at hr
      obtain ⟨q, -, hq⟩ := bind_eq_some_iff.mp hr
      obtain rfl := some.inj hq
      cases hinit : QuotientFilter.init q qfBitsPerKey with
      | none =>
        rw [QuotientFilter.make, hinit] at hmake
        cases caller <;> cases hmake
      | some f =>
        rw [QuotientFilter.make, hinit] at hmake
        cases hmake
        exact QuotientFilter.init_storable hinit
    rw [fillFilter] at hfill
    obtain ⟨⟨oks, f⟩, hall, rfl⟩ := map_eq_some_iff.mp hfill
    intro f' hf'
    obtain rfl : f = f' := some.inj hf'
    exact hstorable.insertAll hall

theorem run_cases (hrun : cfg.run caller texts numKeys kvs fb superIndex = some (.ok (image, file))) :
    ∃ qf₀ w, makeFilter caller cfg.fuel numKeys = some (.ok qf₀) ∧
      fillFilter cfg.fuel qf₀ (kvs.map fun kv => cfg.hash kv.1) = some image.qf ∧
      (IndexWriter.make cfg.buf).writeAll caller cfg.checksum kvs = .ok w ∧
      writeTail texts cfg.env cfg.fdatasyncOutput w.encodedMetaIndex image.qf
          { fb with
            indexedKv := some w.buffer.indexedKvs
            metaIndexEntries := some w.buffer.metaIndex.length }
          ⟨ByteCodec.writeAt cfg.preallocated 0 w.region, w.bytesWritten⟩ = .ok (image.footer, file) ∧
      image.metaIndex = w.buffer.metaIndex ∧ image.superIndex = superIndex w.buffer.metaIndex := by
  rw [SstWrite.run] at hrun
  obtain ⟨r, hmake, hrun⟩ := bind_eq_some_iff.mp hrun
  cases r with
  | error err => cases hrun
  | ok qf₀ =>
    obtain ⟨qf, hfill, hrun⟩ := bind_eq_some_iff.mp hrun
    cases hall : (IndexWriter.make cfg.buf).writeAll caller cfg.checksum kvs with
    | error err =>
      rw [hall] at hrun
      cases hrun
    | ok w =>
      rw [hall] at hrun
      dsimp only at hrun
      split at hrun
      · cases hrun
      · next footer contents htail =>
        cases hrun
        exact ⟨qf₀, w, hmake, hfill, rfl, htail, rfl, rfl⟩

/-- What complete writes can report of an SST. -/
structure Reportable (env : OutputEnv) (image : SstImage) : Prop where
  metaIndex : (inPages env.memory (encodeMetaIndex image.metaIndex)).length < 2 ^ 31
  table : TableReportable image.qf

theorem lastKey_mem {block : List (Bytes × Bytes)} (hne : block ≠ []) :
    ∃ kv ∈ block, kv.1 = lastKey block := by
  obtain ⟨init, last, rfl⟩ := (eq_nil_or_concat' block).resolve_left hne
  exact ⟨last, by simp, (lastKey_concat init last.1 last.2).symm⟩

theorem metaIndex_spec {w : IndexWriter}
    (hall : (IndexWriter.make cfg.buf).writeAll caller cfg.checksum kvs = .ok w) :
    w.region.length = w.bytesWritten ∧ w.encodedMetaIndex = encodeMetaIndex w.buffer.metaIndex ∧
      (∀ key ∈ w.buffer.metaIndex, 1 ≤ key.length ∧ key.length ≤ maxKeyLen) ∧
      ((kvs.Pairwise fun a b => a.1 < b.1) → w.buffer.metaIndex.Pairwise (· < ·)) := by
  have hkeys := writeAll_writable (s := .make cfg.buf) (bufferReady_make cfg.buf)
    ⟨fun _ => rfl, rfl, rfl, (Nat.zero_mul _).symm, rfl⟩ hall
  obtain ⟨w', hall', hkept, hpages, hmeta, -⟩ := writeAll_make hkeys cfg.checksum caller cfg.buf
    id fun _ => rfl
  obtain rfl : w' = w := Except.ok.inj (hall'.symm.trans hall)
  have hne := pageOf_ne hpages
  refine ⟨hkept.length, ?_, fun key hkey => ?_, fun hsorted => ?_⟩
  · rw [hkept.encoded, foldl_appendMetaIndexKey, nil_append, encodeMetaIndex]
  · rw [hmeta] at hkey
    obtain ⟨block, hblock, rfl⟩ := mem_map.mp hkey
    obtain ⟨kv, hkv, hlast⟩ := lastKey_mem (hne block hblock)
    rw [← hlast]
    exact splitBlocks_keys hkeys block hblock kv hkv
  · rw [hmeta]
    refine map_lastKey_sorted hne ?_
    rwa [splitBlocks_flatten, nil_append]

/-- **The writers' half.** -/
theorem run_laidOut
    (hrun : cfg.run caller texts numKeys kvs fb superIndex = some (.ok (image, file)))
    {upperBound epoch maxSeqNr : ℕ}
    (hfb : fb =
      { upperBound := some upperBound
        epoch := some epoch
        maxSeqNr := some maxSeqNr })
    (henv : cfg.env.Complete) (hreport : Reportable cfg.env image)
    (hstorable : image.footer.Storable) : ∃ s : SstSections, file = s.file ∧ LaidOut image s := by
  obtain ⟨qf₀, w, hmake, hfill, hall, htail, hmeta, -⟩ := run_cases hrun
  obtain ⟨hlen, hencoded, hkeys, -⟩ := metaIndex_spec hall
  rw [← hmeta] at hencoded hkeys
  have hfile : OutputFile.Holds ⟨ByteCodec.writeAt cfg.preallocated 0 w.region, w.bytesWritten⟩ w.region := by
    refine ⟨?_, hlen⟩
    rw [ByteCodec.writeAt, take_zero, nil_append]
    exact take_left' hlen
  rw [hfb] at htail
  obtain ⟨footer, s, hwrite, -, hsmeta, hfilter, hsfooter, hmagic, hentries, hmoffset, hfoffset⟩ :=
    writeTail_spec henv hfile texts cfg.fdatasyncOutput (hencoded ▸ hreport.metaIndex)
      (fillFilter_storable hmake hfill) hreport.table rfl
  obtain ⟨rfl, rfl⟩ : footer = image.footer ∧ s.file = file :=
    Prod.mk.inj (Except.ok.inj (hwrite.symm.trans htail))
  refine ⟨s, rfl, hkeys, ?_, ?_, hfilter, ?_, ?_, hmagic, ?_, hmoffset, hfoffset, hstorable⟩
  · rw [hsmeta, hencoded, inPages]
    exact ⟨_, rfl⟩
  · rw [hsmeta, hencoded]
    exact hreport.metaIndex
  · rw [hsfooter, inPages]
    exact ⟨_, _, rfl⟩
  · rw [hsfooter, length_inPages (by rw [SstFooter.length_bytes]; decide), SstFooter.length_bytes]
    decide
  · rw [hentries, hmeta]

end Writers

/-- The SSTs that the two writers return, with the number of keys the filter is made for and
the entries they write: from a range of a memtable, and from inputs as a level has them. -/
inductive SstWrite.Writes (cfg : SstWrite) : ℕ → List (Bytes × Bytes) → SstImage → Bytes → Prop
  | flush {flushIteration : ℕ} {range : ℕ × List (MemtableEntry Bytes)} {image : SstImage}
      {file : Bytes} (hsorted : range.2.Pairwise fun a b => a.key ≤ b.key)
      (h : cfg.exportAsSst flushIteration range = some (.ok (image, file))) :
      Writes cfg range.2.length ((writeIndex none 0 range.2).1.map MemtableEntry.kv) image file
  | merge {io : MergeIo Bytes} {config : MergeConfig} {fileId : ℕ} {indices : List (Sst Bytes)}
      {out : MergeOutput Bytes} {image : SstImage} {file : Bytes} (hindices : MergeInputs indices)
      (hio : io.Serves indices) (hout : kWayMergeAsync2 io config fileId indices = .ok out)
      (h : cfg.kWayMerge io config fileId indices = some (.ok (image, file))) :
      Writes cfg (totalKeys indices) (out.sst.entries.map Record.kv) image file

section Written

variable {cfg : SstWrite} {numKeys : ℕ} {kvs : List (Bytes × Bytes)} {image : SstImage}
  {file : Bytes}

/-- Both writers are `run`, with sorted entries that are not more than the filter is for. -/
theorem SstWrite.Writes.cases_run (h : cfg.Writes numKeys kvs image file) :
    (kvs.Pairwise fun a b => a.1 < b.1) ∧ kvs.length ≤ numKeys ∧
      ∃ caller texts upperBound epoch maxSeqNr superIndex,
        cfg.run caller texts numKeys kvs
            { upperBound := some upperBound
              epoch := some epoch
              maxSeqNr := some maxSeqNr }
            superIndex = some (.ok (image, file)) ∧
          ∀ keys, superIndex keys = none ∨ superIndex keys = loadSuperIndex keys := by
  cases h with
  | @flush flushIteration range image file hsorted h =>
    refine ⟨?_, ?_, .writeIndex, exportTexts, range.1, flushIteration,
      (writeIndex none 0 range.2).2, fun _ => none, h, fun _ => .inl rfl⟩
    · rw [writeIndex_fst]
      exact pairwise_map.mpr (KeyedList.firsts_strict none hsorted)
    · rw [writeIndex_fst, length_map]
      exact (KeyedList.firsts_sublist none _).length_le
  | @merge io config fileId indices out image file hindices hio hout h =>
    obtain ⟨hmerged, -⟩ := kWayMergeAsync2_written hindices hio hout
    rw [SstWrite.kWayMerge, hout] at h
    refine ⟨pairwise_map.mpr hmerged.sorted, ?_, _, _, _, _, _, _, h, fun _ => .inr rfl⟩
    rw [length_map, hmerged.count]
    omega

theorem SstWrite.Writes.load (h : cfg.Writes numKeys kvs image file) (henv : cfg.env.Complete)
    (hreport : Reportable cfg.env image) (hfooter : image.footer.Storable) (path : String) :
    SstImage.load path file =
      some (.ok { image with superIndex := loadSuperIndex image.metaIndex }) := by
  obtain ⟨-, -, caller, texts, upperBound, epoch, maxSeqNr, superIndex, hrun, -⟩ := h.cases_run
  obtain ⟨s, rfl, hlaid⟩ := run_laidOut hrun rfl henv hreport hfooter
  exact hlaid.load path

theorem SstWrite.Writes.findPageId (h : cfg.Writes numKeys kvs image file) (key : Bytes) :
    image.findPageId key = HedgeDB.findPageId image.metaIndex none key ∧
      HedgeDB.findPageId image.metaIndex (loadSuperIndex image.metaIndex) key =
        HedgeDB.findPageId image.metaIndex none key := by
  obtain ⟨hsorted, -, caller, texts, upperBound, epoch, maxSeqNr, superIndex, hrun, hsuper⟩ :=
    h.cases_run
  obtain ⟨qf₀, w, -, -, hall, -, hmeta, hindex⟩ := run_cases hrun
  obtain ⟨-, -, -, hmetaSorted⟩ := metaIndex_spec hall
  have hkeys : image.metaIndex.Pairwise (· < ·) := hmeta ▸ hmetaSorted hsorted
  refine ⟨findPageId_eq hkeys ?_, findPageId_eq hkeys (.inr (.inr rfl))⟩
  rw [hindex, hmeta]
  exact (hsuper _).imp_right .inr

/-- **An SST is loaded as it was written.**  Whatever a flush or a merge writes, with any
number of pages and with or without a filter: if the writes are complete, `sst::load` succeeds,
the footer, the keys of the meta index and the filter are those that the writer keeps, and keys,
ranges and hashes are looked up alike. -/
theorem sst_load_written (path : String) (h : cfg.Writes numKeys kvs image file)
    (henv : cfg.env.Complete) (hreport : Reportable cfg.env image)
    (hfooter : image.footer.Storable) :
    ∃ loaded, SstImage.load path file = some (.ok loaded) ∧ loaded.footer = image.footer ∧
      loaded.metaIndex = image.metaIndex ∧ loaded.qf = image.qf ∧
      (∀ key, loaded.findPageId key = image.findPageId key) ∧
      (∀ lower upper, loaded.findRange lower upper = image.findRange lower upper) ∧
      ∀ fuel keyHash, loaded.probeFilter fuel keyHash = image.probeFilter fuel keyHash := by
  have hpage : ∀ key, ({ image with superIndex := loadSuperIndex image.metaIndex } :
      SstImage).findPageId key = image.findPageId key := by
    intro key
    obtain ⟨hmemory, hloaded⟩ := h.findPageId key
    exact hloaded.trans hmemory.symm
  refine ⟨_, h.load henv hreport hfooter path, rfl, rfl, rfl, hpage, fun lower upper => ?_,
    fun _ _ => rfl⟩
  exact congrArg (findRange _ · lower upper) (funext hpage)

/-- Every request is answered, and the memory that nobody sets has some bytes. -/
def completeEnv : OutputEnv :=
  { write := fun _ size => size
    ftruncate := fun _ => 0
    fdatasync := 0
    strerror := fun _ => ""
    memory := fun _ => 0xAA
    headerPad := 0
    tableAddress := 0
    footerPad := 0 }

theorem completeEnv_complete : completeEnv.Complete :=
  ⟨fun _ _ _ => rfl, fun _ => le_rfl, le_rfl⟩

def threePageWrite : SstWrite :=
  { env := completeEnv
    fuel := 2 ^ 32
    hash := fun _ => 0#64
    checksum := fun _ => 0
    buf := zeroBuffer
    preallocated := []
    fdatasyncOutput := true }

/-- Three entries, of which no two fit on a page. -/
def threePageRange : ℕ × List (MemtableEntry Bytes) :=
  (5, [⟨[7, 7], 1, 1 :: replicate 2500 5⟩, ⟨[7, 8], 3, 1 :: replicate 2500 6⟩,
    ⟨[7, 9], 2, 1 :: replicate 2500 7⟩])

/-- Three pages, the meta index, two pages of the filter and the footer. -/
def threePageFooter : SstFooter :=
  { header := footerMagic ++ replicate 4 0
    version := 1
    upperBound := 5
    indexedKeys := 3
    metaIndexEntries := 3
    indexOffset := 0
    metaIndexOffset := 12288
    qfOffset := 16384
    qfSize := 8192
    footerOffset := 24576
    epoch := 3
    maxSeqNr := 3 }

theorem threePageFooter_storable : threePageFooter.Storable := by
  constructor <;> decide

theorem threePage_written : ∃ image file, threePageWrite.exportAsSst 3 threePageRange =
    some (.ok (image, file)) ∧ Reportable completeEnv image ∧ image.footer.Storable := by
  have hrun : ∃ r ∈ threePageWrite.exportAsSst 3 threePageRange, ∃ p ∈ r.toOption,
      p.1.footer = threePageFooter ∧ p.1.metaIndex = [[7, 7], [7, 8], [7, 9]] ∧
        p.1.qf.map QuotientFilter.allocatedSize = some 4096 := by decide +kernel
  obtain ⟨r, hr, ⟨image, file⟩, hp, hfooter, hmeta, hqf⟩ := hrun
  cases r with
  | error err => cases hp
  | ok p =>
    obtain rfl : p = (image, file) := some.inj hp
    refine ⟨image, file, hr, ⟨?_, fun f hf => ?_⟩, hfooter ▸ threePageFooter_storable⟩
    · rw [show image.metaIndex = [[7, 7], [7, 8], [7, 9]] from hmeta]
      decide +kernel
    · rw [show image.qf = some f from hf] at hqf
      rw [some.inj hqf]
      decide

theorem sst_load_written_three_pages : ∃ image file loaded,
    threePageWrite.exportAsSst 3 threePageRange = some (.ok (image, file)) ∧
      SstImage.load "0.sst" file = some (.ok loaded) ∧ loaded.metaIndex = image.metaIndex ∧
      loaded.qf = image.qf := by
  obtain ⟨image, file, hrun, hreport, hfooter⟩ := threePage_written
  obtain ⟨loaded, hload, -, hmeta, hqf, -⟩ := sst_load_written "0.sst"
    (.flush (by decide) hrun) completeEnv_complete hreport hfooter
  exact ⟨image, file, loaded, hrun, hload, hmeta, hqf⟩

/-! ### The filter does not hide a key -/

theorem SstWrite.Writes.probeFilter (h : cfg.Writes numKeys kvs image file)
    (hfuel : 2 ^ 32 ≤ cfg.fuel) (hn : numKeys < 2 ^ 31) :
    ∀ kv ∈ kvs, image.probeFilter cfg.fuel (cfg.hash kv.1) = some true := by
  intro kv hkv
  obtain ⟨-, hle, caller, texts, upperBound, epoch, maxSeqNr, superIndex, hrun, -⟩ := h.cases_run
  obtain ⟨qf₀, w, hmake, hfill, -⟩ := run_cases hrun
  have hpos : 1 ≤ numKeys := (length_pos_of_mem hkv).trans_le hle
  obtain ⟨f₀, f, hcreate, hall, -, hmem⟩ := createQfForKeyCount_insertAll hpos hn hfuel
    (kvs.map fun kv => cfg.hash kv.1) (by rwa [length_map])
  obtain rfl : some f₀ = qf₀ := by
    rw [makeFilter, hcreate] at hmake
    exact Except.ok.inj (some.inj hmake)
  rw [fillFilter, hall] at hfill
  have hqf : image.qf = some f := (some.inj hfill).symm
  rw [SstImage.probeFilter, hqf]
  exact hmem _ (mem_map_of_mem hkv)

/-- **The filter hides no key.**  A filter made for `n` keys takes any `n` hashes, and then has
each of them, also when it is read back from its struct and its table.  So the filter of an SST
that a flush or a merge has written has all keys of the SST, in memory and when it is loaded. -/
theorem filter_hides_no_key (fuel : ℕ) (hfuel : 2 ^ 32 ≤ fuel) :
    (∀ (n : ℕ) (hashes : List (BitVec 64)), 1 ≤ n → n < 2 ^ 31 → hashes.length ≤ n →
      ∃ qf₀ qf, createQfForKeyCount fuel n = some (.ok qf₀) ∧
        qf₀.insertAll fuel hashes = some (replicate hashes.length true, qf) ∧
        (∀ hash ∈ hashes, qf.mayContain fuel hash = some true) ∧
        ∀ pad address rest rest', ∃ loaded,
          QuotientFilter.load (qf.headerBytes pad address ++ rest) (qf.dataBytes ++ rest')
            qf.allocatedSize = .ok loaded ∧
          ∀ hash ∈ hashes, loaded.mayContain fuel hash = some true) ∧
    ∀ (cfg : SstWrite) (numKeys : ℕ) (kvs : List (Bytes × Bytes)) (image : SstImage) (file : Bytes),
      cfg.fuel = fuel → numKeys < 2 ^ 31 → cfg.Writes numKeys kvs image file →
      (∀ kv ∈ kvs, image.probeFilter fuel (cfg.hash kv.1) = some true) ∧
      (cfg.env.Complete → Reportable cfg.env image → image.footer.Storable → ∀ path, ∃ loaded,
        SstImage.load path file = some (.ok loaded) ∧
          ∀ kv ∈ kvs, loaded.probeFilter fuel (cfg.hash kv.1) = some true) := by
  constructor
  · intro n hashes hn hn' hlen
    obtain ⟨qf₀, qf, hcreate, hall, hstorable, hmem⟩ :=
      createQfForKeyCount_insertAll hn hn' hfuel hashes hlen
    exact ⟨qf₀, qf, hcreate, hall, hmem, fun pad address rest rest' =>
      ⟨qf, hstorable.load_header_data pad address rest rest', hmem⟩⟩
  · rintro cfg numKeys kvs image file rfl hn h
    have hprobe := h.probeFilter hfuel hn
    exact ⟨hprobe, fun henv hreport hfooter path =>
      ⟨_, h.load henv hreport hfooter path, hprobe⟩⟩

theorem filter_hides_no_key_two :
    (∃ qf₀ qf, createQfForKeyCount (2 ^ 32) 2 = some (.ok qf₀) ∧
      qf₀.insertAll (2 ^ 32) [5#64, 5#64] = some ([true, true], qf) ∧
      qf.mayContain (2 ^ 32) 5#64 = some true) ∧
    ∃ image file loaded, threePageWrite.exportAsSst 3 threePageRange = some (.ok (image, file)) ∧
      image.probeFilter (2 ^ 32) 0#64 = some true ∧
      SstImage.load "0.sst" file = some (.ok loaded) ∧
      loaded.probeFilter (2 ^ 32) 0#64 = some true := by
  obtain ⟨hfilter, hwritten⟩ := filter_hides_no_key (2 ^ 32) le_rfl
  refine ⟨?_, ?_⟩
  · obtain ⟨qf₀, qf, hcreate, hall, hmem, -⟩ :=
      hfilter 2 [5#64, 5#64] (by decide) (by decide) (by decide)
    exact ⟨qf₀, qf, hcreate, hall, hmem _ mem_cons_self⟩
  · obtain ⟨image, file, hrun, hreport, hfooter⟩ := threePage_written
    obtain ⟨hprobe, hload⟩ := hwritten threePageWrite _ _ image file rfl (by decide)
      (.flush (by decide) hrun)
    obtain ⟨loaded, hloaded, hprobe'⟩ := hload completeEnv_complete hreport hfooter "0.sst"
    have hmem : ([7, 7], 1 :: replicate 2500 5) ∈
        (writeIndex none 0 threePageRange.2).1.map MemtableEntry.kv := mem_cons_self
    exact ⟨image, file, loaded, hrun, hprobe _ hmem, hloaded, hprobe' _ hmem⟩

end Written

end HedgeDB
