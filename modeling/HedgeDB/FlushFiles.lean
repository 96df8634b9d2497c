/-
HedgeDB/FlushFiles.lean

A flush, down to the pages of the files it writes (`src/db/index_ops.cc`,
`src/utils.h`).

`flushMemtable` says which entries a flush writes into which SST.  Here the same
flush writes them through the block writer, with the partition formula of
`find_partition_prefix_for_key`.  `flushFiles_refines` connects the two: each file
holds the pages of the blocks that the entries of its SST are cut into.

`flush_keeps_view_iff` is about what is read back from these pages.  It is the
table's view, unless a block holds a delta entry whose length is cut
(`CutLength`), or a key is longer than the encoder takes.

Opening, writing, truncating and syncing a file is taken to succeed.
-/
import HedgeDB.BlockWriter
import HedgeDB.IndexOps
import HedgeDB.PartitionFiles

namespace HedgeDB

open List hiding lookup_cons lookup cons_le_cons lookup_eq_none_iff
open KeyedList ByteCodec

variable {checksum : Bytes → UInt32}

/-! ### The partition of a key -/

/-- `extract_prefix`: the first two bytes, the first one high. -/
def extractPrefix (key : Bytes) : ℕ := (key.getD 0 0).toNat * 2 ^ 8 + (key.getD 1 0).toNat

def findPartitionPrefixForKey (key : Bytes) (partitionSize : ℕ) : ℕ :=
  (extractPrefix key + partitionSize) / partitionSize * partitionSize - 1

def findMatchingPartitionForKey (numPartitionExponent : ℕ) (key : Bytes) : ℕ :=
  findPartitionPrefixForKey key (2 ^ 16 / 2 ^ numPartitionExponent)

theorem extractPrefix_lt (key : Bytes) : extractPrefix key < 2 ^ 16 := by
  have h₀ := (key.getD 0 0).toNat_lt
  have h₁ := (key.getD 1 0).toNat_lt
  rw [extractPrefix]
  omega

variable {b : Bytes} {a : Bytes}

theorem extractPrefix_mono (ha : 2 ≤ a.length) (hb : 2 ≤ b.length) (h : a ≤ b) :
    extractPrefix a ≤ extractPrefix b := by
  obtain ⟨a₀, a₁, a, rfl⟩ : ∃ a₀ a₁ l, a = a₀ :: a₁ :: l := by
    rcases a with - | ⟨a₀, - | ⟨a₁, l⟩⟩
    · simp at ha
    · simp at ha
    · exact ⟨a₀, a₁, l, rfl⟩
  obtain ⟨b₀, b₁, b, rfl⟩ : ∃ b₀ b₁ l, b = b₀ :: b₁ :: l := by
    rcases b with - | ⟨b₀, - | ⟨b₁, l⟩⟩
    · simp at hb
    · simp at hb
    · exact ⟨b₀, b₁, l, rfl⟩
  have h₁ := a₁.toNat_lt
  show a₀.toNat * 2 ^ 8 + a₁.toNat ≤ b₀.toNat * 2 ^ 8 + b₁.toNat
  rcases cons_le_cons h with h₀ | ⟨rfl, h₀⟩
  · rw [UInt8.lt_iff_toNat_lt] at h₀
    omega
  · rcases cons_le_cons h₀ with h₀ | ⟨rfl, -⟩
    · rw [UInt8.lt_iff_toNat_lt] at h₀
      omega
    · exact le_rfl

section Partition

variable {e : ℕ}

theorem findMatchingPartitionForKey_eq (he : e ≤ 16) (key : Bytes) :
    findMatchingPartitionForKey e key + 1 =
      (extractPrefix key / 2 ^ (16 - e) + 1) * 2 ^ (16 - e) := by
  have hpos : 0 < 2 ^ (16 - e) := Nat.two_pow_pos _
  rw [findMatchingPartitionForKey, findPartitionPrefixForKey, Nat.pow_div he (by decide),
    Nat.add_div_right _ hpos]
  exact Nat.sub_add_cancel (Nat.mul_pos (Nat.succ_pos _) hpos)

theorem findMatchingPartitionForKey_mem (he : e ≤ 16) (key : Bytes) :
    findMatchingPartitionForKey e key ∈ partitionIds e := by
  refine (mem_partitionIds he).mpr ⟨_, ?_, findMatchingPartitionForKey_eq he key⟩
  rw [Nat.div_lt_iff_lt_mul (Nat.two_pow_pos _), ← pow_add, Nat.add_sub_cancel' he]
  exact extractPrefix_lt key

theorem findMatchingPartitionForKey_le (he : e ≤ 16)
    (hdiv : extractPrefix a / 2 ^ (16 - e) ≤ extractPrefix b / 2 ^ (16 - e)) :
    findMatchingPartitionForKey e a ≤ findMatchingPartitionForKey e b := by
  have hmul := Nat.mul_le_mul_right (2 ^ (16 - e)) (Nat.succ_le_succ hdiv)
  have h₁ := findMatchingPartitionForKey_eq he a
  have h₂ := findMatchingPartitionForKey_eq he b
  simp only [Nat.succ_eq_add_one] at hmul
  omega

theorem findMatchingPartitionForKey_mono (he : e ≤ 16) (ha : 2 ≤ a.length) (hb : 2 ≤ b.length)
    (h : a ≤ b) : findMatchingPartitionForKey e a ≤ findMatchingPartitionForKey e b :=
  findMatchingPartitionForKey_le he (Nat.div_le_div_right (extractPrefix_mono ha hb h))

end Partition

/-- The ranges of a table whose partitions grow with the entries have growing ids. -/
theorem partitionRangesFrom_increasing {K : Type*} {part : K → ℕ} (cur : ℕ)
    (acc : List (MemtableEntry K)) {es : List (MemtableEntry K)} (hcur : ∀ e ∈ es, cur ≤ part e.key)
    (hes : es.Pairwise fun a b => part a.key ≤ part b.key) :
    (partitionRangesFrom part cur acc es).Pairwise (fun r r' => r.1 < r'.1) ∧
      ∀ r ∈ partitionRangesFrom part cur acc es, cur ≤ r.1 := by
  induction es generalizing cur acc with
  | nil => simp [partitionRangesFrom]
  | cons e es ih =>
    obtain ⟨he, hes'⟩ := pairwise_cons.mp hes
    have hle := hcur e mem_cons_self
    rw [partitionRangesFrom]
    split
    · next hcut =>
      obtain ⟨hpair, hall⟩ := ih (part e.key) [e] he hes'
      have hlt : ∀ r ∈ partitionRangesFrom part (part e.key) [e] es, cur < r.1 :=
        fun r hr => (lt_of_le_of_ne hle (Ne.symm hcut)).trans_le (hall r hr)
      refine ⟨pairwise_cons.mpr ⟨hlt, hpair⟩, fun r hr => ?_⟩
      rcases mem_cons.mp hr with rfl | hr'
      · exact le_rfl
      · exact (hlt r hr').le
    · exact ih cur (acc ++ [e]) (fun a ha => hcur a (mem_cons_of_mem e ha)) hes'

theorem partitionRanges_nodup {K : Type*} {part : K → ℕ} {es : List (MemtableEntry K)}
    (hes : es.Pairwise fun a b => part a.key ≤ part b.key) :
    ((partitionRanges part es).map Prod.fst).Nodup := by
  rcases es with - | ⟨e, es⟩
  · exact nodup_nil
  · have hcur : ∀ a ∈ e :: es, part e.key ≤ part a.key := by
      intro a ha
      rcases mem_cons.mp ha with rfl | ha'
      · exact le_rfl
      · exact (pairwise_cons.mp hes).1 a ha'
    have hpair := (partitionRangesFrom_increasing _ [] hcur hes).1
    exact pairwise_map.mpr (hpair.imp ne_of_lt)

/-! ### Writing one file -/

/-- The loop of `_write_index` over a write buffer, with the `max_seq_nr` so far. -/
def writeIndexFrom (checksum : Bytes → UInt32) :
    Option Bytes → ℕ → BlockWriteBuffer → List (MemtableEntry Bytes) →
      Expected (BlockWriteBuffer × ℕ)
  | _, maxSeqNr, s, [] => .ok (s, maxSeqNr)
  | prevKey, maxSeqNr, s, e :: es =>
      if prevKey = some e.key then writeIndexFrom checksum prevKey maxSeqNr s es
      else
        match s.writeOrFlush checksum e.key e.value with
        | .error err => .error err
        | .ok s' => writeIndexFrom checksum (some e.key) (max maxSeqNr e.seq) s' es

/-- What `_export_as_sst_async` leaves of an SST: the pages of the index, the meta
index and the fields of the footer. -/
structure SstFile where
  upperBound : ℕ
  epoch : ℕ
  maxSeqNr : ℕ
  indexedKeys : ℕ
  metaIndex : List Bytes
  pages : List Bytes
  blocks : List (List (Bytes × Bytes))

/-- `_export_as_sst_async` for one partition range. -/
def exportAsFile (checksum : Bytes → UInt32) (buf : PageBuffer) (flushIteration : ℕ)
    (range : ℕ × List (MemtableEntry Bytes)) : Expected SstFile :=
  match writeIndexFrom checksum none 0 (.make buf) range.2 with
  | .error err => .error err
  | .ok (s, maxSeqNr) =>
      let s := s.finish checksum
      .ok { upperBound := range.1, epoch := flushIteration, maxSeqNr
            indexedKeys := s.indexedKvs, metaIndex := s.metaIndex, pages := s.file
            blocks := s.fileBlocks }

/-- The key and the value of an entry, as they are pushed. -/
def MemtableEntry.kv (e : MemtableEntry Bytes) : Bytes × Bytes := (e.key, e.value)

/-- The key and the value of an SST entry. -/
def Record.kv (r : Record Bytes) : Bytes × Bytes := (r.key, r.value)

/-- Entries that a block can take. -/
def Writable (e : MemtableEntry Bytes) : Prop :=
  (1 ≤ e.key.length ∧ e.key.length ≤ maxKeyLen) ∧ FitsEmptyBlock e.key e.value

instance (e : MemtableEntry Bytes) : Decidable (Writable e) :=
  inferInstanceAs (Decidable (_ ∧ _))

variable {es : List (MemtableEntry Bytes)}

/-- Writing goes through `splitBlocks`, with the entries and the number that
`writeIndex` has. -/
theorem writeIndexFrom_spec (prev : Option Bytes) (m : ℕ) {s : BlockWriteBuffer}
    (h : BufferReady checksum s) (hes : ∀ e ∈ (writeIndex prev m es).1, Writable e) :
    ∃ s', writeIndexFrom checksum prev m s es = .ok (s', (writeIndex prev m es).2) ∧
      BufferReady checksum s' ∧ s'.indexedKvs = s.indexedKvs + (writeIndex prev m es).1.length ∧
      s'.blocks ++ splitBlocks s'.writer.pushed [] =
        s.blocks ++ splitBlocks s.writer.pushed ((writeIndex prev m es).1.map MemtableEntry.kv) := by
  induction es generalizing prev m s with
  | nil => exact ⟨s, rfl, h, rfl, rfl⟩
  | cons e es ih =>
    rw [writeIndex] at hes
    rw [writeIndexFrom, writeIndex]
    split
    · next hskip =>
      rw [if_pos hskip] at hes
      exact ih prev m h hes
    · next hkeep =>
      rw [if_neg hkeep] at hes
      obtain ⟨hkey, hfits⟩ := hes e mem_cons_self
      obtain ⟨s₁, hwrite, hready, hcount, hblocks⟩ := writeOrFlush_spec h hkey hfits
      obtain ⟨s₂, hloop, hready₂, hcount₂, hblocks₂⟩ := ih (some e.key)
        (max m e.seq) hready fun a ha => hes a (mem_cons_of_mem e ha)
      refine ⟨s₂, ?_, hready₂, ?_, hblocks₂.trans (hblocks _)⟩
      · rw [hwrite]
        exact hloop
      · rw [hcount₂, hcount, length_cons]
        omega

theorem writeIndexFrom_refused (prev : Option Bytes) (m : ℕ) {s : BlockWriteBuffer}
    (h : BufferReady checksum s) (hes : ∃ e ∈ (writeIndex prev m es).1, ¬ Writable e) :
    ∃ err, writeIndexFrom checksum prev m s es = .error err := by
  induction es generalizing prev m s with
  | nil => simp [writeIndex] at hes
  | cons e es ih =>
    rw [writeIndex] at hes
    rw [writeIndexFrom]
    split
    · next hskip =>
      rw [if_pos hskip] at hes
      exact ih prev m h hes
    · next hkeep =>
      rw [if_neg hkeep] at hes
      by_cases hgood : Writable e
      · obtain ⟨a, ha, hbad⟩ := hes
        obtain ⟨s', hwrite, hready, -⟩ := writeOrFlush_spec h hgood.1 hgood.2
        rcases mem_cons.mp ha with rfl | ha'
        · exact absurd hgood hbad
        · rw [hwrite]
          exact ih _ _ hready ⟨a, ha', hbad⟩
      · rw [writeOrFlush_refused h hgood]
        exact ⟨_, rfl⟩

/-- A file holds an SST: its pages are those of the blocks that the entries are cut
into. -/
structure SstFile.Holds (checksum : Bytes → UInt32) (f : SstFile) (X : Sst Bytes) : Prop where
  upperBound : f.upperBound = X.upperBound
  epoch : f.epoch = X.epoch
  maxSeqNr : f.maxSeqNr = X.maxSeqNr
  indexedKeys : f.indexedKeys = X.entries.length
  blocks : f.blocks = splitBlocks [] (X.entries.map Record.kv)
  metaIndex : f.metaIndex = f.blocks.map lastKey
  pages : Forall₂ (PageOf checksum) f.pages f.blocks

theorem exportAsFile_holds (checksum : Bytes → UInt32) (buf : PageBuffer) (epoch : ℕ)
    {range : ℕ × List (MemtableEntry Bytes)} (hes : ∀ e ∈ (writeIndex none 0 range.2).1, Writable e) :
    ∃ f, exportAsFile checksum buf epoch range = .ok f ∧
      ∀ fileId, f.Holds checksum (exportAsSst fileId epoch range) := by
  obtain ⟨s, hloop, hready, hcount, hblocks⟩ :=
    writeIndexFrom_spec none 0 (bufferReady_make buf) hes
  obtain ⟨hpages, hfile, hmeta, hkvs⟩ := finish_spec hready
  rw [exportAsFile, hloop]
  refine ⟨_, rfl, fun fileId => ⟨rfl, rfl, rfl, ?_, ?_, hmeta, hpages⟩⟩
  · simp only [hkvs, hcount, exportAsSst, length_map]
    exact Nat.zero_add _
  · simp only [hfile, hblocks, exportAsSst, map_map]
    rfl

/-! ### Flushing a table -/

/-- The error of a task that failed. -/
def errorOf {α : Type*} : Expected α → Option Error
  | .error err => some err
  | .ok _ => none

/-- What `flush_memtable` makes of the outcomes of its tasks, here in the order of
the ranges. -/
def joinOutcomes {α : Type*} (outcomes : List (Expected α)) : Expected (List α) :=
  match outcomes.filterMap errorOf with
  | err :: _ => .error { msg := "Parallel flush failed: " ++ err.msg }
  | [] => .ok (outcomes.filterMap Except.toOption)

def flushRanges (checksum : Bytes → UInt32) (buf : ℕ → PageBuffer) (flushIteration : ℕ)
    (ranges : List (ℕ × List (MemtableEntry Bytes))) : Expected (List SstFile) :=
  if (ranges.map Prod.fst).Nodup then
    joinOutcomes (ranges.map fun range =>
      exportAsFile checksum (buf range.1) flushIteration range)
  else
    .error { msg := "Parallel flush failed: Failed to create sorted index file: File already exists" }

/-- `index_ops::flush_memtable`: one task for each range of the table, each with a
buffer of its own. -/
def flushFiles (checksum : Bytes → UInt32) (buf : ℕ → PageBuffer)
    (numPartitionExponent flushIteration : ℕ) (entries : List (MemtableEntry Bytes)) :
    Expected (List SstFile) :=
  if numPartitionExponent > 16 then
    .error { msg := "Number of partitions exponent must be less than or equal to 16" }
  else
    let partitionKeyPrefixRange := 2 ^ 16 / 2 ^ numPartitionExponent
    flushRanges checksum buf flushIteration
      (partitionRanges (findPartitionPrefixForKey · partitionKeyPrefixRange) entries)

theorem joinOutcomes_ok {α β : Type*} {f : α → Expected β} {R : β → α → Prop} {l : List α}
    (h : ∀ a ∈ l, ∃ b, f a = .ok b ∧ R b a) :
    ∃ bs, joinOutcomes (l.map f) = .ok bs ∧ Forall₂ R bs l := by
  suffices hjoin : (l.map f).filterMap errorOf = [] ∧
      Forall₂ R ((l.map f).filterMap Except.toOption) l by
    refine ⟨_, ?_, hjoin.2⟩
    rw [joinOutcomes, hjoin.1]
  induction l with
  | nil => exact ⟨rfl, .nil⟩
  | cons a l ih =>
    obtain ⟨b, hb, hR⟩ := h a mem_cons_self
    obtain ⟨herr, hok⟩ := ih fun a' ha => h a' (mem_cons_of_mem a ha)
    rw [map_cons, hb]
    exact ⟨herr, .cons hR hok⟩

theorem joinOutcomes_error {α : Type*} {outcomes : List (Expected α)} {err : Error}
    (h : .error err ∈ outcomes) : ∃ err', joinOutcomes outcomes = .error err' := by
  have hmem : err ∈ outcomes.filterMap errorOf := mem_filterMap.mpr ⟨_, h, rfl⟩
  rw [joinOutcomes]
  split
  · exact ⟨_, rfl⟩
  · next hnil => exact absurd hmem (hnil ▸ not_mem_nil)

section Ranges

variable {ranges : List (ℕ × List (MemtableEntry Bytes))}

/-- Ranges of different partitions, with entries that blocks can take, give a file
each. -/
theorem flushRanges_holds (checksum : Bytes → UInt32) (buf : ℕ → PageBuffer) (epoch : ℕ)
    (hnd : (ranges.map Prod.fst).Nodup)
    (hes : ∀ range ∈ ranges, ∀ a ∈ (writeIndex none 0 range.2).1, Writable a) :
    ∃ files, flushRanges checksum buf epoch ranges = .ok files ∧
      Forall₂ (fun f range => ∀ fileId, SstFile.Holds checksum f (exportAsSst fileId epoch range))
        files ranges := by
  obtain ⟨files, hjoin, hholds⟩ := joinOutcomes_ok fun range hr =>
    exportAsFile_holds checksum (buf range.1) epoch (hes range hr)
  exact ⟨files, (if_pos hnd).trans hjoin, hholds⟩

/-- **When a flush succeeds, exactly**: no partition is met twice, and blocks can take
the newest version of each key. -/
theorem flushRanges_ok_iff (checksum : Bytes → UInt32) (buf : ℕ → PageBuffer) (epoch : ℕ) :
    (∃ files, flushRanges checksum buf epoch ranges = .ok files) ↔
      (ranges.map Prod.fst).Nodup ∧
        ∀ range ∈ ranges, ∀ a ∈ (writeIndex none 0 range.2).1, Writable a := by
  constructor
  · rintro ⟨files, hok⟩
    rw [flushRanges] at hok
    split at hok
    · next hnd =>
      refine ⟨hnd, fun range hr a ha => ?_⟩
      by_contra hbad
      obtain ⟨err, hloop⟩ := writeIndexFrom_refused none 0 (bufferReady_make (buf range.1) :
        BufferReady checksum _) ⟨a, ha, hbad⟩
      have hexport : exportAsFile checksum (buf range.1) epoch range = .error err := by
        rw [exportAsFile, hloop]
      obtain ⟨err', hjoin⟩ := joinOutcomes_error (hexport ▸ mem_map_of_mem hr :
        .error err ∈ ranges.map fun range => exportAsFile checksum (buf range.1) epoch range)
      rw [hjoin] at hok
      cases hok
    · cases hok
  · rintro ⟨hnd, hes⟩
    obtain ⟨files, hok, -⟩ := flushRanges_holds checksum buf epoch hnd hes
    exact ⟨files, hok⟩

end Ranges

variable {a : MemtableEntry Bytes}

section Flush

variable {buf : ℕ → PageBuffer} {e epoch : ℕ} {es : List (MemtableEntry Bytes)}

theorem flush_ranges_nodup (he : e ≤ 16) (hs : es.Pairwise fun a b => memtableCmp a b = true)
    (hlen : ∀ a ∈ es, 2 ≤ a.key.length) :
    ((partitionRanges (findMatchingPartitionForKey e) es).map Prod.fst).Nodup :=
  partitionRanges_nodup ((sorted_keys hs).imp_of_mem fun ha hb hab =>
    findMatchingPartitionForKey_mono he (hlen _ ha) (hlen _ hb) hab)

theorem mem_of_mem_range {K : Type*} {part : K → ℕ} {es : List (MemtableEntry K)}
    {range : ℕ × List (MemtableEntry K)} (hr : range ∈ partitionRanges part es)
    {a : MemtableEntry K} (ha : a ∈ range.2) : a ∈ es := by
  rw [← partitionRanges_flatten part es]
  exact mem_flatMap.mpr ⟨range, hr, ha⟩

theorem flushFiles_eq (checksum : Bytes → UInt32) (buf : ℕ → PageBuffer) (epoch : ℕ) (he : e ≤ 16) :
    flushFiles checksum buf e epoch es =
      flushRanges checksum buf epoch (partitionRanges (findMatchingPartitionForKey e) es) := by
  rw [flushFiles, if_neg (Nat.not_lt.mpr he)]
  rfl

theorem mem_of_mem_writeIndex {prev : Option Bytes} {m : ℕ} (ha : a ∈ (writeIndex prev m es).1) :
    a ∈ es := by
  rw [writeIndex_fst] at ha
  exact (firsts_sublist prev es).subset ha

/-- **The files refine the SSTs.**  A flush of entries that blocks can take writes the
SSTs of `flushMemtable`. -/
theorem flushFiles_refines (checksum : Bytes → UInt32) (buf : ℕ → PageBuffer) (fileId epoch : ℕ)
    (he : e ≤ 16) (hs : es.Pairwise fun a b => memtableCmp a b = true)
    (hlen : ∀ a ∈ es, 2 ≤ a.key.length) (hes : ∀ a ∈ es, Writable a) :
    ∃ files ssts, flushFiles checksum buf e epoch es = .ok files ∧
      flushMemtable (findMatchingPartitionForKey e) fileId epoch es = .ok ssts ∧
      Forall₂ (SstFile.Holds checksum) files ssts := by
  have hnd := flush_ranges_nodup he hs hlen
  obtain ⟨files, hflush, hholds⟩ := flushRanges_holds checksum buf epoch hnd fun range hr a ha =>
    hes a (mem_of_mem_range hr (mem_of_mem_writeIndex ha))
  refine ⟨files, _, (flushFiles_eq checksum buf epoch he).trans hflush, if_pos hnd, ?_⟩
  rw [forall₂_iff_get] at hholds ⊢
  refine ⟨by rw [length_mapIdx, hholds.1], fun i hi hi' => ?_⟩
  rw [get_eq_getElem, get_eq_getElem, getElem_mapIdx]
  exact hholds.2 i hi (hholds.1 ▸ hi) (fileId + i)

theorem flushFiles_invalid (he : e ≤ 16) (ha : a ∈ es) (hlong : maxKeyLen < a.key.length) :
    ¬ ∃ files, flushFiles checksum buf e epoch es = .ok files := by
  rw [flushFiles_eq checksum buf epoch he, flushRanges_ok_iff]
  rintro ⟨-, hes⟩
  obtain ⟨range, hr, har⟩ : ∃ range ∈ partitionRanges (findMatchingPartitionForKey e) es,
      a ∈ range.2 := by
    rw [← partitionRanges_flatten (findMatchingPartitionForKey e) es] at ha
    exact mem_flatMap.mp ha
  obtain ⟨b, hb, hkey⟩ : ∃ b ∈ firsts MemtableEntry.key none range.2, b.key = a.key :=
    (exists_mem_firsts none har).resolve_left nofun
  rw [← writeIndex_fst none 0] at hb
  exact absurd (hes range hr b hb).1.2 (Nat.not_le.mpr (hkey ▸ hlong))

end Flush

/-! ### Reading a file -/

/-- The entries of a region of pages, block by block. -/
def readPages : List Bytes → Option (List (Bytes × Bytes))
  | [] => some []
  | page :: pages => do
      let block ← (BlockDecoder.reset blockConfig page).entries blockConfig
      let rest ← readPages pages
      some (block ++ rest)

/-- The values read from a file under a key; none, when its pages cannot be read. -/
def SstFile.values (f : SstFile) (key : Bytes) : List Bytes :=
  (((readPages f.pages).getD []).filter fun kv => kv.1 = key).map Prod.snd

/-- The lengths of all entries of a block survive. -/
def ReadableBlock (block : List (Bytes × Bytes)) : Prop := Readable blockConfig 0 [] block

instance (block : List (Bytes × Bytes)) : Decidable (ReadableBlock block) :=
  inferInstanceAs (Decidable (Readable blockConfig 0 [] block))

/-- Pages of blocks are read back if all lengths survive; otherwise an empty key is
read, if anything is. -/
theorem readPages_spec {pages : List Bytes} {blocks : List (List (Bytes × Bytes))}
    (h : Forall₂ (PageOf checksum) pages blocks)
    (hkeys : ∀ kv ∈ blocks.flatten, 1 ≤ kv.1.length ∧ kv.1.length ≤ maxKeyLen)
    (hne : blocks.flatten.Pairwise fun a b => a.1 ≠ b.1) :
    ((∀ block ∈ blocks, ReadableBlock block) → readPages pages = some blocks.flatten) ∧
      ((∃ block ∈ blocks, ¬ ReadableBlock block) →
        ∀ l, readPages pages = some l → ∃ value, ([], value) ∈ l) := by
  induction h with
  | nil => exact ⟨fun _ => rfl, fun h => by simp at h⟩
  | @cons page block pages blocks hpage _ ih =>
    rw [flatten_cons] at hkeys hne ⊢
    obtain ⟨hne₁, hne₂, -⟩ := pairwise_append.mp hne
    obtain ⟨hread, hlost⟩ := ih (fun kv h => hkeys kv (mem_append_right _ h)) hne₂
    obtain ⟨-, enc, henc, hcount, -, -, rfl⟩ := hpage
    obtain ⟨hread₁, hlost₁⟩ := entries_spec checksum (s := 2) rfl rfl henc hcount
      (fun kv h => hkeys kv (mem_append_left _ h)) hne₁
    constructor
    · intro hall
      rw [readPages, hread₁ (hall block mem_cons_self),
        hread fun b hb => hall b (mem_cons_of_mem block hb)]
      rfl
    · rintro ⟨b, hb, hcut⟩ l hl
      rw [readPages] at hl
      obtain ⟨first, hfirst, hl⟩ := Option.bind_eq_some_iff.mp hl
      obtain ⟨rest, hrest, hl⟩ := Option.bind_eq_some_iff.mp hl
      obtain rfl := Option.some.inj hl
      rcases mem_cons.mp hb with rfl | hb'
      · obtain ⟨value, hmem⟩ := hlost₁ hcut first hfirst
        exact ⟨value, mem_append_left _ hmem⟩
      · obtain ⟨value, hmem⟩ := hlost ⟨b, hb', hcut⟩ rest hrest
        exact ⟨value, mem_append_right _ hmem⟩

theorem filter_key_eq {l : List (Record Bytes)} (hl : l.Pairwise fun a b => a.key < b.key)
    (k : Bytes) :
    ((l.map Record.kv).filter fun kv => kv.1 = k).map Prod.snd =
      ((lookup Record.key l k).map Record.value).toList := by
  induction l with
  | nil => rfl
  | cons r l ih =>
    obtain ⟨hr, hl'⟩ := pairwise_cons.mp hl
    rw [map_cons, lookup_cons]
    by_cases hk : r.key = k
    · have hnone : ((l.map Record.kv).filter fun kv => kv.1 = k) = [] := by
        rw [filter_eq_nil_iff]
        intro kv hkv
        obtain ⟨r', hr', rfl⟩ := mem_map.mp hkv
        have hlt : k < r'.key := hk ▸ hr r' hr'
        exact mt of_decide_eq_true hlt.ne'
      rw [filter_cons, if_pos (decide_eq_true (show r.kv.1 = k from hk)), hnone, if_pos hk]
      rfl
    · rw [filter_cons, if_neg (mt of_decide_eq_true (show r.kv.1 ≠ k from hk)), if_neg hk]
      exact ih hl'

/-! ### The table's view -/

/-- Files show a table: a key of the table is in one file, once, with the value that
`get` finds, and that file belongs to the partition where the key is looked for. -/
structure KeepsView (numPartitionExponent : ℕ) (table : Skiplist Bytes) (files : List SstFile) :
    Prop where
  found : ∀ k a, table.get k = some a → ∃ f,
    (files.filter fun f => f.values k ≠ []) = [f] ∧ f.values k = [a.value] ∧
      f.upperBound = findMatchingPartitionForKey numPartitionExponent k ∧
      f.upperBound ∈ partitionIds numPartitionExponent
  absent : ∀ k, table.get k = none → ∀ f ∈ files, f.values k = []
  maxSeqNr : (files.map SstFile.maxSeqNr).max? = (table.entries.map MemtableEntry.seq).max?

theorem max?_perm {l l' : List ℕ} (h : l.Perm l') : l.max? = l'.max? := by
  rcases hm : l'.max? with - | m
  · obtain rfl := max?_eq_none_iff.mp hm
    rw [h.eq_nil]
    rfl
  · obtain ⟨hmem, hle⟩ := max?_eq_some_iff.mp hm
    exact max?_eq_some_iff.mpr ⟨h.mem_iff.mpr hmem, fun b hb => hle b (h.mem_iff.mp hb)⟩

variable {table : Skiplist Bytes}

theorem KeepsView.perm {e : ℕ} {files results : List SstFile} (h : KeepsView e table files)
    (hperm : results.Perm files) : KeepsView e table results := by
  refine ⟨fun k a hget => ?_, fun k hget f hf => h.absent k hget f (hperm.mem_iff.mp hf), ?_⟩
  · obtain ⟨f, hone, hrest⟩ := h.found k a hget
    refine ⟨f, perm_singleton.mp ?_, hrest⟩
    rw [← hone]
    exact hperm.filter _
  · rw [← h.maxSeqNr]
    exact max?_perm (hperm.map _)

/-- The lengths survive in every block that the table is cut into. -/
def ReadableTable (numPartitionExponent : ℕ) (entries : List (MemtableEntry Bytes)) : Prop :=
  ∀ range ∈ partitionRanges (findMatchingPartitionForKey numPartitionExponent) entries,
    ∀ block ∈ splitBlocks [] ((writeIndex none 0 range.2).1.map MemtableEntry.kv),
      ReadableBlock block

instance (numPartitionExponent : ℕ) (entries : List (MemtableEntry Bytes)) :
    Decidable (ReadableTable numPartitionExponent entries) :=
  inferInstanceAs (Decidable (∀ range ∈ _, ∀ block ∈ _, _))

section Values

variable {f : SstFile} {X : Sst Bytes}

theorem SstFile.Holds.flatten (h : f.Holds checksum X) :
    f.blocks.flatten = X.entries.map Record.kv := by
  rw [h.blocks, splitBlocks_flatten, nil_append]

/-- A file is read as its SST, if its blocks are readable; otherwise nothing is read,
or an empty key. -/
theorem SstFile.Holds.values (h : f.Holds checksum X) (hsorted : X.Sorted)
    (hkeys : ∀ r ∈ X.entries, 1 ≤ r.key.length ∧ r.key.length ≤ maxKeyLen) :
    ((∀ block ∈ f.blocks, ReadableBlock block) →
        ∀ k, f.values k = ((X.find k).map Record.value).toList) ∧
      ((∃ block ∈ f.blocks, ¬ ReadableBlock block) →
        (∀ k, f.values k = []) ∨ f.values [] ≠ []) := by
  have hkeys' : ∀ kv ∈ f.blocks.flatten, 1 ≤ kv.1.length ∧ kv.1.length ≤ maxKeyLen := by
    intro kv hkv
    rw [h.flatten] at hkv
    obtain ⟨r, hr, rfl⟩ := mem_map.mp hkv
    exact hkeys r hr
  have hne : f.blocks.flatten.Pairwise fun a b => a.1 ≠ b.1 := by
    rw [h.flatten, pairwise_map]
    exact hsorted.imp ne_of_lt
  obtain ⟨hread, hlost⟩ := readPages_spec h.pages hkeys' hne
  constructor
  · intro hall k
    rw [SstFile.values, hread hall, h.flatten]
    exact filter_key_eq hsorted k
  · intro hcut
    rcases hpages : readPages f.pages with - | l
    · refine .inl fun k => ?_
      rw [SstFile.values, hpages]
      rfl
    · obtain ⟨value, hmem⟩ := hlost hcut l hpages
      refine .inr (ne_nil_of_mem (a := value) (mem_map.mpr ⟨([], value), ?_, rfl⟩))
      rw [hpages]
      exact mem_filter.mpr ⟨hmem, by simp⟩

end Values

section View

variable {e fileId epoch : ℕ} {es : List (MemtableEntry Bytes)} {files : List SstFile}
  {ssts : List (Sst Bytes)} {part : Bytes → ℕ}

/-- An SST of a flush finds what the table finds, for the keys of its partition. -/
theorem find_of_flushed (hs : es.Pairwise fun a b => memtableCmp a b = true)
    (hok : flushMemtable part fileId epoch es = .ok ssts) {X : Sst Bytes} (hX : X ∈ ssts)
    (k : Bytes) : X.Sorted ∧ X.find k =
      if part k = X.upperBound then (lookup MemtableEntry.key es k).map MemtableEntry.toRecord
      else none := by
  obtain ⟨i, -, heq⟩ := mem_flushMemtable hok hX
  have hkeys := (sorted_keys hs).sublist
    (filter_sublist (p := fun a => part a.key = X.upperBound))
  rw [heq]
  refine ⟨exportAsSst_sorted _ _ hkeys, ?_⟩
  rw [find_exportAsSst _ _ hkeys]
  show _ = if part k = X.upperBound then _ else none
  split
  · next hpart =>
    exact congrArg _ (lookup_filter es (fun k => decide (part k = X.upperBound)) k (by simpa using hpart))
  · next hpart =>
    rw [lookup_eq_none_iff.mpr]
    · rfl
    · rintro a ha rfl
      exact hpart (by simpa using (mem_filter.mp ha).2)

theorem flushed_keys (hok : flushMemtable part fileId epoch es = .ok ssts) {X : Sst Bytes}
    (hX : X ∈ ssts) (hkeys : ∀ a ∈ es, 1 ≤ a.key.length ∧ a.key.length ≤ maxKeyLen) :
    ∀ r ∈ X.entries, 1 ≤ r.key.length ∧ r.key.length ≤ maxKeyLen := by
  intro r hr
  obtain ⟨i, -, heq⟩ := mem_flushMemtable hok hX
  rw [heq] at hr
  obtain ⟨a, ha, rfl⟩ := mem_exportAsSst hr
  exact hkeys a (mem_filter.mp ha).1

theorem flushMemtable_max? (hs : es.Pairwise fun a b => memtableCmp a b = true)
    (hok : flushMemtable part fileId epoch es = .ok ssts) :
    (ssts.map Sst.maxSeqNr).max? = (es.map MemtableEntry.seq).max? := by
  rcases hm : (es.map MemtableEntry.seq).max? with - | m
  · have hnil : es = [] := map_eq_nil_iff.mp (max?_eq_none_iff.mp hm)
    have hssts : ssts = [] := by
      rw [eq_nil_iff_forall_not_mem]
      intro X hX
      obtain ⟨a, ha, -⟩ := flushMemtable_maxSeqNr hok hX
      exact absurd ha (hnil ▸ not_mem_nil)
    rw [hssts]
    rfl
  · obtain ⟨hmem, hle⟩ := max?_eq_some_iff.mp hm
    obtain ⟨a, ha, rfl⟩ := mem_map.mp hmem
    have hbound : ∀ X ∈ ssts, X.maxSeqNr ≤ a.seq := by
      intro X hX
      obtain ⟨b, hb, heq⟩ := flushMemtable_maxSeqNr hok hX
      exact heq ▸ hle _ (mem_map_of_mem hb)
    obtain ⟨X, hX, hcover⟩ := flushMemtable_covers hs hok ha
    refine max?_eq_some_iff.mpr ⟨mem_map.mpr ⟨X, hX, ?_⟩, ?_⟩
    · exact le_antisymm (hbound X hX) hcover
    · intro n hn
      obtain ⟨Y, hY, rfl⟩ := mem_map.mp hn
      exact hbound Y hY

theorem readable_ssts_iff (hok : flushMemtable part fileId epoch es = .ok ssts) :
    (∀ X ∈ ssts, ∀ block ∈ splitBlocks [] (X.entries.map Record.kv), ReadableBlock block) ↔
      ∀ range ∈ partitionRanges part es,
        ∀ block ∈ splitBlocks [] ((writeIndex none 0 range.2).1.map MemtableEntry.kv),
          ReadableBlock block := by
  unfold flushMemtable at hok
  dsimp only at hok
  split at hok
  · next hnd =>
    cases hok
    have hkv : ∀ i (range : ℕ × List (MemtableEntry Bytes)),
        (exportAsSst (fileId + i) epoch range).entries.map Record.kv =
          (writeIndex none 0 range.2).1.map MemtableEntry.kv := by
      intro i range
      rw [exportAsSst, map_map]
      rfl
    constructor
    · intro h range hr block hblock
      obtain ⟨i, hi, rfl⟩ := getElem_of_mem hr
      refine h _ (mem_mapIdx.mpr ⟨i, hi, rfl⟩) block ?_
      rwa [hkv]
    · intro h X hX block hblock
      obtain ⟨i, hi, rfl⟩ := mem_mapIdx.mp hX
      refine h _ (getElem_mem hi) block ?_
      rwa [hkv] at hblock
  · cases hok

theorem readable_files_iff (hfiles : Forall₂ (SstFile.Holds checksum) files ssts)
    (hok : flushMemtable part fileId epoch es = .ok ssts) :
    (∀ f ∈ files, ∀ block ∈ f.blocks, ReadableBlock block) ↔
      ∀ range ∈ partitionRanges part es,
        ∀ block ∈ splitBlocks [] ((writeIndex none 0 range.2).1.map MemtableEntry.kv),
          ReadableBlock block := by
  rw [← readable_ssts_iff hok]
  constructor
  · intro h X hX block hblock
    obtain ⟨f, hf, hholds⟩ := forall₂_mem hfiles.flip hX
    exact h f hf block (hholds.blocks ▸ hblock)
  · intro h f hf block hblock
    obtain ⟨X, hX, hholds⟩ := forall₂_mem hfiles hf
    exact h X hX block (hholds.blocks ▸ hblock)

theorem files_of_partition (hfiles : Forall₂ (SstFile.Holds checksum) files ssts)
    (hok : flushMemtable part fileId epoch es = .ok ssts) (ha : a ∈ es) :
    ∃ f, (files.filter fun f => f.upperBound = part a.key) = [f] := by
  rcases flushMemtable_partition hok (part a.key) with ⟨-, hnil⟩ | ⟨i, -, hone⟩
  · exact absurd (mem_filter.mpr ⟨ha, by simp⟩) (hnil ▸ not_mem_nil)
  · have hrel := rel_filter (R := SstFile.Holds checksum)
      (p := fun f => f.upperBound = part a.key) (q := fun X => X.upperBound = part a.key)
      (fun f X h => by simp [h.upperBound]) hfiles
    rw [hone] at hrel
    obtain ⟨f, rest, -, hrest, hf⟩ := forall₂_cons_right_iff.mp hrel
    obtain rfl := forall₂_nil_right_iff.mp hrest
    exact ⟨f, hf⟩

theorem keepsView_of_readable (he : e ≤ 16)
    (hkeys : ∀ a ∈ table.entries, 1 ≤ a.key.length ∧ a.key.length ≤ maxKeyLen)
    (hfiles : Forall₂ (SstFile.Holds checksum) files ssts)
    (hok : flushMemtable (findMatchingPartitionForKey e) fileId epoch table.entries = .ok ssts)
    (hread : ∀ f ∈ files, ∀ block ∈ f.blocks, ReadableBlock block) : KeepsView e table files := by
  -- a file has the key exactly when the table has it and the partition is the file's
  have hvalues : ∀ f ∈ files, ∀ k, f.values k =
      if findMatchingPartitionForKey e k = f.upperBound then
        ((table.get k).map MemtableEntry.value).toList else [] := by
    intro f hf k
    obtain ⟨X, hX, hholds⟩ := forall₂_mem hfiles hf
    obtain ⟨hsorted, hfind⟩ := find_of_flushed table.sorted hok hX k
    rw [(hholds.values hsorted (flushed_keys hok hX hkeys)).1 (hread f hf) k, hfind,
      hholds.upperBound, table.get_eq_lookup]
    split
    · rw [Option.map_map]
      rfl
    · rfl
  refine ⟨fun k a hget => ?_, fun k hget f hf => ?_, ?_⟩
  · have hfilter : (files.filter fun f => f.values k ≠ []) =
        files.filter fun f => f.upperBound = findMatchingPartitionForKey e k := by
      refine filter_congr fun f hf => ?_
      rw [hvalues f hf k, hget]
      by_cases hpart : findMatchingPartitionForKey e k = f.upperBound
      · simp [hpart]
      · simp [hpart, Ne.symm hpart]
    rw [table.get_eq_lookup] at hget
    obtain ⟨ha, rfl⟩ := lookup_mem hget
    obtain ⟨f, hone⟩ := files_of_partition hfiles hok ha
    have hmem := mem_filter.mp (hone ▸ mem_singleton_self f)
    have hpart : f.upperBound = findMatchingPartitionForKey e a.key := by simpa using hmem.2
    refine ⟨f, hfilter.trans hone, ?_, hpart, hpart ▸ findMatchingPartitionForKey_mem he a.key⟩
    rw [hvalues f hmem.1 a.key, if_pos hpart.symm, table.get_eq_lookup, hget]
    rfl
  · rw [hvalues f hf k, hget]
    split <;> rfl
  · have hmap : files.map SstFile.maxSeqNr = ssts.map Sst.maxSeqNr :=
      forall₂_eq_eq_eq ▸ forall₂_map_left_iff.mpr
        (forall₂_map_right_iff.mpr (hfiles.imp fun _ _ h => h.maxSeqNr))
    rw [hmap]
    exact flushMemtable_max? table.sorted hok

theorem readable_of_keepsView (hlen : ∀ a ∈ table.entries, 2 ≤ a.key.length)
    (hkeys : ∀ a ∈ table.entries, 1 ≤ a.key.length ∧ a.key.length ≤ maxKeyLen)
    (hfiles : Forall₂ (SstFile.Holds checksum) files ssts)
    (hok : flushMemtable (findMatchingPartitionForKey e) fileId epoch table.entries = .ok ssts)
    (h : KeepsView e table files) : ∀ f ∈ files, ∀ block ∈ f.blocks, ReadableBlock block := by
  intro f hf block hblock
  by_contra hcut
  obtain ⟨X, hX, hholds⟩ := forall₂_mem hfiles hf
  obtain ⟨hsorted, -⟩ := find_of_flushed table.sorted hok hX []
  rcases (hholds.values hsorted (flushed_keys hok hX hkeys)).2 ⟨block, hblock, hcut⟩ with
    hnone | hempty
  · -- nothing is read: a key of the SST is in no file
    obtain ⟨-, hne, -⟩ := mem_flushMemtable hok hX
    obtain ⟨a, ha⟩ := exists_mem_of_ne_nil _ hne
    obtain ⟨ha, hpart⟩ := mem_filter.mp ha
    obtain ⟨b, hget⟩ : ∃ b, table.get a.key = some b := by
      rw [table.get_eq_lookup]
      exact Option.ne_none_iff_exists'.mp fun h => lookup_eq_none_iff.mp h a ha rfl
    obtain ⟨f', hone, hvalue, hpart', -⟩ := h.found a.key b hget
    obtain ⟨f₀, hf₀⟩ := files_of_partition hfiles hok ha
    have hmem : ∀ g ∈ files, g.upperBound = findMatchingPartitionForKey e a.key → g = f₀ :=
      fun g hg hub => mem_singleton.mp (hf₀ ▸ mem_filter.mpr ⟨hg, by simpa using hub⟩)
    have hf' := (mem_filter.mp (hone ▸ mem_singleton_self f')).1
    have hub : f.upperBound = findMatchingPartitionForKey e a.key := by
      rw [hholds.upperBound]
      exact (of_decide_eq_true hpart).symm
    rw [hmem f' hf' hpart', ← hmem f hf hub, hnone] at hvalue
    cases hvalue
  · -- an empty key is read, which the table cannot have
    have hget : table.get [] = none := by
      rw [table.get_eq_lookup, lookup_eq_none_iff]
      intro a ha hnil
      have := hlen a ha
      rw [hnil] at this
      exact absurd this (by decide)
    exact hempty (h.absent [] hget f hf)

theorem readableTable_of_keepsView {buf : ℕ → PageBuffer} (he : e ≤ 16)
    (hlen : ∀ a ∈ table.entries, 2 ≤ a.key.length) (hes : ∀ a ∈ table.entries, Writable a)
    (hflush : flushFiles checksum buf e epoch table.entries = .ok files)
    (h : KeepsView e table files) : ReadableTable e table.entries := by
  obtain ⟨files', ssts, hflush', hok, hfiles⟩ :=
    flushFiles_refines checksum buf 0 epoch he table.sorted hlen hes
  obtain rfl := Except.ok.inj (hflush.symm.trans hflush')
  exact (readable_files_iff hfiles hok).mp
    (readable_of_keepsView hlen (fun a ha => (hes a ha).1) hfiles hok h)

end View

/-- **A flush keeps the table's view, exactly.**  For a table of keys of at least two
bytes and entries that fit an empty block, the flush succeeds and its SSTs, in
whatever order the tasks finish, show the table, if and only if no key is longer than
256 bytes and no block has a delta entry whose length is cut. -/
theorem flush_keeps_view_iff (checksum : Bytes → UInt32) (buf : ℕ → PageBuffer)
    (numPartitionExponent flushIteration : ℕ) (he : numPartitionExponent ≤ 16)
    (table : Skiplist Bytes) (hlen : ∀ a ∈ table.entries, 2 ≤ a.key.length)
    (hfits : ∀ a ∈ table.entries, FitsEmptyBlock a.key a.value) :
    (∃ files, flushFiles checksum buf numPartitionExponent flushIteration table.entries = .ok files ∧
        ∀ results, results.Perm files → KeepsView numPartitionExponent table results) ↔
      (∀ a ∈ table.entries, a.key.length ≤ 256) ∧
        ReadableTable numPartitionExponent table.entries := by
  constructor
  · rintro ⟨files, hflush, hview⟩
    have hshort : ∀ a ∈ table.entries, a.key.length ≤ 256 := by
      intro a ha
      by_contra hlong
      exact flushFiles_invalid he ha (Nat.lt_of_not_le hlong) ⟨files, hflush⟩
    have hes : ∀ a ∈ table.entries, Writable a :=
      fun a ha => ⟨⟨Nat.one_le_of_lt (hlen a ha), hshort a ha⟩, hfits a ha⟩
    exact ⟨hshort, readableTable_of_keepsView he hlen hes hflush (hview files (Perm.refl files))⟩
  · rintro ⟨hshort, hread⟩
    have hkeys : ∀ a ∈ table.entries, 1 ≤ a.key.length ∧ a.key.length ≤ maxKeyLen :=
      fun a ha => ⟨Nat.one_le_of_lt (hlen a ha), hshort a ha⟩
    obtain ⟨files, ssts, hflush, hok, hfiles⟩ := flushFiles_refines checksum buf 0 flushIteration
      he table.sorted hlen fun a ha => ⟨hkeys a ha, hfits a ha⟩
    have hview := keepsView_of_readable he hkeys hfiles hok ((readable_files_iff hfiles hok).mpr hread)
    exact ⟨files, hflush, fun results hperm => hview.perm hperm⟩

/-- A write buffer of two pages. -/
def zeroBuffer : PageBuffer := .zeros 1

/-- A table with two versions of a key, and keys of two partitions. -/
def flushedTable : Skiplist Bytes :=
  ⟨[⟨[0, 1], 3, [1, 7]⟩, ⟨[0, 1], 1, [1, 5]⟩, ⟨[200, 0], 2, [2]⟩], by decide⟩

theorem flush_keeps_view_two : ∃ files,
    flushFiles (fun _ => 0) (fun _ => zeroBuffer) 4 1 flushedTable.entries = .ok files ∧
      ∀ results, results.Perm files → KeepsView 4 flushedTable results :=
  (flush_keeps_view_iff (fun _ => 0) (fun _ => zeroBuffer) 4 1 (by decide) flushedTable (by decide)
    (by decide)).mpr ⟨by decide, by decide +kernel⟩

/-- A table with a key of 256 bytes that shares none with the key before it. -/
def cutTable : Skiplist Bytes :=
  ⟨[⟨[0, 0], 1, [1]⟩, ⟨replicate 256 1, 2, [1]⟩], by decide +kernel⟩

theorem flush_loses_cut_key :
    (∀ a ∈ cutTable.entries, 2 ≤ a.key.length ∧ FitsEmptyBlock a.key a.value) ∧
      ¬ ∃ files, flushFiles (fun _ => 0) (fun _ => zeroBuffer) 0 1 cutTable.entries = .ok files ∧
        ∀ results, results.Perm files → KeepsView 0 cutTable results := by
  have hall : ∀ a ∈ cutTable.entries, 2 ≤ a.key.length ∧ a.key.length ≤ maxKeyLen ∧
      FitsEmptyBlock a.key a.value := by decide +kernel
  have hcut : ¬ ReadableTable 0 cutTable.entries := by decide +kernel
  refine ⟨fun a ha => ⟨(hall a ha).1, (hall a ha).2.2⟩, ?_⟩
  rintro ⟨files, hflush, hview⟩
  exact hcut (readableTable_of_keepsView (Nat.zero_le _) (fun a ha => (hall a ha).1)
    (fun a ha => ⟨⟨Nat.one_le_of_lt (hall a ha).1, (hall a ha).2.1⟩, (hall a ha).2.2⟩) hflush
    (hview files (Perm.refl files)))

end HedgeDB
