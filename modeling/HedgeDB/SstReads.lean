/-
HedgeDB/SstReads.lean

SSTs that are read back from their files.

The models of the levels and of the memtable keep the entries of an SST.  The code has
pages, and a key of 256 bytes can lose its length in one of them.  `Sst.ReadsBack` is the
condition on the entries, for the loops that write a flush and a merge alike, and under it
a lookup through the pages returns what the lookup in the entries does
(`Sst.ReadsBack.readFromPages`).  For the SSTs of a flush it is a condition on the table
(`FlushReadsBack`).
-/
import HedgeDB.FlushFiles
import HedgeDB.Paging

namespace HedgeDB

open List

variable {checksum : Bytes → UInt32} {X : Sst Bytes}

/-- Every entry fits a block, and no block that the entries are cut into loses a length. -/
@[mk_iff]
structure Sst.ReadsBack (X : Sst Bytes) : Prop where
  writable : ∀ kv ∈ X.entries.map Record.kv,
    (1 ≤ kv.1.length ∧ kv.1.length ≤ maxKeyLen) ∧ FitsEmptyBlock kv.1 kv.2
  blocks : ∀ block ∈ splitBlocks [] (X.entries.map Record.kv), ReadableBlock block

instance (X : Sst Bytes) : Decidable X.ReadsBack :=
  decidable_of_iff' _ (Sst.readsBack_iff ..)

/-- Whichever loop writes the entries, and whichever super index is used, a lookup through
the pages returns what the lookup in the entries does. -/
def Sst.ReadFromPages (X : Sst Bytes) : Prop :=
  ∀ (checksum : Bytes → UInt32) (caller : IndexCaller) (buf : PageBuffer), ∃ s,
    (IndexWriter.make buf).writeAll caller checksum (X.entries.map Record.kv) = .ok s ∧
      ∀ superIndex, (superIndex = none ∨ superIndex = some (createSuperIndex s.buffer.metaIndex) ∨
        superIndex = loadSuperIndex s.buffer.metaIndex) → ∀ key,
          lookupPages checksum s.buffer.file s.buffer.metaIndex superIndex key =
            some (X.lookupAsync key)

theorem pageFinds_of_pageOf {pages : List Bytes} {blocks : List (List (Bytes × Bytes))}
    (hpages : Forall₂ (PageOf checksum) pages blocks)
    (hsorted : blocks.flatten.Pairwise fun a b => a.1 < b.1)
    (hkeys : ∀ block ∈ blocks, ∀ kv ∈ block, 1 ≤ kv.1.length ∧ kv.1.length ≤ maxKeyLen)
    (hread : ∀ block ∈ blocks, ReadableBlock block) :
    Forall₂ (PageFinds checksum) pages blocks := by
  obtain ⟨hlength, hof⟩ := forall₂_iff_get.mp hpages
  refine forall₂_iff_get.mpr ⟨hlength, fun i hi hi' => ?_⟩
  have hblock : blocks.get ⟨i, hi'⟩ ∈ blocks := get_mem _ _
  exact (hof i hi hi').2.finds ((pairwise_flatten.mp hsorted).1 _ hblock) (hkeys _ hblock)
    (hread _ hblock)

/-- **An SST is read from its pages.** -/
theorem Sst.ReadsBack.readFromPages (h : X.ReadsBack) (hsorted : X.Sorted) : X.ReadFromPages := by
  intro checksum caller buf
  obtain ⟨s, hall, -, hfile, hmeta, -⟩ :=
    writeAll_make h.writable checksum caller buf (fun n => n) fun _ => rfl
  have hflat : (splitBlocks [] (X.entries.map Record.kv)).flatten = X.entries.map Record.kv := by
    rw [splitBlocks_flatten, nil_append]
  have hsorted' : (splitBlocks [] (X.entries.map Record.kv)).flatten.Pairwise
      fun a b => a.1 < b.1 := by
    rw [hflat]
    exact pairwise_map.mpr hsorted
  have hfinds := pageFinds_of_pageOf hfile hsorted' (splitBlocks_keys h.writable) h.blocks
  refine ⟨s, hall, fun superIndex hsuper key => ?_⟩
  rw [hmeta] at hsuper ⊢
  exact lookupPages_eq hfinds (pageOf_ne hfile) hsorted' hsuper hflat.symm key

/-! ### The SSTs of a flush -/

/-- What a flush at this partition exponent writes is read back: the keys tell their
partitions apart, every entry fits a block and no block loses a length. -/
@[mk_iff]
structure FlushReadsBack (numPartitionExponent : ℕ) (es : List (MemtableEntry Bytes)) : Prop where
  keys : ∀ a ∈ es, 2 ≤ a.key.length
  writable : ∀ a ∈ es, Writable a
  readable : ReadableTable numPartitionExponent es

instance (numPartitionExponent : ℕ) (es : List (MemtableEntry Bytes)) :
    Decidable (FlushReadsBack numPartitionExponent es) :=
  decidable_of_iff' _ (flushReadsBack_iff ..)

section Flush

variable {e fileId epoch : ℕ} {es : List (MemtableEntry Bytes)} {ssts : List (Sst Bytes)}

theorem FlushReadsBack.readsBack (h : FlushReadsBack e es)
    (hok : flushMemtable (findMatchingPartitionForKey e) fileId epoch es = .ok ssts) :
    ∀ X ∈ ssts, X.ReadsBack := by
  intro X hX
  constructor
  · intro kv hkv
    obtain ⟨r, hr, rfl⟩ := mem_map.mp hkv
    obtain ⟨i, -, heq⟩ := mem_flushMemtable hok hX
    rw [heq] at hr
    obtain ⟨a, ha, rfl⟩ := mem_exportAsSst hr
    exact h.writable a (mem_filter.mp ha).1
  · exact (readable_ssts_iff hok).mpr h.readable X hX

/-- **The SSTs of a flush are read from their pages.** -/
theorem FlushReadsBack.readFromPages (h : FlushReadsBack e es)
    (hs : es.Pairwise fun a b => memtableCmp a b = true)
    (hok : flushMemtable (findMatchingPartitionForKey e) fileId epoch es = .ok ssts) :
    ∀ X ∈ ssts, X.ReadFromPages :=
  fun X hX => (h.readsBack hok X hX).readFromPages (find_of_flushed hs hok hX []).1

theorem FlushReadsBack.flush_ok (h : FlushReadsBack e es) (he : e ≤ 16)
    (hs : es.Pairwise fun a b => memtableCmp a b = true) (fileId epoch : ℕ) :
    ∃ ssts, flushMemtable (findMatchingPartitionForKey e) fileId epoch es = .ok ssts :=
  ⟨_, if_pos (flush_ranges_nodup he hs h.keys)⟩

end Flush

end HedgeDB
