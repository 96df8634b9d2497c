/-
HedgeDB/Wal.lean

The write-ahead log and its replay (`src/db/wal.cc`, `memtable::replay_wal`,
`database::load`, `sst_manager::max_seq_nr`).

At load the entries of all WAL files are collected and sorted by sequence
number; those above the largest sequence number of the loaded SSTs are inserted
again, through the ordinary insert, which gives them fresh sequence numbers from
zero.  Afterwards the counter continues behind the largest replayed number, if
anything was replayed at all.

`load_spec` says what a successful load leaves behind: the table is the sequence
of insertions of the replayed entries, and the counter follows from them
(`replayInto`).
-/
import HedgeDB.Arena
import HedgeDB.Database
import Mathlib.Data.List.Sort

namespace HedgeDB

open List hiding lookup_cons lookup_append lookup lookup_nil
open PartitionState KeyedList

variable {K : Type*} [LinearOrder K]

structure WalEntry (K : Type*) where
  seqNr : ℕ
  key : K
  value : Bytes
  deriving DecidableEq, Repr

/-- `std::ranges::sort` by `seq_nr`: a sorted rearrangement, in which equal
sequence numbers may come in any order. -/
structure SeqSort (K : Type*) where
  sort : List (WalEntry K) → List (WalEntry K)
  perm : ∀ l, (sort l).Perm l
  sorted : ∀ l, (sort l).Pairwise fun a b => a.seqNr ≤ b.seqNr

/-- One such sort. -/
def SeqSort.insertion : SeqSort K where
  sort := insertionSort fun a b => a.seqNr ≤ b.seqNr
  perm := perm_insertionSort _
  sorted := pairwise_insertionSort _

/-- The settings of the database and of its memtable that a restart reads.
`partitionIds` are the keys of `_sorted_indices`. -/
structure LoadConfig (K : Type*) where
  sst : SstManagerConfig
  partitionIds : List ℕ
  maxPendingFlushes : ℕ
  memoryBudgetCap : ℕ
  disableWal : Bool
  readOrder : SeqSort K

/-! ### Replay -/

def valueDataAlignment : ℕ := 16

/-- The variables of `replay_wal` while it runs. -/
structure ReplayState (K : Type*) [LinearOrder K] where
  table : Skiplist K
  seqNr : ℕ
  arena : Arena
  replayedEntriesCount : ℕ := 0
  maxSeqNr : ℕ := 0

/-- The test `skip_up_to_seq_nr && seq_nr <= *skip_up_to_seq_nr`. -/
def skips (skipUpToSeqNr : Option ℕ) (e : WalEntry K) : Bool :=
  skipUpToSeqNr.any fun bound => e.seqNr ≤ bound

/-- The callback of `replay_wal`.  The exception of an exhausted arena is the
error branch. -/
def replayEntry (skipUpToSeqNr : Option ℕ) (s : ReplayState K) (e : WalEntry K) :
    Expected (ReplayState K) :=
  if skips skipUpToSeqNr e then .ok s
  else
    match s.arena.allocateMany e.value.length valueDataAlignment with
    | (none, _) =>
        .error { msg := "WAL replay: arena exhausted after " ++ toString s.replayedEntriesCount ++
          " entries — data loss prevented" }
    | (some _, arena) =>
        .ok
          { table := s.table.insert ⟨e.key, s.seqNr, e.value⟩
            seqNr := s.seqNr + 1
            arena
            replayedEntriesCount := s.replayedEntriesCount + 1
            maxSeqNr := max s.maxSeqNr e.seqNr }

/-- `memtable::replay_wal` on a new memtable. -/
def replayWal (config : LoadConfig K) (skipUpToSeqNr : Option ℕ) (wal : List (WalEntry K))
    (db : Database K) : Expected (Database K) := do
  let arena := Arena.make config.memoryBudgetCap Arena.defaultExtentBytes
  let s ← (config.readOrder.sort wal).foldlM (replayEntry skipUpToSeqNr)
    { table := db.table, seqNr := db.seqNr, arena }
  return { db with
    table := s.table
    seqNr := if s.replayedEntriesCount > 0 then s.maxSeqNr + 1 else s.seqNr }

/-! ### Load -/

/-- The SSTs of all partitions, in the order `max_seq_nr` visits them. -/
def allSsts (cfg : SstManagerConfig) (partitionIds : List ℕ) (partitions : ℕ → PartitionState K) :
    List (Sst K) :=
  partitionIds.flatMap fun p => ((partitions p).levelList cfg).flatten

def maxSeqNr (cfg : SstManagerConfig) (partitionIds : List ℕ)
    (partitions : ℕ → PartitionState K) : ℕ :=
  (allSsts cfg partitionIds partitions).foldl (fun result sst => max result sst.maxSeqNr) 0

/-- `sst_manager::load` and `_init_memtable`: the partitions of the manifests,
the flush counter behind the largest number in a file name, and an empty
table. -/
def loadPartitions (config : LoadConfig K) (disk : ℕ → PartitionState K) : Database K :=
  let partitions := fun p => (disk p).loadPartition
  let ssts := allSsts config.sst config.partitionIds partitions
  { partitions
    flushIteration := ssts.foldl (fun n sst => max n sst.indexId) 0 + 1
    nextFileId := config.partitionIds.foldl (fun n p => max n (disk p).nextFileId) 0 }

/-- `database::load`: the manifests are those of `disk`, `wal` holds the entries
of the WAL files found. -/
def load (config : LoadConfig K) (disk : ℕ → PartitionState K) (wal : List (WalEntry K)) :
    Expected (Database K) :=
  let db := loadPartitions config disk
  if config.disableWal then .ok db
  else
    let flushedThreshold := maxSeqNr config.sst config.partitionIds db.partitions
    replayWal config (some flushedThreshold) wal db

/-! ### What a load does -/

/-- The entries inserted one after the other, numbered from `seq`. -/
def insertAll : Skiplist K → ℕ → List (WalEntry K) → Skiplist K
  | t, _, [] => t
  | t, seq, e :: es => insertAll (t.insert ⟨e.key, seq, e.value⟩) (seq + 1) es

/-- The largest sequence number of WAL entries, and at least `n`. -/
def maxEntrySeqNr (n : ℕ) (es : List (WalEntry K)) : ℕ := es.foldl (fun m e => max m e.seqNr) n

/-- The entries `replay_wal` inserts again, in this order. -/
def replayedAbove (config : LoadConfig K) (skipUpToSeqNr : Option ℕ) (wal : List (WalEntry K)) :
    List (WalEntry K) :=
  (config.readOrder.sort wal).filter fun e => !skips skipUpToSeqNr e

def flushedThreshold (config : LoadConfig K) (disk : ℕ → PartitionState K) : ℕ :=
  maxSeqNr config.sst config.partitionIds (loadPartitions config disk).partitions

/-- The entries a load inserts again. -/
def replayed (config : LoadConfig K) (disk : ℕ → PartitionState K) (wal : List (WalEntry K)) :
    List (WalEntry K) :=
  if config.disableWal then [] else replayedAbove config (some (flushedThreshold config disk)) wal

/-- The counter after the entries have been replayed into a new memtable. -/
def seqNrAfter (es : List (WalEntry K)) : ℕ :=
  if es = [] then 0 else maxEntrySeqNr 0 es + 1

omit [LinearOrder K] in
theorem seqNrAfter_eq (es : List (WalEntry K)) :
    (if 0 + es.length > 0 then maxEntrySeqNr 0 es + 1 else 0 + es.length) = seqNrAfter es := by
  cases es with
  | nil => rfl
  | cons e es => simp [seqNrAfter]

def ArenaTakes (config : LoadConfig K) (es : List (WalEntry K)) : Prop :=
  (Arena.make config.memoryBudgetCap Arena.defaultExtentBytes).fits valueDataAlignment
    (es.map fun e => e.value.length) = true

instance (config : LoadConfig K) (es : List (WalEntry K)) : Decidable (ArenaTakes config es) := by
  unfold ArenaTakes; infer_instance

theorem foldlM_replayEntry (skip : Option ℕ) (entries : List (WalEntry K)) (s : ReplayState K) :
    let kept := entries.filter fun e => !skips skip e
    (s.arena.fits valueDataAlignment (kept.map fun e => e.value.length) = true →
      ∃ arena, entries.foldlM (replayEntry skip) s = .ok
        { table := insertAll s.table s.seqNr kept
          seqNr := s.seqNr + kept.length
          arena
          replayedEntriesCount := s.replayedEntriesCount + kept.length
          maxSeqNr := maxEntrySeqNr s.maxSeqNr kept }) ∧
    (s.arena.fits valueDataAlignment (kept.map fun e => e.value.length) = false →
      ∃ err, entries.foldlM (replayEntry skip) s = .error err) := by
  induction entries generalizing s with
  | nil => exact ⟨fun _ => ⟨s.arena, rfl⟩, fun h => by cases h⟩
  | cons e entries ih =>
    rw [foldlM_cons]
    by_cases hskip : skips skip e = true
    · rw [filter_cons_of_neg (by simp [hskip]), replayEntry, if_pos hskip]
      exact ih s
    · rw [filter_cons_of_pos (by simp [hskip]), replayEntry, if_neg hskip]
      simp only [map_cons, Arena.fits, length_cons]
      rcases ha : s.arena.allocateMany e.value.length valueDataAlignment with ⟨- | ptr, arena⟩
      · exact ⟨fun h => (by cases h), fun _ => ⟨_, rfl⟩⟩
      · -- the state after the entry is the one the rest is replayed from
        obtain ⟨hok, herr⟩ := ih
          { table := s.table.insert ⟨e.key, s.seqNr, e.value⟩
            seqNr := s.seqNr + 1
            arena
            replayedEntriesCount := s.replayedEntriesCount + 1
            maxSeqNr := max s.maxSeqNr e.seqNr }
        refine ⟨fun h => ?_, fun h => herr (by simpa using h)⟩
        obtain ⟨arena', hrun⟩ := hok (by simpa using h)
        refine ⟨arena', hrun.trans ?_⟩
        simp only [insertAll, maxEntrySeqNr, foldl_cons]
        rw [Nat.add_right_comm s.seqNr, Nat.add_right_comm s.replayedEntriesCount]
        rfl

/-! ### Numbered insertions -/

section InsertAll

variable {t : Skiplist K} {seq : ℕ} {es : List (WalEntry K)}

theorem mem_insertAll {a : MemtableEntry K} (h : a ∈ (insertAll t seq es).entries) :
    a ∈ t.entries ∨ ∃ i e, es[i]? = some e ∧ a = ⟨e.key, seq + i, e.value⟩ := by
  induction es generalizing t seq with
  | nil => exact .inl h
  | cons e es ih =>
    rcases ih h with hmem | ⟨i, e', hi, rfl⟩
    · rcases Skiplist.mem_insert hmem with rfl | hold
      · exact .inr ⟨0, e, rfl, rfl⟩
      · exact .inl hold
    · exact .inr ⟨i + 1, e', hi, by rw [Nat.add_assoc, Nat.add_comm 1 i]⟩

theorem mem_insertAll_of_mem {a : MemtableEntry K} (h : a ∈ t.entries) :
    a ∈ (insertAll t seq es).entries := by
  induction es generalizing t seq with
  | nil => exact h
  | cons e es ih => exact ih (Skiplist.mem_insert_of_mem h)

theorem mem_insertAll_self (hseq : ∀ a ∈ t.entries, a.seq < seq) {i : ℕ} {e : WalEntry K}
    (hi : es[i]? = some e) : ⟨e.key, seq + i, e.value⟩ ∈ (insertAll t seq es).entries := by
  induction es generalizing t seq i with
  | nil => cases hi
  | cons e' es ih =>
    rw [insertAll]
    rcases i with - | i
    · obtain rfl := Option.some.inj hi
      exact mem_insertAll_of_mem (Skiplist.mem_insert_self hseq)
    · rw [Nat.add_comm i 1, ← Nat.add_assoc]
      refine ih (fun a ha => ?_) hi
      rcases Skiplist.mem_insert ha with rfl | ha'
      · exact Nat.lt_succ_self _
      · exact (hseq a ha').trans (Nat.lt_succ_self _)

theorem get_insertAll (hseq : ∀ a ∈ t.entries, a.seq < seq) (k : K) :
    ((insertAll t seq es).get k).map MemtableEntry.value =
      ((lookup WalEntry.key es.reverse k).map WalEntry.value).or
        ((t.get k).map MemtableEntry.value) := by
  induction es generalizing t seq with
  | nil => rfl
  | cons e es ih =>
    have hseq' : ∀ a ∈ (t.insert ⟨e.key, seq, e.value⟩).entries, a.seq < seq + 1 := by
      intro a ha
      rcases Skiplist.mem_insert ha with rfl | ha'
      · exact Nat.lt_succ_self _
      · exact (hseq a ha').trans (Nat.lt_succ_self _)
    rw [insertAll, ih hseq', reverse_cons, lookup_append, lookup_cons]
    by_cases hk : e.key = k
    · subst hk
      rw [if_pos rfl, t.get_insert_self (e := ⟨e.key, seq, e.value⟩) fun a ha _ => hseq a ha]
      rcases lookup WalEntry.key es.reverse e.key with - | - <;> rfl
    · rw [if_neg hk, t.get_insert_ne (e := ⟨e.key, seq, e.value⟩) hk, lookup_nil, Option.or_none]

end InsertAll

/-- A memtable after the entries have been replayed into it. -/
def replayInto (db : Database K) (es : List (WalEntry K)) : Database K :=
  { db with table := insertAll .empty 0 es, seqNr := seqNrAfter es }

variable {db : Database K}

/-- **What a replay into a new memtable does**, or it runs out of arena. -/
theorem replayWal_spec (config : LoadConfig K) (skip : Option ℕ) (wal : List (WalEntry K))
    (htable : db.table = .empty) (hseq : db.seqNr = 0) :
    (ArenaTakes config (replayedAbove config skip wal) →
      replayWal config skip wal db = .ok (replayInto db (replayedAbove config skip wal))) ∧
    (¬ ArenaTakes config (replayedAbove config skip wal) →
      ∃ err, replayWal config skip wal db = .error err) := by
  obtain ⟨hok, herr⟩ := foldlM_replayEntry skip (config.readOrder.sort wal)
    { table := db.table, seqNr := db.seqNr
      arena := Arena.make config.memoryBudgetCap Arena.defaultExtentBytes }
  constructor
  · intro hfits
    obtain ⟨arena, hrun⟩ := hok hfits
    rw [replayWal, hrun]
    show Except.ok _ = Except.ok _
    rw [replayInto, ← seqNrAfter_eq, htable, hseq]
    rfl
  · intro hfits
    obtain ⟨err, hrun⟩ := herr (Bool.eq_false_iff.mpr hfits)
    exact ⟨err, by rw [replayWal, hrun]; rfl⟩

/-- **What a load does**, or it runs out of arena. -/
theorem load_spec (config : LoadConfig K) (disk : ℕ → PartitionState K)
    (wal : List (WalEntry K)) :
    (ArenaTakes config (replayed config disk wal) → load config disk wal =
      .ok (replayInto (loadPartitions config disk) (replayed config disk wal))) ∧
    (¬ ArenaTakes config (replayed config disk wal) →
      ∃ err, load config disk wal = .error err) := by
  rw [load, replayed]
  rcases config.disableWal with - | -
  · exact replayWal_spec config (some (flushedThreshold config disk)) wal rfl rfl
  · exact ⟨fun _ => rfl, fun h => absurd rfl h⟩

theorem replayWal_ok {config : LoadConfig K} {skip : Option ℕ} {wal : List (WalEntry K)}
    {db' : Database K} (htable : db.table = .empty) (hseq : db.seqNr = 0)
    (hok : replayWal config skip wal db = .ok db') :
    db' = replayInto db (replayedAbove config skip wal) := by
  obtain ⟨hspec, herr⟩ := replayWal_spec config skip wal htable hseq
  by_cases htakes : ArenaTakes config (replayedAbove config skip wal)
  · exact Except.ok.inj (hok.symm.trans (hspec htakes))
  · obtain ⟨err, hbad⟩ := herr htakes
    cases hok.symm.trans hbad

theorem load_ok {config : LoadConfig K} {disk : ℕ → PartitionState K} {wal : List (WalEntry K)}
    (hok : load config disk wal = .ok db) :
    db = replayInto (loadPartitions config disk) (replayed config disk wal) := by
  obtain ⟨hspec, herr⟩ := load_spec config disk wal
  by_cases htakes : ArenaTakes config (replayed config disk wal)
  · exact Except.ok.inj (hok.symm.trans (hspec htakes))
  · obtain ⟨err, hbad⟩ := herr htakes
    cases hok.symm.trans hbad

end HedgeDB
