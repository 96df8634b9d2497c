/-
HedgeDB/Replay.lean

What a flush records after a replay.

Replayed entries are inserted under fresh sequence numbers, so the numbers an SST
records for them are not those of the WAL.  The flush of the table that
`replay_wal` filled covers the WAL numbers it wrote exactly when nothing was
replayed, a new write joined the table, or the numbers happen to be small
(`flush_covers_replayed_iff`).
-/
import HedgeDB.Wal

namespace HedgeDB

open List hiding lookup
open KeyedList

variable {K : Type*} [LinearOrder K] {e : WalEntry K}

omit [LinearOrder K] in
theorem le_maxEntrySeqNr {es : List (WalEntry K)} (he : e ∈ es) : e.seqNr ≤ maxEntrySeqNr 0 es :=
  (le_foldl_max WalEntry.seqNr es 0).2 e he

omit [LinearOrder K] in
theorem maxEntrySeqNr_snoc {es : List (WalEntry K)}
    (hs : (es ++ [e]).Pairwise fun a b => a.seqNr ≤ b.seqNr) :
    maxEntrySeqNr 0 (es ++ [e]) = e.seqNr := by
  refine Nat.le_antisymm (foldl_max_le WalEntry.seqNr (Nat.zero_le _) fun a ha => ?_)
    (le_maxEntrySeqNr (by simp))
  rcases mem_append.mp ha with ha' | ha'
  · exact (pairwise_append.mp hs).2.2 a ha' e (mem_singleton_self _)
  · exact (congrArg WalEntry.seqNr (mem_singleton.mp ha')).le

/-- New writes into the current table, one after the other. -/
def Database.insertWrites (db : Database K) (ws : List (K × Bytes)) : Database K :=
  ws.foldl (fun db w => db.insert w.1 w.2) db

variable {db : Database K} {ws : List (K × Bytes)}

theorem Database.mem_insertWrites {a : MemtableEntry K} (ha : a ∈ db.table.entries) :
    a ∈ (db.insertWrites ws).table.entries := by
  induction ws generalizing db with
  | nil => exact ha
  | cons w ws ih => exact ih (Skiplist.mem_insert_of_mem ha)

theorem Database.exists_insertWrites (db : Database K) (hne : ws ≠ []) :
    ∃ a ∈ (db.insertWrites ws).table.entries, db.seqNr ≤ a.seq := by
  rcases ws with - | ⟨w, ws⟩
  · exact absurd rfl hne
  · obtain ⟨a, ha, -, hseq⟩ := exists_seq_insertEntry ⟨w.1, db.seqNr, w.2⟩ db.table.entries
    refine ⟨a, ?_, hseq.ge⟩
    show a ∈ ((db.insert w.1 w.2).insertWrites ws).table.entries
    exact Database.mem_insertWrites ha

/-- The WAL number of a record a flush wrote: that of the replayed entry it comes
from, or, for a write of this run, its own. -/
def walSeqNr (es : List (WalEntry K)) (r : Record K) : ℕ :=
  match es[r.stamp]? with
  | some e => if e.key = r.key ∧ e.value = r.value then e.seqNr else r.stamp
  | none => r.stamp

/-- The largest recorded number is at least the WAL number of every record. -/
def CoversWal (es : List (WalEntry K)) (ssts : List (Sst K)) : Prop :=
  ∀ X ∈ ssts, ∀ r ∈ X.entries, ∃ Y ∈ ssts, walSeqNr es r ≤ Y.maxSeqNr

theorem walSeqNr_cases (es : List (WalEntry K)) (r : Record K) :
    walSeqNr es r = r.stamp ∨ ∃ e ∈ es, walSeqNr es r = e.seqNr := by
  unfold walSeqNr
  split
  · next e he =>
    split
    · exact .inr ⟨e, mem_of_getElem? he, rfl⟩
    · exact .inl rfl
  · exact .inl rfl

section Flush

variable {config : LoadConfig K} {part : K → ℕ} {fileId epoch : ℕ} {es : List (WalEntry K)}
  {ssts : List (Sst K)}

theorem coversWal_of_joined (hcond : es = [] ∨ ws ≠ [] ∨ maxEntrySeqNr 0 es < es.length)
    (hflush : flushMemtable part fileId epoch
      ((replayInto db es).insertWrites ws).table.entries = .ok ssts) : CoversWal es ssts := by
  intro X hX r hr
  have hsorted := ((replayInto db es).insertWrites ws).table.sorted
  rcases walSeqNr_cases es r with heq | ⟨e, he, heq⟩
  · -- a write of this run is covered as an entry of the table
    rw [heq]
    obtain ⟨i, -, hexport⟩ := mem_flushMemtable hflush hX
    obtain ⟨a, ha, rfl⟩ := mem_exportAsSst (hexport ▸ hr)
    exact flushMemtable_covers hsorted hflush (mem_filter.mp ha).1
  · rw [heq]
    have hmax := le_maxEntrySeqNr he
    -- some entry of the table is numbered at least as high as the WAL went
    obtain ⟨a, ha, hle⟩ : ∃ a ∈ ((replayInto db es).insertWrites ws).table.entries,
        maxEntrySeqNr 0 es ≤ a.seq := by
      rcases hcond with rfl | hne | hlt
      · cases he
      · obtain ⟨a, ha, hseq⟩ := (replayInto db es).exists_insertWrites hne
        refine ⟨a, ha, (Nat.le_succ _).trans (le_trans ?_ hseq)⟩
        show maxEntrySeqNr 0 es + 1 ≤ seqNrAfter es
        rw [seqNrAfter, if_neg (ne_nil_of_mem he)]
      · have hget : es[es.length - 1]? = some (es.get ⟨es.length - 1, by omega⟩) :=
          getElem?_eq_getElem _
        refine ⟨_, Database.mem_insertWrites (mem_insertAll_self (by simp [Skiplist.empty]) hget), ?_⟩
        show maxEntrySeqNr 0 es ≤ 0 + (es.length - 1)
        omega
    obtain ⟨Y, hY, hcover⟩ := flushMemtable_covers hsorted hflush ha
    exact ⟨Y, hY, hmax.trans (hle.trans hcover)⟩

theorem maxSeqNr_lt_of_replayed
    (hflush : flushMemtable part fileId epoch (replayInto db es).table.entries = .ok ssts)
    {X : Sst K} (hX : X ∈ ssts) : X.maxSeqNr < es.length := by
  obtain ⟨a, ha, hseq⟩ := flushMemtable_maxSeqNr hflush hX
  rcases mem_insertAll ha with hmem | ⟨i, e, hi, rfl⟩
  · cases hmem
  · obtain ⟨hlt, -⟩ := List.getElem?_eq_some_iff.mp hi
    rw [hseq, Nat.zero_add]
    exact hlt

theorem last_replayed_written (hflush : flushMemtable part fileId epoch
      (replayInto db (es ++ [e])).table.entries = .ok ssts) :
    ∃ X ∈ ssts, (⟨e.key, es.length, e.value⟩ : Record K) ∈ X.entries := by
  have hmem : (⟨e.key, 0 + es.length, e.value⟩ : MemtableEntry K) ∈
      (insertAll .empty 0 (es ++ [e])).entries :=
    mem_insertAll_self (by simp [Skiplist.empty]) (by simp)
  rw [Nat.zero_add] at hmem
  have hsorted := (replayInto db (es ++ [e])).table.sorted
  -- no version of its key has a higher number
  obtain ⟨a, ha⟩ : ∃ a, lookup MemtableEntry.key (insertAll .empty 0 (es ++ [e])).entries e.key =
      some a := Option.ne_none_iff_exists'.mp fun hnone => lookup_eq_none_iff.mp hnone _ hmem rfl
  have hle : es.length ≤ a.seq := lookup_newest hsorted ha hmem rfl
  have hae : a = ⟨e.key, es.length, e.value⟩ := by
    rcases mem_insertAll (lookup_mem ha).1 with hbad | ⟨i, e', hi, rfl⟩
    · cases hbad
    · obtain ⟨hlt, -⟩ := List.getElem?_eq_some_iff.mp hi
      have hieq : i = es.length := by
        rw [length_append] at hlt
        simp only [length_singleton] at hlt
        have : es.length ≤ 0 + i := hle
        omega
      subst hieq
      rw [List.getElem?_append_right le_rfl, Nat.sub_self] at hi
      obtain rfl : e = e' := Option.some.inj hi
      rw [Nat.zero_add]
  rw [hae] at ha
  obtain ⟨X, hX, -, hrecord⟩ :=
    flushMemtable_writes hsorted hflush (e := ⟨e.key, es.length, e.value⟩) ha
  exact ⟨X, hX, hrecord⟩

end Flush

/-- **When the flush of a replayed table covers its WAL entries.**  `ws` are the
writes that joined the table before it was flushed. -/
theorem flush_covers_replayed_iff (config : LoadConfig K) (part : K → ℕ) (skip : Option ℕ)
    (wal : List (WalEntry K)) (db : Database K) (hreplay : replayWal config skip wal {} = .ok db)
    (ws : List (K × Bytes)) (fileId epoch : ℕ) (ssts : List (Sst K))
    (hflush : flushMemtable part fileId epoch (db.insertWrites ws).table.entries = .ok ssts) :
    CoversWal (replayedAbove config skip wal) ssts ↔
      (replayedAbove config skip wal = [] ∨ ws ≠ [] ∨
        maxEntrySeqNr 0 (replayedAbove config skip wal) <
          (replayedAbove config skip wal).length) := by
  obtain rfl := replayWal_ok rfl rfl hreplay
  have hsorted : (replayedAbove config skip wal).Pairwise fun a b => a.seqNr ≤ b.seqNr :=
    (config.readOrder.sorted wal).sublist filter_sublist
  refine ⟨fun hcovers => ?_, fun hcond => coversWal_of_joined hcond hflush⟩
  rcases eq_nil_or_concat (replayedAbove config skip wal) with hnil | ⟨es, e, hes⟩
  · exact .inl hnil
  by_cases hws : ws = []
  · -- the last entry has the largest WAL number and the largest fresh number
    subst hws
    rw [hes, concat_eq_append] at hcovers hflush hsorted ⊢
    obtain ⟨X, hX, hr⟩ := last_replayed_written hflush
    obtain ⟨Y, hY, hle⟩ := hcovers X hX _ hr
    have hwal : walSeqNr (es ++ [e]) ⟨e.key, es.length, e.value⟩ = e.seqNr := by
      simp [walSeqNr]
    rw [hwal, ← maxEntrySeqNr_snoc hsorted] at hle
    exact .inr (.inr (hle.trans_lt (maxSeqNr_lt_of_replayed hflush hY)))
  · exact .inr (.inl hws)

instance (es : List (WalEntry K)) (ssts : List (Sst K)) : Decidable (CoversWal es ssts) := by
  unfold CoversWal; infer_instance

/-- One partition, three levels, and an arena of one extent. -/
def exampleLoadConfig : LoadConfig ℕ :=
  { sst := ⟨3, 2, 4⟩, partitionIds := [0], maxPendingFlushes := 4
    memoryBudgetCap := Arena.defaultExtentBytes, disableWal := false
    readOrder := SeqSort.insertion }

/-- A write that joins the table covers the replayed entry. -/
theorem flush_covers_replayed_iff_example :
    ∃ db ssts, replayWal exampleLoadConfig (some 4) [⟨5, 1, [1, 10]⟩] {} = .ok db ∧
      flushMemtable (fun _ => 0) 0 1 (db.insertWrites [(2, [1, 20])]).table.entries = .ok ssts ∧
      CoversWal (replayedAbove exampleLoadConfig (some 4) [⟨5, 1, [1, 10]⟩]) ssts := by
  refine ⟨_, _, rfl, rfl, ?_⟩
  exact (flush_covers_replayed_iff exampleLoadConfig (fun _ => 0) (some 4) [⟨5, 1, [1, 10]⟩] _ rfl
    [(2, [1, 20])] 0 1 _ rfl).mpr (.inr (.inl (by simp)))

/-- **The flush of a replayed table can leave its WAL entry uncovered**: entry 5
is replayed as write 0, and the SST records 0. -/
theorem replayed_flush_leaves_uncovered :
    ∃ db ssts, replayWal exampleLoadConfig (some 4) [⟨5, 1, [1, 10]⟩] {} = .ok db ∧
      flushMemtable (fun _ => 0) 0 1 db.table.entries = .ok ssts ∧
      ¬ CoversWal (replayedAbove exampleLoadConfig (some 4) [⟨5, 1, [1, 10]⟩]) ssts :=
  ⟨_, _, rfl, rfl, by decide⟩

end HedgeDB
