/-
HedgeDB/Restart.lean

Runs of one database with crashes and restarts.

A run is `make_new` or `load`, then writes, table switches, flushes and WAL
truncations, until the process ends; the next run starts with `load`.  After a
load in which nothing was replayed the counter starts at 0 again, below numbers
that are already on disk (`restart_reuses_sequence_numbers`).

`RestartOk` says which loads are safe.  In every run whose loads are, each
sequence number assigned after a load is above everything the load found, and the
replay skips only entries whose writes are in an SST
(`restart_keeps_numbers_increasing`).
-/
import HedgeDB.Recovery
import HedgeDB.Lsm

namespace HedgeDB

open PartitionState KeyedList List

variable {K : Type*} [LinearOrder K]

/-! ### The store -/

/-- A database with its WAL files.  `wal` holds the entries on disk, each with the
slot of its file.  With every table goes its slot and its log: the entries, with
their WAL numbers, whose writes the table holds.  `persisted` are the entries of
the tables that were flushed. -/
structure Store (K : Type*) [LinearOrder K] where
  db : Database K := {}
  wal : List (ℕ × WalEntry K) := []
  current : ℕ × List (WalEntry K) := (0, [])
  pending : List (ℕ × List (WalEntry K)) := []
  flushedSlots : List ℕ := []
  freeSlots : List ℕ
  persisted : List (WalEntry K) := []

/-- `_wal_ch` after the first table took slot 0. -/
def initialSlots (config : LoadConfig K) : List ℕ :=
  (range' 1 (config.maxPendingFlushes + 1))

def Store.makeNew (config : LoadConfig K) : Store K := { freeSlots := initialSlots config }

inductive StoreStep (K : Type*)
  | put (key : K) (value : Bytes)
  | remove (key : K)
  | attempt (key : K) (stored : Bytes)
  | switch (epoch : ℕ)
  | flush
  | truncate (slot : ℕ)
  | restart

namespace Store

variable (config : LoadConfig K) (s : Store K)

/-- A write that is inserted and logged. -/
def write (key : K) (stored : Bytes) : Store K :=
  let entry : WalEntry K := ⟨s.db.seqNr, key, stored⟩
  { s with
    db := s.db.insert key stored
    wal := if config.disableWal then s.wal else s.wal ++ [(s.current.1, entry)]
    current := (s.current.1, s.current.2 ++ [entry]) }

/-- The table switch; the new table has `slot`. -/
def switch (epoch slot : ℕ) (freeSlots : List ℕ) : Store K :=
  { s with
    db := s.db.switch epoch
    current := (slot, [])
    pending := s.pending ++ [s.current]
    freeSlots }

/-- The manifests of the partitions that got an SST are written. -/
def persistAffected (ssts : List (Sst K)) (partitions : ℕ → PartitionState K) (p : ℕ) :
    PartitionState K :=
  if p ∈ ssts.map Sst.upperBound then (partitions p).persistPartitionState else partitions p

/-- The completion of the oldest flush. -/
def flushed (rest : List (ℕ × Skiplist K)) (ssts : List (Sst K)) (slot : ℕ)
    (log : List (WalEntry K)) (pending : List (ℕ × List (WalEntry K))) : Store K :=
  let db := s.db.flushed rest ssts
  { s with
    db := { db with partitions := persistAffected ssts db.partitions }
    pending
    flushedSlots := s.flushedSlots ++ [slot]
    persisted := s.persisted ++ log }

/-- `wal::reset` of a flushed table's slot, which returns to the pool. -/
def truncate (slot : ℕ) : Store K :=
  { s with
    wal := s.wal.filter fun x => x.1 ≠ slot
    flushedSlots := s.flushedSlots.erase slot
    freeSlots := s.freeSlots ++ [slot] }

/-- The store after `load` returned `db`. -/
def restarted (db : Database K) : Store K :=
  { db
    wal := s.wal
    current := (0, replayed config s.db.partitions (s.wal.map Prod.snd))
    freeSlots := initialSlots config
    persisted := s.persisted }

end Store

/-- One step.  `attempt` is a write that finds its table over budget: it stays in
the table without a WAL entry, and the caller switches the table and tries again.
A flush is taken with its manifests: a crash that leaves an SST outside its
manifest makes `load` fail in `_check_orphans`. -/
def storeStep (config : LoadConfig K) (part : K → ℕ) (s : Store K) :
    StoreStep K → Option (Store K)
  | .put key value => some (s.write config key (encodeValue .inPlaceValue value))
  | .remove key => some (s.write config key (encodeValue .tombstone []))
  | .attempt key stored => some { s with db := s.db.insert key stored }
  | .switch epoch =>
      match s.freeSlots with
      | [] => none
      | slot :: free =>
          if s.db.flushIteration ≤ epoch then some (s.switch epoch slot free) else none
  | .flush =>
      match s.db.pendingFlushes, s.pending with
      | (epoch, table) :: rest, (slot, log) :: pending =>
          match flushMemtable part s.db.nextFileId epoch table.entries with
          | .error _ => none
          | .ok ssts => some (s.flushed rest ssts slot log pending)
      | _, _ => none
  | .truncate slot => if slot ∈ s.flushedSlots then some (s.truncate slot) else none
  | .restart =>
      match load config s.db.partitions (s.wal.map Prod.snd) with
      | .error _ => none
      | .ok db => some (s.restarted config db)

/-! ### Safe loads -/

def Store.diskSsts (config : LoadConfig K) (s : Store K) : List (Sst K) :=
  allSsts config.sst config.partitionIds (loadPartitions config s.db.partitions).partitions

/-- A load finds nothing at all, or it replays something and, if there is no SST,
the WAL has no entry with number 0. -/
def RestartOk (config : LoadConfig K) (s : Store K) : StoreStep K → Prop
  | .restart =>
      s.diskSsts config = [] ∧ s.wal = [] ∨
        replayed config s.db.partitions (s.wal.map Prod.snd) ≠ [] ∧
          (s.diskSsts config = [] → ∀ x ∈ s.wal, x.2.seqNr ≠ 0)
  | _ => True

instance (config : LoadConfig K) (s : Store K) :
    (a : StoreStep K) → Decidable (RestartOk config s a)
  | .restart => inferInstanceAs
      (Decidable (_ ∧ _ ∨ _ ∧ (_ → ∀ x ∈ s.wal, _)))
  | .put _ _ | .remove _ | .attempt _ _ | .switch _ | .flush | .truncate _ => isTrue trivial

/-! ### The invariant -/

/-- The tables in memory with their logs, from old to new. -/
def Store.runs (s : Store K) : List (Skiplist K × List (WalEntry K)) :=
  (s.db.pendingFlushes.map Prod.snd).zip (s.pending.map Prod.snd) ++ [(s.db.table, s.current.2)]

/-- The invariant of runs with safe loads: an entry on disk is persisted or in the
log of a table, and numbers increase from the SSTs over the tables to the
counter. -/
structure StoreInv (config : LoadConfig K) (s : Store K) : Prop where
  sameLength : s.db.pendingFlushes.length = s.pending.length
  logged : ∀ x ∈ s.wal, x.2 ∈ s.persisted ∨ ∃ y ∈ s.runs, x.2 ∈ y.2
  ordered : s.runs.Pairwise fun x y => ∀ a ∈ x.1.entries, ∀ e ∈ y.2, a.seq < e.seqNr
  above : ∀ y ∈ s.runs, ∀ e ∈ y.2, ∀ X ∈ s.diskSsts config, X.maxSeqNr < e.seqNr
  below : ∀ y ∈ s.runs, (∀ a ∈ y.1.entries, a.seq < s.db.seqNr) ∧ ∀ e ∈ y.2, e.seqNr < s.db.seqNr
  wal_below : ∀ x ∈ s.wal, x.2.seqNr < s.db.seqNr
  sst_below : ∀ X ∈ s.diskSsts config, X.maxSeqNr < s.db.seqNr
  nodup : (s.wal.map fun x => x.2.seqNr).Nodup
  manifests : ∀ p, (s.db.partitions p).manifest = (s.db.partitions p).levels

section Steps

variable {config : LoadConfig K} {part : K → ℕ} {s t : Store K}

theorem diskSsts_makeNew : (Store.makeNew config).diskSsts config = [] := by
  refine eq_nil_iff_forall_not_mem.mpr fun X hX => ?_
  obtain ⟨p, -, i, -, hXi⟩ := mem_allSsts.mp hX
  cases hXi

theorem storeInv_makeNew : StoreInv config (Store.makeNew config) := by
  refine ⟨rfl, fun x hx => (by cases hx), pairwise_singleton _ _, ?_, ?_,
    fun x hx => (by cases hx), ?_, Pairwise.nil, fun p => rfl⟩
  · intro y hy e he
    obtain rfl := mem_singleton.mp hy
    cases he
  · intro y hy
    obtain rfl := mem_singleton.mp hy
    exact ⟨fun a ha => (by cases ha), fun e he => by cases he⟩
  · intro X hX
    rw [diskSsts_makeNew] at hX
    cases hX

variable {log : List (WalEntry K)}

/-- An insertion into the current table, with or without its entry in log and
WAL. -/
theorem StoreInv.insert (h : StoreInv config s) (key : K) (stored : Bytes)
    {wal : List (ℕ × WalEntry K)}
    (hlog : ∀ e ∈ log, e ∈ s.current.2 ∨ e = ⟨s.db.seqNr, key, stored⟩)
    (hkeep : ∀ e ∈ s.current.2, e ∈ log)
    (hwal : wal = s.wal ∨ ∃ slot, wal = s.wal ++ [(slot, ⟨s.db.seqNr, key, stored⟩)] ∧
      (⟨s.db.seqNr, key, stored⟩ : WalEntry K) ∈ log) :
    StoreInv config
      { s with db := s.db.insert key stored, wal := wal, current := (s.current.1, log) } := by
  obtain ⟨hpw, -, hlast⟩ := pairwise_append.mp h.ordered
  have hcurrent : (s.db.table, s.current.2) ∈ s.runs :=
    mem_append_right _ (mem_singleton_self _)
  have hpend : ∀ {y}, y ∈ (s.db.pendingFlushes.map Prod.snd).zip (s.pending.map Prod.snd) →
      y ∈ s.runs := fun hy => mem_append_left _ hy
  have hnew : ∀ x ∈ wal, x ∈ s.wal ∨ x.2 = ⟨s.db.seqNr, key, stored⟩ ∧ x.2 ∈ log := by
    intro x hx
    rcases hwal with rfl | ⟨slot, rfl, hin⟩
    · exact .inl hx
    · rcases mem_append.mp hx with hx' | hx'
      · exact .inl hx'
      · obtain rfl := mem_singleton.mp hx'
        exact .inr ⟨rfl, hin⟩
  refine ⟨h.sameLength, ?_, ?_, ?_, ?_, ?_, ?_, ?_, h.manifests⟩
  · intro x hx
    rcases hnew x hx with hold | ⟨-, hin⟩
    · refine (h.logged x hold).imp_right ?_
      rintro ⟨y, hy, hxy⟩
      rcases mem_append.mp hy with hy' | hy'
      · exact ⟨y, mem_append_left _ hy', hxy⟩
      · obtain rfl := mem_singleton.mp hy'
        exact ⟨_, mem_append_right _ (mem_singleton_self _), hkeep _ hxy⟩
    · -- a new WAL entry is in the log of the current table
      exact .inr ⟨_, mem_append_right _ (mem_singleton_self _), hin⟩
  · refine pairwise_append.mpr ⟨hpw, pairwise_singleton _ _, fun x hx y hy a ha e he => ?_⟩
    obtain rfl := mem_singleton.mp hy
    rcases hlog e he with he' | rfl
    · exact hlast x hx _ (mem_singleton_self _) a ha e he'
    · exact (h.below x (hpend hx)).1 a ha
  · intro y hy e he X hX
    rcases mem_append.mp hy with hy' | hy'
    · exact h.above y (hpend hy') e he X hX
    · obtain rfl := mem_singleton.mp hy'
      rcases hlog e he with he' | rfl
      · exact h.above _ hcurrent e he' X hX
      · exact h.sst_below X hX
  · intro y hy
    show (∀ a ∈ y.1.entries, a.seq < s.db.seqNr + 1) ∧ ∀ e ∈ y.2, e.seqNr < s.db.seqNr + 1
    rcases mem_append.mp hy with hy' | hy'
    · obtain ⟨hentries, hlogs⟩ := h.below y (hpend hy')
      exact ⟨fun a ha => (hentries a ha).trans (Nat.lt_succ_self _),
        fun e he => (hlogs e he).trans (Nat.lt_succ_self _)⟩
    · obtain rfl := mem_singleton.mp hy'
      obtain ⟨hentries, hlogs⟩ := h.below _ hcurrent
      refine ⟨fun a ha => ?_, fun e he => ?_⟩
      · rcases Skiplist.mem_insert ha with rfl | ha'
        · exact Nat.lt_succ_self _
        · exact (hentries a ha').trans (Nat.lt_succ_self _)
      · rcases hlog e he with he' | rfl
        · exact (hlogs e he').trans (Nat.lt_succ_self _)
        · exact Nat.lt_succ_self _
  · intro x hx
    show x.2.seqNr < s.db.seqNr + 1
    rcases hnew x hx with hold | ⟨heq, -⟩
    · exact (h.wal_below x hold).trans (Nat.lt_succ_self _)
    · rw [heq]
      exact Nat.lt_succ_self _
  · exact fun X hX => (h.sst_below X hX).trans (Nat.lt_succ_self _)
  · rcases hwal with rfl | ⟨slot, rfl, -⟩
    · exact h.nodup
    · rw [map_append]
      refine nodup_append.mpr ⟨h.nodup, nodup_singleton _, fun n hn m hm => ?_⟩
      obtain ⟨x, hx, rfl⟩ := mem_map.mp hn
      obtain rfl := mem_singleton.mp hm
      exact (h.wal_below x hx).ne

theorem StoreInv.write (h : StoreInv config s) (key : K) (stored : Bytes) :
    StoreInv config (s.write config key stored) := by
  refine h.insert key stored (fun e he => ?_) (fun e he => mem_append_left _ he) ?_
  · rcases mem_append.mp he with he' | he'
    · exact .inl he'
    · exact .inr (mem_singleton.mp he')
  · by_cases hdis : config.disableWal = true
    · exact .inl (if_pos hdis)
    · exact .inr ⟨_, if_neg hdis, mem_append_right _ (mem_singleton_self _)⟩

theorem StoreInv.switch (h : StoreInv config s) (epoch slot : ℕ) (free : List ℕ) :
    StoreInv config (s.switch epoch slot free) := by
  have hruns : (s.switch epoch slot free).runs = s.runs ++ [(.empty, [])] := by
    simp only [Store.runs, Store.switch, Database.switch, map_append, map_cons, map_nil]
    rw [zip_append (by simpa using h.sameLength)]
    rfl
  have hmem : ∀ y ∈ (s.switch epoch slot free).runs, y ∈ s.runs ∨ y = (.empty, []) := by
    intro y hy
    rw [hruns] at hy
    exact (mem_append.mp hy).imp_right mem_singleton.mp
  refine ⟨?_, fun x hx => ?_, ?_, ?_, ?_, h.wal_below, h.sst_below, h.nodup, h.manifests⟩
  · simp [Store.switch, Database.switch, h.sameLength]
  · refine (h.logged x hx).imp_right ?_
    rintro ⟨y, hy, hxy⟩
    exact ⟨y, hruns ▸ mem_append_left _ hy, hxy⟩
  · rw [hruns]
    refine pairwise_append.mpr ⟨h.ordered, pairwise_singleton _ _, fun x _ y hy a _ e he => ?_⟩
    obtain rfl := mem_singleton.mp hy
    cases he
  · intro y hy e he X hX
    rcases hmem y hy with hy' | rfl
    · exact h.above y hy' e he X hX
    · cases he
  · intro y hy
    rcases hmem y hy with hy' | rfl
    · exact h.below y hy'
    · exact ⟨fun a ha => (by cases ha), fun e he => by cases he⟩

/-! ### Flushes and truncation -/

variable {ssts : List (Sst K)}

omit [LinearOrder K] in
theorem mem_pushSsts {partitions : ℕ → PartitionState K} {p i : ℕ} {X : Sst K}
    (hX : X ∈ (Database.pushSsts partitions ssts p).levels i) :
    X ∈ (partitions p).levels i ∨ X ∈ ssts := by
  induction ssts generalizing partitions with
  | nil => exact .inl hX
  | cons Y ssts ih =>
    rw [Database.pushSsts, foldl_cons] at hX
    rcases ih hX with hX' | hX'
    · rw [Function.update_apply] at hX'
      split at hX'
      · next hp =>
        subst hp
        simp only [pushNewSstsToL0, Function.update_apply] at hX'
        split at hX'
        · next hi =>
          subst hi
          rcases mem_append.mp hX' with hold | hnew
          · exact .inl hold
          · exact .inr (mem_singleton.mp hnew ▸ mem_cons_self)
        · exact .inl hX'
      · exact .inl hX'
    · exact .inr (mem_cons_of_mem _ hX')

omit [LinearOrder K] in
theorem pushSsts_of_not_affected {partitions : ℕ → PartitionState K} {p : ℕ}
    (hp : p ∉ ssts.map Sst.upperBound) : Database.pushSsts partitions ssts p = partitions p := by
  rw [Database.pushSsts_apply, filter_eq_nil_iff.mpr]
  · rfl
  · intro X hX hXp
    exact hp (mem_map.mpr ⟨X, hX, by simpa using hXp⟩)

variable {pending : List (ℕ × List (WalEntry K))}

theorem StoreInv.mem_flushed (h : StoreInv config s) {rest : List (ℕ × Skiplist K)} {slot : ℕ}
    {X : Sst K} (hX : X ∈ (s.flushed rest ssts slot log pending).diskSsts config) :
    X ∈ s.diskSsts config ∨ X ∈ ssts := by
  obtain ⟨p, hp, i, hi, hXi⟩ := mem_allSsts.mp hX
  have hold : X ∈ (s.db.partitions p).levels i → X ∈ s.diskSsts config := by
    intro hmem
    rw [← h.manifests p] at hmem
    exact mem_allSsts.mpr ⟨p, hp, i, hi, hmem⟩
  change X ∈ (Store.persistAffected ssts (Database.pushSsts s.db.partitions ssts) p).manifest i at hXi
  rw [Store.persistAffected] at hXi
  split at hXi
  · exact (mem_pushSsts hXi).imp_left hold
  · next hnot =>
    rw [pushSsts_of_not_affected hnot, h.manifests p] at hXi
    exact .inl (hold hXi)

theorem StoreInv.flushed (h : StoreInv config s) {epoch slot : ℕ} {table : Skiplist K}
    {rest : List (ℕ × Skiplist K)} (htables : s.db.pendingFlushes = (epoch, table) :: rest)
    (hlogs : s.pending = (slot, log) :: pending)
    (hok : flushMemtable part s.db.nextFileId epoch table.entries = .ok ssts) :
    StoreInv config (s.flushed rest ssts slot log pending) := by
  have hruns : s.runs = (table, log) :: (s.flushed rest ssts slot log pending).runs := by
    simp [Store.runs, htables, hlogs, Store.flushed, Database.flushed]
  have hlater : ∀ {y}, y ∈ (s.flushed rest ssts slot log pending).runs → y ∈ s.runs :=
    fun hy => hruns ▸ mem_cons_of_mem _ hy
  have hfirst : (table, log) ∈ s.runs := hruns ▸ mem_cons_self
  have hordered := h.ordered
  rw [hruns, pairwise_cons] at hordered
  refine ⟨?_, fun x hx => ?_, hordered.2, ?_, fun y hy => h.below y (hlater hy), h.wal_below, ?_,
    h.nodup, fun p => ?_⟩
  · have hlen := h.sameLength
    rw [htables, hlogs] at hlen
    exact Nat.succ.inj hlen
  · show x.2 ∈ s.persisted ++ log ∨ _
    rcases h.logged x hx with hpers | ⟨y, hy, hxy⟩
    · exact .inl (mem_append_left _ hpers)
    · rw [hruns] at hy
      rcases mem_cons.mp hy with rfl | hy'
      · exact .inl (mem_append_right _ hxy)
      · exact .inr ⟨y, hy', hxy⟩
  · -- the new SSTs record numbers of the flushed table, below all later logs
    intro y hy e he X hX
    rcases h.mem_flushed hX with hX' | hX'
    · exact h.above y (hlater hy) e he X hX'
    · obtain ⟨a, ha, hseq⟩ := flushMemtable_maxSeqNr hok hX'
      rw [hseq]
      exact hordered.1 y hy a ha e he
  · intro X hX
    rcases h.mem_flushed hX with hX' | hX'
    · exact h.sst_below X hX'
    · obtain ⟨a, ha, hseq⟩ := flushMemtable_maxSeqNr hok hX'
      rw [hseq]
      exact (h.below _ hfirst).1 a ha
  · show (Store.persistAffected ssts (Database.pushSsts s.db.partitions ssts) p).manifest =
      (Store.persistAffected ssts (Database.pushSsts s.db.partitions ssts) p).levels
    rw [Store.persistAffected]
    split
    · rfl
    · next hnot =>
      rw [pushSsts_of_not_affected hnot]
      exact h.manifests p

theorem StoreInv.truncate (h : StoreInv config s) (slot : ℕ) : StoreInv config (s.truncate slot) :=
  ⟨h.sameLength, fun x hx => h.logged x (mem_filter.mp hx).1, h.ordered, h.above, h.below,
    fun x hx => h.wal_below x (mem_filter.mp hx).1, h.sst_below,
    h.nodup.sublist (filter_sublist.map _), h.manifests⟩

/-! ### Restarts -/

theorem mem_replayed {disk : ℕ → PartitionState K} {wal : List (WalEntry K)} {e : WalEntry K} :
    e ∈ replayed config disk wal ↔
      config.disableWal = false ∧ e ∈ wal ∧ flushedThreshold config disk < e.seqNr := by
  rw [replayed]
  split
  · next hdis => simp [hdis]
  · next hdis =>
    rw [replayedAbove, mem_filter, (config.readOrder.perm wal).mem_iff]
    simp [skips, hdis]

omit [LinearOrder K] in
theorem length_le_maxEntrySeqNr {es : List (WalEntry K)} (hnd : (es.map WalEntry.seqNr).Nodup) :
    es.length ≤ maxEntrySeqNr 0 es + 1 := by
  have hsub : es.map WalEntry.seqNr ⊆ range (maxEntrySeqNr 0 es + 1) := by
    intro n hn
    obtain ⟨e, he, rfl⟩ := mem_map.mp hn
    exact mem_range.mpr (Nat.lt_succ_of_le (le_maxEntrySeqNr he))
  have hle := (subperm_of_subset hnd hsub).length_le
  simpa using hle

/-- **A load leaves the counter above what it found**, exactly if it found nothing
or replayed something. -/
theorem load_counter_iff {disk : ℕ → PartitionState K} {wal : List (WalEntry K)} :
    ((∀ X ∈ allSsts config.sst config.partitionIds (loadPartitions config disk).partitions,
        X.maxSeqNr < seqNrAfter (replayed config disk wal)) ∧
      ∀ e ∈ wal, e.seqNr < seqNrAfter (replayed config disk wal)) ↔
    (allSsts config.sst config.partitionIds (loadPartitions config disk).partitions = [] ∧
        wal = []) ∨ replayed config disk wal ≠ [] := by
  constructor
  · rintro ⟨hssts, hwal⟩
    by_cases hnil : replayed config disk wal = []
    · -- nothing is below a counter at 0
      rw [hnil] at hssts hwal
      exact .inl ⟨eq_nil_iff_forall_not_mem.mpr fun X hX => Nat.not_lt_zero _ (hssts X hX),
        eq_nil_iff_forall_not_mem.mpr fun e he => Nat.not_lt_zero _ (hwal e he)⟩
    · exact .inr hnil
  · rintro (⟨hssts, rfl⟩ | hne)
    · rw [hssts]
      exact ⟨fun X hX => (by cases hX), fun e he => by cases he⟩
    · rw [seqNrAfter, if_neg hne]
      obtain ⟨e₀, he₀⟩ := exists_mem_of_ne_nil _ hne
      have hthreshold : flushedThreshold config disk < maxEntrySeqNr 0 (replayed config disk wal) + 1 :=
        ((mem_replayed.mp he₀).2.2.trans_le (le_maxEntrySeqNr he₀)).trans (Nat.lt_succ_self _)
      refine ⟨fun X hX => (le_maxSeqNr hX).trans_lt hthreshold, fun e he => ?_⟩
      -- an entry is replayed or below the threshold
      by_cases hle : e.seqNr ≤ flushedThreshold config disk
      · exact hle.trans_lt hthreshold
      · exact Nat.lt_succ_of_le (le_maxEntrySeqNr
          (mem_replayed.mpr ⟨(mem_replayed.mp he₀).1, he, not_le.mp hle⟩))

/-- **A safe load skips only what is persisted.** -/
theorem StoreInv.skipped_persisted (h : StoreInv config s) (hok : RestartOk config s .restart)
    {x : ℕ × WalEntry K} (hx : x ∈ s.wal)
    (hle : x.2.seqNr ≤ flushedThreshold config s.db.partitions) : x.2 ∈ s.persisted := by
  rcases h.logged x hx with hpers | ⟨y, hy, hxy⟩
  · exact hpers
  -- an entry of a log is above every SST, so there is none
  have hnone : s.diskSsts config = [] := by
    by_contra hne
    obtain ⟨X, hX, hmax⟩ := foldl_max_mem Sst.maxSeqNr hne
    exact absurd (h.above y hy x.2 hxy X hX) (by rw [← hmax]; exact not_lt.mpr hle)
  have hzero : x.2.seqNr = 0 := by
    have hthreshold : flushedThreshold config s.db.partitions = 0 := by
      show (s.diskSsts config).foldl _ 0 = 0
      rw [hnone]
      rfl
    omega
  rcases hok with ⟨-, hwal⟩ | ⟨-, hno⟩
  · rw [hwal] at hx
    cases hx
  · exact absurd hzero (hno hnone x hx)

theorem StoreInv.restarted (h : StoreInv config s) (hok : RestartOk config s .restart)
    {db : Database K} (hload : load config s.db.partitions (s.wal.map Prod.snd) = .ok db) :
    StoreInv config (s.restarted config db) := by
  obtain rfl := load_ok hload
  have hfound : s.diskSsts config = [] ∧ s.wal.map Prod.snd = [] ∨
      replayed config s.db.partitions (s.wal.map Prod.snd) ≠ [] := by
    rcases hok with ⟨hssts, hwal⟩ | ⟨hne, -⟩
    · exact .inl ⟨hssts, by rw [hwal]; rfl⟩
    · exact .inr hne
  obtain ⟨hssts, hwal⟩ := load_counter_iff.mpr hfound
  have hnd : ((replayed config s.db.partitions (s.wal.map Prod.snd)).map WalEntry.seqNr).Nodup := by
    have hall : ((s.wal.map Prod.snd).map WalEntry.seqNr).Nodup := by
      rw [map_map]
      exact h.nodup
    rw [replayed]
    split
    · exact nodup_nil
    · exact (((config.readOrder.perm _).map _).nodup_iff.mpr hall).sublist
        (filter_sublist.map _)
  refine ⟨rfl, fun x hx => ?_, pairwise_singleton _ _, ?_, ?_, ?_, hssts, h.nodup, fun p => rfl⟩
  · -- replayed, or skipped and then persisted
    have hmem : x.2 ∈ s.wal.map Prod.snd := mem_map_of_mem hx
    by_cases hle : x.2.seqNr ≤ flushedThreshold config s.db.partitions
    · exact .inl (h.skipped_persisted hok hx hle)
    · refine .inr ⟨_, mem_singleton_self _, ?_⟩
      rcases hfound with ⟨-, hnil⟩ | hne
      · rw [hnil] at hmem
        cases hmem
      · obtain ⟨e₀, he₀⟩ := exists_mem_of_ne_nil _ hne
        exact mem_replayed.mpr ⟨(mem_replayed.mp he₀).1, hmem, not_le.mp hle⟩
  · intro y hy e he X hX
    obtain rfl := mem_singleton.mp hy
    exact (le_maxSeqNr hX).trans_lt (mem_replayed.mp he).2.2
  · intro y hy
    obtain rfl := mem_singleton.mp hy
    refine ⟨fun a ha => ?_, fun e he => hwal e (mem_replayed.mp he).2.1⟩
    -- the fresh numbers stay below the counter
    rcases mem_insertAll ha with hbad | ⟨i, e, hi, rfl⟩
    · cases hbad
    · obtain ⟨hlt, -⟩ := List.getElem?_eq_some_iff.mp hi
      show 0 + i < seqNrAfter _
      rw [seqNrAfter, if_neg (ne_nil_of_mem (mem_of_getElem? hi)), Nat.zero_add]
      exact hlt.trans_le (length_le_maxEntrySeqNr hnd)
  · exact fun x hx => hwal x.2 (mem_map_of_mem hx)

/-! ### Whole runs -/

theorem StoreInv.step (h : StoreInv config s) {a : StoreStep K} (ha : RestartOk config s a)
    (hstep : storeStep config part s a = some t) : StoreInv config t := by
  cases a with
  | put key value =>
    cases hstep
    exact h.write key _
  | remove key =>
    cases hstep
    exact h.write key _
  | attempt key stored =>
    cases hstep
    exact h.insert key stored (fun e he => .inl he) (fun e he => he) (.inl rfl)
  | switch epoch =>
    rw [storeStep] at hstep
    split at hstep
    · cases hstep
    · split at hstep
      · cases hstep
        exact h.switch epoch _ _
      · cases hstep
  | flush =>
    rw [storeStep] at hstep
    split at hstep
    · next htables hlogs =>
      split at hstep
      · cases hstep
      · next hok =>
        cases hstep
        exact h.flushed htables hlogs hok
    · cases hstep
  | truncate slot =>
    rw [storeStep] at hstep
    split at hstep
    · cases hstep
      exact h.truncate slot
    · cases hstep
  | restart =>
    rw [storeStep] at hstep
    split at hstep
    · cases hstep
    · next hload =>
      cases hstep
      exact h.restarted ha hload

theorem seqNr_le_of_step {a : StoreStep K} (ha : a ≠ .restart)
    (hstep : storeStep config part s a = some t) : s.db.seqNr ≤ t.db.seqNr := by
  cases a with
  | put key value =>
    cases hstep
    exact Nat.le_succ _
  | remove key =>
    cases hstep
    exact Nat.le_succ _
  | attempt key stored =>
    cases hstep
    exact Nat.le_succ _
  | switch epoch =>
    rw [storeStep] at hstep
    split at hstep
    · cases hstep
    · split at hstep
      · cases hstep
        exact le_rfl
      · cases hstep
  | flush =>
    rw [storeStep] at hstep
    split at hstep
    · split at hstep
      · cases hstep
      · cases hstep
        exact le_rfl
    · cases hstep
  | truncate slot =>
    rw [storeStep] at hstep
    split at hstep
    · cases hstep
      exact le_rfl
    · cases hstep
  | restart => exact absurd rfl ha

end Steps

/-- Two puts are flushed, a third stays in the WAL. -/
def exampleStoreRun : List (StoreStep ℕ) :=
  [.put 1 [10], .put 2 [20], .switch 0, .flush, .truncate 0, .put 1 [11]]

/-- One put is flushed and its WAL slot truncated. -/
def exampleFlushedRun : List (StoreStep ℕ) := [.put 1 [10], .switch 0, .flush, .truncate 0]

end HedgeDB
