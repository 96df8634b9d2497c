/-
HedgeDB/Quiescent.lean

States of the database at rest, and what flushes keep of them.

At rest no call is under way: a key may be stored in the current table, in a pending one and
in SSTs of its partition, and what is stored with a higher epoch was written later.  Runs of
calls, flushes and compactions reach such states (`quiescent_of_run`).  Flushes go from one
to another and change no live key (`exec_flushes`); that their SSTs are read back is asked
of the tables.
-/
import Mathlib.Data.List.Pairwise
import HedgeDB.Lsm
import HedgeDB.RangeIterator
import HedgeDB.SstReads

namespace HedgeDB

open List hiding lookup_eq_some_iff
open KeyedList PartitionState Database

variable {K : Type*} [LinearOrder K]

/-! ### States at rest -/

/-- The SST is read back, from a file of less than `2 ^ 64` bytes. -/
structure Sst.InFile (X : Sst Bytes) : Prop where
  readsBack : X.ReadsBack
  size : X.entries.length * pageSizeInBytes < 2 ^ 64

/-- The SSTs of the database are read back from their files. -/
def Database.SstsReadBack (cfg : SstManagerConfig) (db : Database Bytes) : Prop :=
  ∀ p, ∀ X ∈ ((db.partitions p).levelList cfg).flatten, X.InFile

/-- And those that flushes make of its tables. -/
def Database.TablesReadBack (numPartitionExponent : ℕ) (db : Database Bytes) : Prop :=
  ∀ t ∈ db.pendingFlushes.map Prod.snd ++ [db.table],
    FlushReadsBack numPartitionExponent t.entries ∧ t.entries.length * pageSizeInBytes < 2 ^ 64

instance (numPartitionExponent : ℕ) (db : Database Bytes) :
    Decidable (db.TablesReadBack numPartitionExponent) :=
  inferInstanceAs (Decidable (∀ t ∈ _, _ ∧ _))

/-- `r` is the last write of its key among those stored in `l`. -/
structure LastWriteIn (l : List (Sst K)) (r : Record K) : Prop where
  mem : ∃ X ∈ l, r ∈ X.entries
  newest : ∀ Y ∈ l, ∀ r' ∈ Y.entries, r'.key = r.key → r'.stamp ≤ r.stamp

/-- The last write of the key among those stored in `l` is not a deletion. -/
def LiveIn (l : List (Sst K)) (k : K) : Prop :=
  ∃ r, LastWriteIn l r ∧ r.key = k ∧ isTombstone r.value = false

/-- What is stored for partition `p`: the tables, which hold entries of all partitions, and
its SSTs. -/
def Database.stored (cfg : SstManagerConfig) (db : Database K) (p : ℕ) : List (Sst K) :=
  db.unflushed ++ ((db.partitions p).levelList cfg).flatten

def Database.LiveKey (cfg : SstManagerConfig) (part : K → ℕ) (db : Database K) (k : K) : Prop :=
  LiveIn (db.stored cfg (part k)) k

/-- A database at rest.  An entry may be in the current table, in a pending table or in an
SST of its partition; under one key, what is stored with a higher epoch was written
later.  The pending tables are in the order of a map, epochs and sequence numbers are
64-bit numbers. -/
structure Quiescent (cfg : SstManagerConfig) (part : K → ℕ) (db : Database K) : Prop where
  pending : db.pendingFlushes.Pairwise fun q q' => q.1 < q'.1
  sorted : ∀ p, ∀ X ∈ ((db.partitions p).levelList cfg).flatten, X.Sorted
  keys : ∀ p, ∀ X ∈ ((db.partitions p).levelList cfg).flatten, ∀ r ∈ X.entries, part r.key = p
  decodable : ∀ p, ∀ X ∈ db.stored cfg p, X.AllDecodable
  epochs : ∀ p, (db.stored cfg p).Pairwise fun X Y => X.epoch ≠ Y.epoch
  recency : ∀ p, ∀ X ∈ db.stored cfg p, ∀ Y ∈ db.stored cfg p, X.epoch < Y.epoch →
    ∀ r ∈ X.entries, ∀ r' ∈ Y.entries, r.key = r'.key → r.stamp < r'.stamp
  current : ∀ p, ∀ X ∈ db.stored cfg p, X.epoch ≤ db.flushIteration
  flushIteration : db.flushIteration ≤ uint64Max
  stamps : ∀ X ∈ db.unflushed, ∀ r ∈ X.entries, r.stamp ≤ db.seqNr
  seqNr : db.seqNr ≤ uint64Max

variable {X : Sst K} {r : Record K}

section

omit [LinearOrder K]

theorem lastWriteIn_singleton :
    LastWriteIn [X] r ↔
      r ∈ X.entries ∧ ∀ r' ∈ X.entries, r'.key = r.key → r'.stamp ≤ r.stamp := by
  constructor
  · rintro ⟨⟨Y, hY, hr⟩, hnewest⟩
    obtain rfl := mem_singleton.mp hY
    exact ⟨hr, hnewest Y hY⟩
  · rintro ⟨hr, hnewest⟩
    refine ⟨⟨X, mem_cons_self, hr⟩, fun Y hY => ?_⟩
    obtain rfl := mem_singleton.mp hY
    exact hnewest

theorem exists_lastWriteIn {l : List (Sst K)} (hX : X ∈ l) (hr : r ∈ X.entries) :
    ∃ r', LastWriteIn l r' ∧ r'.key = r.key := by
  classical
  have hmem : ∀ r', r' ∈ (l.flatMap Sst.entries).filter (·.key = r.key) ↔
      (∃ Y ∈ l, r' ∈ Y.entries) ∧ r'.key = r.key := by
    intro r'
    rw [mem_filter, mem_flatMap, decide_eq_true_eq]
  have hne := ne_nil_of_mem ((hmem r).mpr ⟨⟨X, hX, hr⟩, rfl⟩)
  obtain ⟨r', hr', hmax⟩ := foldl_max_mem Record.stamp hne
  obtain ⟨hstored, hkey⟩ := (hmem r').mp hr'
  refine ⟨r', ⟨hstored, fun Y hY r'' hr'' hkey' => ?_⟩, hkey⟩
  rw [← hmax]
  exact (le_foldl_max Record.stamp _ 0).2 r'' ((hmem r'').mpr ⟨⟨Y, hY, hr''⟩, hkey'.trans hkey⟩)

theorem liveIn_append_iff {l l' : List (Sst K)} {k : K}
    (hnot : ∀ X ∈ l', ∀ r ∈ X.entries, r.key ≠ k) :
    LiveIn (l ++ l') k ↔ LiveIn l k := by
  constructor
  · rintro ⟨r, ⟨⟨X, hX, hr⟩, hnewest⟩, rfl, hlive⟩
    rcases mem_append.mp hX with hX' | hX'
    · exact ⟨r, ⟨⟨X, hX', hr⟩, fun Y hY => hnewest Y (mem_append_left _ hY)⟩, rfl, hlive⟩
    · exact absurd rfl (hnot X hX' r hr)
  · rintro ⟨r, ⟨⟨X, hX, hr⟩, hnewest⟩, rfl, hlive⟩
    refine ⟨r, ⟨⟨X, mem_append_left _ hX, hr⟩, fun Y hY r' hr' hkey => ?_⟩, rfl, hlive⟩
    rcases mem_append.mp hY with hY' | hY'
    · exact hnewest Y hY' r' hr' hkey
    · exact absurd hkey (hnot Y hY' r' hr')

end

/-! ### States that a run reaches -/

section Reached

variable {cfg : SstManagerConfig} {part : K → ℕ} {db db' : Database K}

/-- The SSTs of a partition hold keys of the partition. -/
def PartitionKeys (part : K → ℕ) (db : Database K) : Prop :=
  ∀ p i, ∀ X ∈ (db.partitions p).levels i, ∀ r ∈ X.entries, part r.key = p

theorem part_flushedSst {fileId epoch p : ℕ} {table : Skiplist K}
    (hr : r ∈ (flushedSst part fileId epoch table p).entries) : part r.key = p := by
  obtain ⟨e, he, rfl⟩ := mem_exportAsSst hr
  exact of_decide_eq_true (mem_filter.mp he).2

theorem length_flushedSst {epoch : ℕ} {table : Skiplist K} (fileId p : ℕ) :
    (flushedSst part fileId epoch table p).entries.length ≤ table.entries.length := by
  rw [flushedSst, exportAsSst, length_map, writeIndex_fst]
  exact ((firsts_sublist none _).trans filter_sublist).length_le

omit [LinearOrder K] in
theorem mem_levelList {s : PartitionState K} :
    X ∈ (s.levelList cfg).flatten ↔ ∃ i < cfg.maxNumLevels, X ∈ s.levels i := by
  simp [levelList]

theorem PartitionKeys.step (hcfg : cfg.Valid) (h : PartitionKeys part db) (hinv : LsmInv cfg db)
    {a : DatabaseStep K} (hstep : databaseStep cfg part db a = some db') :
    PartitionKeys part db' := by
  cases a with
  | put key value =>
    cases hstep
    exact h
  | remove key =>
    cases hstep
    exact h
  | switch epoch =>
    obtain ⟨-, rfl⟩ := databaseStep_switch hstep
    exact h
  | flush =>
    obtain ⟨epoch, table, rest, ssts, -, hok, rfl⟩ := databaseStep_flush hstep
    intro p i X hX r hr
    rcases mem_flushed hok hX with hX' | ⟨-, j, rfl⟩
    · exact h p i X hX' r hr
    · exact part_flushedSst hr
  | compaction p a =>
    obtain ⟨ha, t, ht, rfl⟩ := databaseStep_compaction hstep
    intro q i X hX r hr
    rw [setPartition] at hX
    dsimp only at hX
    rw [Function.update_apply] at hX
    split at hX
    · next hq =>
      subst hq
      rcases (hinv.partition q).mem_levels hcfg ha ht hX with hX' | ⟨level, inputs, hin, hout⟩
      · exact h q i X hX' r hr
      · obtain ⟨I, hI, hrI⟩ := hout.entries r hr
        exact h q level I (hin I hI) r hrI
    · exact h q i X hX r hr

theorem LsmInv.quiescent (h : LsmInv cfg db) (hkeys : PartitionKeys part db)
    (hepoch : db.flushIteration ≤ uint64Max) (hseq : db.seqNr ≤ uint64Max) :
    Quiescent cfg part db := by
  have hlevel : ∀ {p X}, X ∈ ((db.partitions p).levelList cfg).flatten →
      ∃ i, X ∈ (db.partitions p).levels i := by
    intro p X hX
    obtain ⟨i, -, hXi⟩ := mem_levelList.mp hX
    exact ⟨i, hXi⟩
  have hcurr : tableRun db.flushIteration db.table ∈ db.unflushed :=
    mem_append_right _ mem_cons_self
  -- of two parts of what is stored one is older
  have horder : ∀ p, (db.stored cfg p).Pairwise fun X Y => Older X Y ∨ Older Y X := by
    intro p
    refine pairwise_append.mpr ⟨h.ordered.imp .inl, ?_, fun B hB Y hY => ?_⟩
    · have hlevels := (h.partition p).inv.levels
      rw [PartitionState.levelList, pairwise_flatten]
      refine ⟨fun l hl => ?_, pairwise_map.mpr (pairwise_lt_range.imp ?_)⟩
      · obtain ⟨i, -, rfl⟩ := mem_map.mp hl
        exact (hlevels.pairwise i).imp .inl
      · exact fun {i j} hij X hX Y hY => .inr (hlevels.across i j hij X hX Y hY)
    · obtain ⟨i, hYi⟩ := hlevel hY
      exact .inr (h.newer p i Y hYi B hB)
  have hcompare : ∀ p, ∀ X ∈ db.stored cfg p, ∀ Y ∈ db.stored cfg p, X.epoch < Y.epoch →
      Older X Y := by
    intro p X hX Y hY hlt
    have : Std.Symm fun X Y : Sst K => Older X Y ∨ Older Y X := ⟨fun _ _ => Or.symm⟩
    rcases (horder p).forall hX hY (fun heq => hlt.ne (congrArg Sst.epoch heq)) with hXY | hYX
    · exact hXY
    · exact absurd hlt hYX.1.not_gt
  have hpending : db.pendingFlushes.Pairwise fun q q' => q.1 < q'.1 := by
    refine (pairwise_map.mp (pairwise_append.mp h.ordered).1).imp ?_
    exact fun hold => hold.1
  refine ⟨hpending, ?_, ?_, ?_, ?_, ?_, ?_, hepoch,
    fun X hX r hr => (h.stamps X (.inl hX) r hr).le, hseq⟩
  · intro p X hX
    obtain ⟨i, hi⟩ := hlevel hX
    exact ((h.partition p).inv.levels.sst i X hi).2.1
  · intro p X hX
    obtain ⟨i, hi⟩ := hlevel hX
    exact hkeys p i X hi
  · intro p X hX
    rcases mem_append.mp hX with hX' | hX'
    · exact h.decodable X hX'
    · obtain ⟨i, hi⟩ := hlevel hX'
      exact ((h.partition p).inv.levels.sst i X hi).2.2
  · intro p
    refine (horder p).imp ?_
    rintro X Y (hXY | hYX)
    · exact hXY.1.ne
    · exact hYX.1.ne'
  · exact fun p X hX Y hY hlt r hr r' hr' _ => (hcompare p X hX Y hY hlt).2 r hr r' hr'
  · intro p X hX
    rcases mem_append.mp hX with hX' | hX'
    · rcases mem_append.mp hX' with hpending | hself
      · exact ((pairwise_append.mp h.ordered).2.2 X hpending _ mem_cons_self).1.le
      · rw [mem_singleton.mp hself]
        exact le_rfl
    · obtain ⟨i, hi⟩ := hlevel hX'
      exact (h.newer p i X hi _ hcurr).1.le

theorem quiescent_of_run (hcfg : cfg.Valid) (as : List (DatabaseStep K))
    (hall : Run.AllSteps (databaseStep cfg part) (fun db a => a.Upper cfg db) {} as)
    (hrun : Run.exec (databaseStep cfg part) {} as = some db)
    (hepoch : db.flushIteration ≤ uint64Max) (hseq : db.seqNr ≤ uint64Max) :
    Quiescent cfg part db := by
  obtain ⟨hrefines, hkeys⟩ : Refines cfg part db (lastWrites as) ∧ PartitionKeys part db := by
    refine Run.exec_simulation (R := fun db m => Refines cfg part db m ∧ PartitionKeys part db)
      (fun db m a db' h ha hstep => ?_) ⟨refines_initial, fun p i X hX => by cases hX⟩ hall hrun
    exact ⟨h.1.step hcfg ha hstep, h.2.step hcfg h.1.inv hstep⟩
  exact hrefines.inv.quiescent hkeys hepoch hseq

end Reached

/-! ### What flushes keep -/

def DatabaseStep.isFlush : DatabaseStep K → Bool
  | .switch _ | .flush => true
  | .put _ _ | .remove _ | .compaction _ _ => false

/-- What is stored for partition `p` beside the current table. -/
def Database.others (cfg : SstManagerConfig) (db : Database K) (p : ℕ) : List (Sst K) :=
  db.pendingFlushes.map (fun q => tableRun q.1 q.2) ++ ((db.partitions p).levelList cfg).flatten

section Flushes

variable {cfg : SstManagerConfig} {part : K → ℕ} {db db' : Database K} {p epoch : ℕ} {k : K}

omit [LinearOrder K] in
theorem liveIn_congr {l l' : List (Sst K)}
    (hsub : ∀ X ∈ l', ∀ r ∈ X.entries, r.key = k → ∃ Y ∈ l, r ∈ Y.entries)
    (hlast : ∀ r, LastWriteIn l r → r.key = k → ∃ X ∈ l', r ∈ X.entries) :
    LiveIn l' k ↔ LiveIn l k := by
  constructor
  · rintro ⟨r, ⟨⟨X, hX, hr⟩, hnewest⟩, rfl, hlive⟩
    refine ⟨r, ⟨hsub X hX r hr rfl, fun Y hY r' hr' hkey => ?_⟩, rfl, hlive⟩
    obtain ⟨r₀, hwrite, hkey₀⟩ := exists_lastWriteIn hY hr'
    obtain ⟨X₀, hX₀, hr₀⟩ := hlast r₀ hwrite (hkey₀.trans hkey)
    exact (hwrite.newest Y hY r' hr' hkey₀.symm).trans (hnewest X₀ hX₀ r₀ hr₀ (hkey₀.trans hkey))
  · rintro ⟨r, hwrite, rfl, hlive⟩
    refine ⟨r, ⟨hlast r hwrite rfl, fun X hX r' hr' hkey => ?_⟩, rfl, hlive⟩
    obtain ⟨Y, hY, hr''⟩ := hsub X hX r' hr' hkey
    exact hwrite.newest Y hY r' hr'' hkey

theorem Database.stored_perm : (db.stored cfg p).Perm
    (tableRun db.flushIteration db.table :: db.others cfg p) := by
  rw [stored, unflushed, append_assoc, singleton_append]
  exact perm_middle

theorem Quiescent.others_lt (h : Quiescent cfg part db) (hX : X ∈ db.others cfg p) :
    X.epoch < db.flushIteration := by
  have hne := (stored_perm.pairwise_iff Ne.symm).mp (h.epochs p)
  exact lt_of_le_of_ne (h.current p X (stored_perm.mem_iff.mpr (mem_cons_of_mem _ hX)))
    ((pairwise_cons.mp hne).1 X hX).symm

theorem Database.stored_switch : ((db.switch epoch).stored cfg p).Perm
    (tableRun (epoch + 1) .empty :: tableRun epoch db.table :: db.others cfg p) := by
  refine stored_perm.trans (.cons _ ?_)
  rw [others, Database.switch, map_append, append_assoc]
  exact perm_middle

theorem Database.mem_stored_switch (hX : X ∈ (db.switch epoch).stored cfg p) :
    X = tableRun (epoch + 1) .empty ∨ X = tableRun epoch db.table ∨ X ∈ db.others cfg p := by
  simpa using stored_switch.mem_iff.mp hX

theorem Quiescent.switch (h : Quiescent cfg part db) (he : db.flushIteration ≤ epoch)
    (hmax : epoch + 1 ≤ uint64Max) : Quiescent cfg part (db.switch epoch) := by
  have hcurr : ∀ p, tableRun db.flushIteration db.table ∈ db.stored cfg p :=
    fun p => stored_perm.mem_iff.mpr mem_cons_self
  have hother : ∀ {p X}, X ∈ db.others cfg p → X ∈ db.stored cfg p :=
    fun hX => stored_perm.mem_iff.mpr (mem_cons_of_mem _ hX)
  refine ⟨?_, h.sorted, h.keys, fun p X hX => ?_, fun p => ?_,
    fun p X hX Y hY hlt r hr r' hr' hkey => ?_, fun p X hX => ?_, hmax, fun X hX r hr => ?_, h.seqNr⟩
  · refine pairwise_append.mpr ⟨h.pending, pairwise_singleton _ _, fun q hq q' hq' => ?_⟩
    rw [mem_singleton.mp hq']
    have hmem : tableRun q.1 q.2 ∈ db.others cfg 0 := mem_append_left _ (mem_map_of_mem hq)
    exact (h.others_lt hmem).trans_le he
  · rcases mem_stored_switch hX with rfl | rfl | hX'
    · exact fun r hr => by cases hr
    · exact fun r hr => h.decodable p _ (hcurr p) r hr
    · exact h.decodable p X (hother hX')
  · refine (stored_switch.pairwise_iff Ne.symm).mpr (pairwise_cons.mpr ⟨fun X hX => ?_,
      pairwise_cons.mpr ⟨fun X hX => ?_, ?_⟩⟩)
    · rcases mem_cons.mp hX with rfl | hX'
      · exact (Nat.lt_succ_self epoch).ne'
      · exact ((h.others_lt hX').trans (Nat.lt_succ_of_le he)).ne'
    · exact ((h.others_lt hX).trans_le he).ne'
    · exact (pairwise_cons.mp ((stored_perm.pairwise_iff Ne.symm).mp (h.epochs p))).2
  · rcases mem_stored_switch hX with rfl | hX'
    · cases hr
    rcases mem_stored_switch hY with rfl | hY'
    · cases hr'
    rcases hX' with rfl | hX' <;> rcases hY' with rfl | hY'
    · exact absurd hlt (lt_irrefl _)
    · exact absurd hlt ((h.others_lt hY').trans_le he).not_gt
    · exact h.recency p X (hother hX') _ (hcurr p) (h.others_lt hX') r hr r' hr' hkey
    · exact h.recency p X (hother hX') Y (hother hY') hlt r hr r' hr' hkey
  · rcases mem_stored_switch hX with rfl | rfl | hX'
    · exact le_rfl
    · exact Nat.le_succ epoch
    · exact ((h.others_lt hX').trans (Nat.lt_succ_of_le he)).le
  · rcases mem_append.mp hX with hX' | hX'
    · rw [Database.switch, map_append, mem_append] at hX'
      rcases hX' with hpending | hself
      · exact h.stamps X (mem_append_left _ hpending) r hr
      · obtain rfl := mem_singleton.mp hself
        exact h.stamps _ (mem_append_right _ mem_cons_self) r hr
    · obtain rfl := mem_singleton.mp hX'
      cases hr

variable {table : Skiplist K} {rest : List (ℕ × Skiplist K)} {ssts : List (Sst K)}

omit [LinearOrder K] in
theorem levelList_push (hcfg : 1 ≤ cfg.maxNumLevels) (s : PartitionState K) (X : Sst K) :
    ((s.pushNewSstsToL0 X).levelList cfg).flatten.Perm (X :: (s.levelList cfg).flatten) := by
  obtain ⟨n, hn⟩ : ∃ n, cfg.maxNumLevels = n + 1 := ⟨cfg.maxNumLevels - 1, by omega⟩
  simp [levelList, hn, range_succ_eq_map, pushNewSstsToL0, Function.comp_def]

theorem Database.unflushed_flushed (hpend : db.pendingFlushes = (epoch, table) :: rest)
    (ssts : List (Sst K)) :
    db.unflushed = tableRun epoch table :: (db.flushed rest ssts).unflushed := by
  rw [unflushed, hpend, map_cons, cons_append]
  rfl

theorem find_of_lastWrite (hwrite : LastWriteIn [tableRun epoch table] r) :
    (tableRun epoch table).find r.key = some r := by
  obtain ⟨hr, hnewest⟩ := lastWriteIn_singleton.mp hwrite
  obtain ⟨a, ha, rfl⟩ := mem_map.mp hr
  rw [find_tableRun, Skiplist.get_eq_lookup]
  change Option.map _ (lookup MemtableEntry.key table.entries a.key) = _
  rcases hfind : lookup MemtableEntry.key table.entries a.key with - | b
  · exact absurd rfl (lookup_eq_none_iff.mp hfind a ha)
  · obtain ⟨hb, hkey⟩ := lookup_mem hfind
    have hle : a.seq ≤ b.seq := lookup_newest table.sorted hfind ha rfl
    have hge : b.seq ≤ a.seq := hnewest b.toRecord (mem_map_of_mem hb) hkey
    -- the order of the list tells entries apart by key and number
    have : Std.Symm fun a b : MemtableEntry K => memtableCmp a b = true ∨ memtableCmp b a = true :=
      ⟨fun _ _ => Or.symm⟩
    have hordered : table.entries.Pairwise fun a b =>
        memtableCmp a b = true ∨ memtableCmp b a = true :=
      table.sorted.imp Or.inl
    by_contra hne
    have hab : a ≠ b := fun heq => hne (heq ▸ rfl)
    rcases hordered.forall ha hb hab with hcmp | hcmp <;>
      rcases memtableCmp_iff.mp hcmp with hlt | ⟨-, hlt⟩
    · exact hlt.ne hkey.symm
    · omega
    · exact hlt.ne hkey
    · omega

section Flush

variable (hcfg : 1 ≤ cfg.maxNumLevels) (hpend : db.pendingFlushes = (epoch, table) :: rest)
  (hok : flushMemtable part db.nextFileId epoch table.entries = .ok ssts)

include hcfg hpend hok

/-- A flush replaces the oldest table by the SST of the partition, or by nothing if it has
no key of it. -/
theorem Database.others_flushed (p : ℕ) :
    ∃ l, db.others cfg p = tableRun epoch table :: l ∧
      ((db.flushed rest ssts).others cfg p = l ∧
          (∀ k, part k = p → (tableRun epoch table).find k = none) ∨
        ∃ i, ((db.flushed rest ssts).others cfg p).Perm
          (flushedSst part (db.nextFileId + i) epoch table p :: l)) := by
  refine ⟨_, by rw [others, hpend, map_cons, cons_append], ?_⟩
  rw [others]
  rcases flushed_partition rest hok p with ⟨hsame, hnone⟩ | ⟨i, -, -, hpush⟩
  · exact .inl ⟨by rw [hsame]; rfl, hnone⟩
  · refine .inr ⟨i, ?_⟩
    rw [hpush]
    exact ((levelList_push hcfg _ _).append_left _).trans perm_middle

theorem Database.mem_stored_flushed (hX : X ∈ (db.flushed rest ssts).stored cfg p) :
    ∃ Y ∈ db.stored cfg p, Y.epoch = X.epoch ∧ X.entries ⊆ Y.entries := by
  obtain ⟨l, hothers, hflushed⟩ := others_flushed hcfg hpend hok p
  have hstored : ∀ Y, Y = tableRun db.flushIteration db.table ∨ Y = tableRun epoch table ∨ Y ∈ l →
      Y ∈ db.stored cfg p := by
    intro Y hY
    rw [stored_perm.mem_iff, hothers]
    simpa using hY
  rcases mem_cons.mp (stored_perm.mem_iff.mp hX) with rfl | hX'
  · exact ⟨_, hstored _ (.inl rfl), rfl, Subset.refl _⟩
  · rcases hflushed with ⟨hsame, -⟩ | ⟨i, hpush⟩
    · exact ⟨X, hstored X (.inr (.inr (hsame ▸ hX'))), rfl, Subset.refl _⟩
    · rcases mem_cons.mp (hpush.mem_iff.mp hX') with rfl | hX''
      · exact ⟨_, hstored _ (.inr (.inl rfl)), rfl, flushedSst_entries _ p⟩
      · exact ⟨X, hstored X (.inr (.inr hX'')), rfl, Subset.refl _⟩

theorem Quiescent.flushed (h : Quiescent cfg part db) :
    Quiescent cfg part (db.flushed rest ssts) := by
  have hlevel : ∀ {p X}, X ∈ (((db.flushed rest ssts).partitions p).levelList cfg).flatten →
      X ∈ ((db.partitions p).levelList cfg).flatten ∨
        ∃ i, X = flushedSst part (db.nextFileId + i) epoch table p := by
    intro p X hX
    obtain ⟨i, hi, hXi⟩ := mem_levelList.mp hX
    rcases mem_flushed hok hXi with hX' | ⟨-, hnew⟩
    · exact .inl (mem_levelList.mpr ⟨i, hi, hX'⟩)
    · exact .inr hnew
  refine ⟨?_, fun p X hX => ?_, fun p X hX => ?_, fun p X hX => ?_, fun p => ?_,
    fun p X hX Y hY hlt r hr r' hr' => ?_, fun p X hX => ?_, h.flushIteration, fun X hX => ?_,
    h.seqNr⟩
  · exact (pairwise_cons.mp (hpend ▸ h.pending)).2
  · rcases hlevel hX with hX' | ⟨i, rfl⟩
    · exact h.sorted p X hX'
    · exact exportAsSst_sorted _ _ (sorted_range table p)
  · rcases hlevel hX with hX' | ⟨i, rfl⟩
    · exact h.keys p X hX'
    · exact fun r hr => part_flushedSst hr
  · obtain ⟨Y, hY, -, hsub⟩ := mem_stored_flushed hcfg hpend hok hX
    exact fun r hr => h.decodable p Y hY r (hsub hr)
  · -- the SST has the epoch of its table
    obtain ⟨l, hothers, hflushed⟩ := others_flushed hcfg hpend hok p
    have hbefore := (stored_perm.pairwise_iff Ne.symm).mp (h.epochs p)
    rw [hothers, ← pairwise_map (f := Sst.epoch) (R := (· ≠ ·))] at hbefore
    refine (stored_perm.pairwise_iff Ne.symm).mpr ?_
    rcases hflushed with ⟨hsame, -⟩ | ⟨i, hpush⟩
    · rw [hsame, ← pairwise_map (f := Sst.epoch) (R := (· ≠ ·))]
      exact hbefore.sublist (((sublist_cons_self _ l).cons_cons _).map Sst.epoch)
    · refine ((hpush.cons _).pairwise_iff Ne.symm).mpr ?_
      exact pairwise_map.mp hbefore
  · obtain ⟨X', hX', he, hsub⟩ := mem_stored_flushed hcfg hpend hok hX
    obtain ⟨Y', hY', he', hsub'⟩ := mem_stored_flushed hcfg hpend hok hY
    exact h.recency p X' hX' Y' hY' (he.symm ▸ he'.symm ▸ hlt) r (hsub hr) r' (hsub' hr')
  · obtain ⟨Y, hY, he, -⟩ := mem_stored_flushed hcfg hpend hok hX
    exact he ▸ h.current p Y hY
  · exact h.stamps X (unflushed_flushed hpend ssts ▸ mem_cons_of_mem _ hX)

theorem Quiescent.liveKey_flushed (k : K) :
    (db.flushed rest ssts).LiveKey cfg part k ↔ db.LiveKey cfg part k := by
  refine liveIn_congr (fun X hX r hr _ => ?_) fun r hwrite hkey => ?_
  · obtain ⟨Y, hY, -, hsub⟩ := mem_stored_flushed hcfg hpend hok hX
    exact ⟨Y, hY, hsub hr⟩
  · obtain ⟨l, hothers, hflushed⟩ := others_flushed hcfg hpend hok (part k)
    obtain ⟨X, hX, hr⟩ := hwrite.mem
    have hX' := stored_perm.mem_iff.mp hX
    rw [hothers, mem_cons, mem_cons] at hX'
    rcases hX' with rfl | rfl | hX'
    · exact ⟨_, stored_perm.mem_iff.mpr mem_cons_self, hr⟩
    · have hfind := find_of_lastWrite (lastWriteIn_singleton.mpr ⟨hr, hwrite.newest _ hX⟩)
      rw [hkey] at hfind
      rcases hflushed with ⟨-, hnone⟩ | ⟨i, hpush⟩
      · rw [hnone k rfl] at hfind
        cases hfind
      · refine ⟨_, stored_perm.mem_iff.mpr (mem_cons_of_mem _
          (hpush.mem_iff.mpr mem_cons_self)), ?_⟩
        rw [← find_flushedSst part (db.nextFileId + i)] at hfind
        exact (lookup_mem hfind).1
    · refine ⟨X, stored_perm.mem_iff.mpr (mem_cons_of_mem _ ?_), hr⟩
      rcases hflushed with ⟨hsame, -⟩ | ⟨i, hpush⟩
      · exact hsame ▸ hX'
      · exact hpush.mem_iff.mpr (mem_cons_of_mem _ hX')

end Flush

theorem Quiescent.liveIn_flushed (h : Quiescent cfg part db)
    (hpend : db.pendingFlushes = (epoch, table) :: rest)
    (hlive : LiveIn (db.flushed rest ssts).unflushed k) : LiveIn db.unflushed k := by
  obtain ⟨r, ⟨⟨X, hX, hr⟩, hnewest⟩, rfl, hvalue⟩ := hlive
  have hunflushed := unflushed_flushed hpend ssts
  have hmem : ∀ {Y}, Y ∈ db.unflushed → Y ∈ db.stored cfg 0 := fun hY => mem_append_left _ hY
  refine ⟨r, ⟨⟨X, hunflushed ▸ mem_cons_of_mem _ hX, hr⟩, fun Y hY r' hr' hkey => ?_⟩, rfl, hvalue⟩
  rcases mem_cons.mp (hunflushed ▸ hY) with rfl | hY'
  · have holder : epoch < X.epoch := by
      rcases mem_append.mp hX with hpending | hself
      · obtain ⟨q, hq, rfl⟩ := mem_map.mp hpending
        exact (pairwise_cons.mp (hpend ▸ h.pending)).1 q hq
      · obtain rfl := mem_singleton.mp hself
        have hothers : tableRun epoch table ∈ db.others cfg 0 :=
          mem_append_left _ (mem_map.mpr ⟨(epoch, table), hpend ▸ mem_cons_self, rfl⟩)
        exact h.others_lt hothers
    exact (h.recency 0 _ (hmem hY) X (hmem (hunflushed ▸ mem_cons_of_mem _ hX)) holder r' hr' r hr
      hkey).le
  · exact hnewest Y hY' r' hr' hkey

omit [LinearOrder K] in
theorem liveIn_of_records {l l' : List (Sst K)}
    (h : ∀ r, (∃ X ∈ l', r ∈ X.entries) ↔ ∃ X ∈ l, r ∈ X.entries) : LiveIn l' k ↔ LiveIn l k :=
  liveIn_congr (fun X hX r hr _ => (h r).mp ⟨X, hX, hr⟩) fun r hwrite _ => (h r).mpr hwrite.mem

theorem Quiescent.flushStep (hcfg : 1 ≤ cfg.maxNumLevels) (h : Quiescent cfg part db)
    {a : DatabaseStep K} (ha : a.isFlush = true) (hstep : databaseStep cfg part db a = some db')
    (hmax : db'.flushIteration ≤ uint64Max) :
    Quiescent cfg part db' ∧ (∀ k, db'.LiveKey cfg part k ↔ db.LiveKey cfg part k) ∧
      ∀ k, LiveIn db'.unflushed k → LiveIn db.unflushed k := by
  cases a with
  | put | remove | compaction => cases ha
  | switch epoch =>
    obtain ⟨he, rfl⟩ := databaseStep_switch hstep
    have hrecords : ∀ p r, (∃ X ∈ (db.switch epoch).stored cfg p, r ∈ X.entries) ↔
        ∃ X ∈ db.stored cfg p, r ∈ X.entries := by
      intro p r
      simp only [stored_switch.mem_iff, stored_perm.mem_iff, mem_cons,
        exists_eq_or_imp]
      exact or_iff_right not_mem_nil
    refine ⟨h.switch he hmax, fun k => liveIn_of_records (hrecords _), fun k => ?_⟩
    refine (liveIn_of_records fun r => ?_).mp
    simp only [unflushed, Database.switch, map_append, map_cons, map_nil, mem_append,
      mem_singleton, or_and_right, exists_or, exists_eq_left]
    exact or_iff_left not_mem_nil
  | flush =>
    obtain ⟨epoch, table, rest, ssts, hpend, hok, rfl⟩ := databaseStep_flush hstep
    exact ⟨h.flushed hcfg hpend hok, Quiescent.liveKey_flushed hcfg hpend hok,
      fun k => h.liveIn_flushed hpend⟩

theorem flushIteration_le {a : DatabaseStep K} (hstep : databaseStep cfg part db a = some db') :
    db.flushIteration ≤ db'.flushIteration := by
  cases a with
  | put | remove =>
    cases hstep
    exact le_rfl
  | switch epoch =>
    obtain ⟨he, rfl⟩ := databaseStep_switch hstep
    exact he.trans (Nat.le_succ epoch)
  | flush =>
    obtain ⟨epoch, table, rest, ssts, -, -, rfl⟩ := databaseStep_flush hstep
    exact le_rfl
  | compaction p a =>
    obtain ⟨-, t, -, rfl⟩ := databaseStep_compaction hstep
    exact le_rfl

end Flushes

section FlushRun

variable {cfg : SstManagerConfig} {e : ℕ} {db db' : Database Bytes}

theorem Database.TablesReadBack.flushStep (htables : db.TablesReadBack e)
    (hssts : db.SstsReadBack cfg) {a : DatabaseStep Bytes} (ha : a.isFlush = true)
    (hstep : databaseStep cfg (findMatchingPartitionForKey e) db a = some db') :
    db'.TablesReadBack e ∧ db'.SstsReadBack cfg := by
  cases a with
  | put | remove | compaction => cases ha
  | switch epoch =>
    obtain ⟨-, rfl⟩ := databaseStep_switch hstep
    refine ⟨fun t ht => ?_, hssts⟩
    rcases mem_append.mp ht with ht' | ht'
    · rw [Database.switch, map_append] at ht'
      exact htables t ht'
    · obtain rfl := mem_singleton.mp ht'
      refine ⟨⟨forall_mem_nil _, forall_mem_nil _, forall_mem_nil _⟩, ?_⟩
      show [].length * pageSizeInBytes < 2 ^ 64
      decide
  | flush =>
    obtain ⟨epoch, table, rest, ssts, hpend, hok, rfl⟩ := databaseStep_flush hstep
    have htable := htables table (by rw [hpend]; exact mem_cons_self)
    refine ⟨fun t ht => htables t ?_, fun p X hX => ?_⟩
    · rw [hpend]
      exact mem_cons_of_mem _ ht
    · obtain ⟨i, hi, hXi⟩ := mem_levelList.mp hX
      rcases mem_flushed hok hXi with hX' | ⟨hmem, j, rfl⟩
      · exact hssts p X (mem_levelList.mpr ⟨i, hi, hX'⟩)
      · refine ⟨htable.1.readsBack hok _ hmem, lt_of_le_of_lt ?_ htable.2⟩
        exact Nat.mul_le_mul_right _ (length_flushedSst _ p)

/-- **Flushes keep** a database at rest, its live keys, and that it is read back. -/
theorem exec_flushes (hcfg : 1 ≤ cfg.maxNumLevels)
    (h : Quiescent cfg (findMatchingPartitionForKey e) db) (hssts : db.SstsReadBack cfg)
    (htables : db.TablesReadBack e) {as : List (DatabaseStep Bytes)}
    (has : ∀ a ∈ as, a.isFlush = true)
    (hrun : Run.exec (databaseStep cfg (findMatchingPartitionForKey e)) db as = some db')
    (hmax : db'.flushIteration ≤ uint64Max) :
    Quiescent cfg (findMatchingPartitionForKey e) db' ∧ db'.SstsReadBack cfg ∧
      (∀ k, db'.LiveKey cfg (findMatchingPartitionForKey e) k ↔
        db.LiveKey cfg (findMatchingPartitionForKey e) k) ∧
      ∀ k, LiveIn db'.unflushed k → LiveIn db.unflushed k := by
  -- the counter only grows, so what it is bounded by at the end bounds it all along
  have hinv := Run.exec_invariant (I := fun d : Database Bytes => d.TablesReadBack e ∧
      d.SstsReadBack cfg ∧ (d.flushIteration ≤ uint64Max →
        Quiescent cfg (findMatchingPartitionForKey e) d ∧
          (∀ k, d.LiveKey cfg (findMatchingPartitionForKey e) k ↔
            db.LiveKey cfg (findMatchingPartitionForKey e) k) ∧
          ∀ k, LiveIn d.unflushed k → LiveIn db.unflushed k))
    (fun d a d' hd ha hstep => ?_) ⟨htables, hssts, fun _ => ⟨h, fun _ => .rfl, fun _ => id⟩⟩
    (Run.allSteps_of_forall has) hrun
  · obtain ⟨hq, hlive, hmem⟩ := hinv.2.2 hmax
    exact ⟨hq, hinv.2.1, hlive, hmem⟩
  · obtain ⟨htables', hssts'⟩ := hd.1.flushStep hd.2.1 ha hstep
    refine ⟨htables', hssts', fun hmax' => ?_⟩
    obtain ⟨hq, hlive, hmem⟩ := hd.2.2 ((flushIteration_le hstep).trans hmax')
    obtain ⟨hq', hlive', hmem'⟩ := hq.flushStep hcfg ha hstep hmax'
    exact ⟨hq', fun k => (hlive' k).trans (hlive k), fun k hk => hmem k (hmem' k hk)⟩

end FlushRun

end HedgeDB
