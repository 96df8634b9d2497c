/-
HedgeDB/Recovery.lean

What a load brings back.

A history of puts is partly in the SSTs, up to some number, and the rest is in
the WAL.  The threshold `max_seq_nr` passed to the replay is inclusive, and it is
0 when there is no SST.  So a load inserts again exactly the writes that are not
in the SSTs, and every key reads as last put, if some write is in the SSTs or
there is no write at all, and the arena takes the values (`load_recovers_iff`);
with no SST write 0 is lost (`load_skips_write_zero`).
-/
import HedgeDB.Replay
import HedgeDB.LevelOrder

namespace HedgeDB

open List hiding lookup_cons lookup_append lookup
open PartitionState KeyedList Option

variable {K : Type*} [LinearOrder K]

/-! ### What a load brings back -/

/-- The writes of a history, numbered from `s`, as they stand in the WAL. -/
def walEntriesFrom : ℕ → List (K × Bytes) → List (WalEntry K)
  | _, [] => []
  | s, w :: ws => ⟨s, w.1, encodeValue .inPlaceValue w.2⟩ :: walEntriesFrom (s + 1) ws

/-- Write `s` of a history. -/
def writeAt (history : List (K × Bytes)) (s : ℕ) : Option (WalEntry K) :=
  history[s]?.map fun w => ⟨s, w.1, encodeValue .inPlaceValue w.2⟩

/-- The value of the last put under a key. -/
def lastPut (history : List (K × Bytes)) (k : K) : Option Bytes :=
  (lookup Prod.fst history.reverse k).map Prod.snd

/-- The SSTs hold exactly the first `n` writes: every record is one of them, the
newest version of every key is there, and the footers are right. -/
structure SstsHold (config : LoadConfig K) (part : K → ℕ) (disk : ℕ → PartitionState K)
    (history : List (K × Bytes)) (n : ℕ) : Prop where
  levels : ∀ p, LevelsOk config.sst p Older (disk p).manifest
  records : ∀ p i, ∀ X ∈ (disk p).manifest i, ∀ r ∈ X.entries,
    part r.key = p ∧ r.stamp < n ∧ writeAt history r.stamp = some ⟨r.stamp, r.key, r.value⟩
  footers : ∀ p i, ∀ X ∈ (disk p).manifest i,
    X.maxSeqNr < n ∧ ∀ r ∈ X.entries, r.stamp ≤ X.maxSeqNr
  newest : ∀ s < n, ∀ e, writeAt history s = some e →
    ∃ i, ∃ X ∈ (disk (part e.key)).manifest i, ∃ r ∈ X.entries, r.key = e.key ∧ s ≤ r.stamp

/-- The WAL holds writes of the history, among them all from `n` on. -/
structure WalHolds (wal : List (WalEntry K)) (history : List (K × Bytes)) (n : ℕ) : Prop where
  nodup : (wal.map WalEntry.seqNr).Nodup
  writes : ∀ e ∈ wal, writeAt history e.seqNr = some e
  all : ∀ s e, n ≤ s → writeAt history s = some e → e ∈ wal

section History

variable {history : List (K × Bytes)} {n : ℕ} {k : K}

section

omit [LinearOrder K]

theorem mem_walEntriesFrom {s : ℕ} {ws : List (K × Bytes)} {e : WalEntry K} :
    e ∈ walEntriesFrom s ws ↔ ∃ i w, ws[i]? = some w ∧
      e = ⟨s + i, w.1, encodeValue .inPlaceValue w.2⟩ := by
  induction ws generalizing s with
  | nil => simp [walEntriesFrom]
  | cons w ws ih =>
    rw [walEntriesFrom, mem_cons, ih]
    constructor
    · rintro (rfl | ⟨i, w', hi, rfl⟩)
      · exact ⟨0, w, rfl, rfl⟩
      · exact ⟨i + 1, w', hi, by rw [Nat.add_assoc, Nat.add_comm 1 i]⟩
    · rintro ⟨- | i, w', hi, rfl⟩
      · obtain rfl := some.inj hi
        exact .inl rfl
      · exact .inr ⟨i, w', hi, by rw [Nat.add_assoc, Nat.add_comm 1 i]⟩

theorem mem_walEntriesFrom_drop {e : WalEntry K} :
    e ∈ walEntriesFrom n (history.drop n) ↔ n ≤ e.seqNr ∧ writeAt history e.seqNr = some e := by
  rw [mem_walEntriesFrom]
  constructor
  · rintro ⟨i, w, hi, rfl⟩
    rw [getElem?_drop] at hi
    exact ⟨Nat.le_add_right _ _, by simp [writeAt, hi]⟩
  · rintro ⟨hle, hw⟩
    obtain ⟨w, hw', he⟩ := map_eq_some_iff.mp hw
    refine ⟨e.seqNr - n, w, ?_, ?_⟩
    · rw [getElem?_drop, Nat.add_sub_cancel' hle, hw']
    · rw [Nat.add_sub_cancel' hle, he]

theorem walEntriesFrom_sorted (s : ℕ) (ws : List (K × Bytes)) :
    (walEntriesFrom s ws).Pairwise fun a b => a.seqNr < b.seqNr := by
  induction ws generalizing s with
  | nil => exact Pairwise.nil
  | cons w ws ih =>
    refine pairwise_cons.mpr ⟨fun e he => ?_, ih (s + 1)⟩
    obtain ⟨i, w', -, rfl⟩ := mem_walEntriesFrom.mp he
    show s < s + 1 + i
    omega

end

theorem lookup_walEntriesFrom (s : ℕ) (ws : List (K × Bytes)) :
    (lookup WalEntry.key (walEntriesFrom s ws).reverse k).map WalEntry.value =
      (lastPut ws k).map (encodeValue .inPlaceValue) := by
  induction ws generalizing s with
  | nil => rfl
  | cons w ws ih =>
    have ih' := ih (s + 1)
    rw [walEntriesFrom, reverse_cons, lookup_append, lastPut, reverse_cons,
      lookup_append, map_or, ih']
    rw [lastPut, map_or, map_or, lookup_cons, lookup_cons]
    congr 1
    split <;> rfl

theorem lastPut_split (n : ℕ) :
    lastPut history k = (lastPut (history.drop n) k).or (lastPut (history.take n) k) := by
  rw [lastPut, lastPut, lastPut, ← map_or, ← lookup_append, ← reverse_append,
    take_append_drop]

end History

/-! ### The threshold -/

section Load

variable {config : LoadConfig K} {part : K → ℕ} {disk : ℕ → PartitionState K}
  {wal : List (WalEntry K)} {history : List (K × Bytes)} {n : ℕ}

omit [LinearOrder K] in
theorem mem_allSsts {cfg : SstManagerConfig} {ids : List ℕ} {partitions : ℕ → PartitionState K}
    {X : Sst K} : X ∈ allSsts cfg ids partitions ↔
      ∃ p ∈ ids, ∃ i < cfg.maxNumLevels, X ∈ (partitions p).levels i := by
  simp [allSsts, levelList]

omit [LinearOrder K] in
theorem le_maxSeqNr {cfg : SstManagerConfig} {ids : List ℕ} {partitions : ℕ → PartitionState K}
    {X : Sst K} (hX : X ∈ allSsts cfg ids partitions) : X.maxSeqNr ≤ maxSeqNr cfg ids partitions :=
  (le_foldl_max Sst.maxSeqNr _ 0).2 X hX

theorem SstsHold.flushedThreshold_eq (h : SstsHold config part disk history n)
    (hids : ∀ k, part k ∈ config.partitionIds) (hn : n ≤ history.length) :
    flushedThreshold config disk = n - 1 := by
  have hupper : flushedThreshold config disk ≤ n - 1 := by
    refine foldl_max_le Sst.maxSeqNr (Nat.zero_le _) fun X hX => ?_
    obtain ⟨p, -, i, -, hXi⟩ := mem_allSsts.mp hX
    exact Nat.le_sub_one_of_lt (h.footers p i X hXi).1
  refine Nat.le_antisymm hupper ?_
  rcases Nat.eq_zero_or_pos n with rfl | hpos
  · exact Nat.zero_le _
  · -- write `n - 1` is the newest version of its key, so its SST records it
    have hlt : n - 1 < history.length := by omega
    obtain ⟨i, X, hX, r, hr, -, hle⟩ := h.newest (n - 1) (by omega)
      ⟨n - 1, _, _⟩ (by rw [writeAt, getElem?_eq_getElem hlt]; rfl)
    have hlevel := (h.levels _).lt_of_mem hX
    exact hle.trans (((h.footers _ i X hX).2 r hr).trans
      (le_maxSeqNr (mem_allSsts.mpr ⟨_, hids _, i, hlevel, hX⟩)))

/-- **The replayed entries are the missing writes**, in order. -/
theorem SstsHold.replayed_eq (h : SstsHold config part disk history n)
    (hw : WalHolds wal history n) (hids : ∀ k, part k ∈ config.partitionIds)
    (hwal : config.disableWal = false) (hn : n ≤ history.length)
    (hcond : n ≠ 0 ∨ history = []) :
    replayed config disk wal = walEntriesFrom n (history.drop n) := by
  have hmem : ∀ e, e ∈ replayed config disk wal ↔ e ∈ walEntriesFrom n (history.drop n) := by
    intro e
    rw [mem_walEntriesFrom_drop, replayed, if_neg (by simp [hwal]), replayedAbove,
      mem_filter, (config.readOrder.perm wal).mem_iff, h.flushedThreshold_eq hids hn]
    simp only [skips, any_some, Bool.not_eq_true', decide_eq_false_iff_not, not_le]
    constructor
    · rintro ⟨hewal, hlt⟩
      exact ⟨by omega, hw.writes e hewal⟩
    · rintro ⟨hle, he⟩
      refine ⟨hw.all _ e hle he, ?_⟩
      rcases hcond with hne | rfl
      · omega
      · simp [writeAt] at he
  have hsorted : (replayed config disk wal).Pairwise fun a b => a.seqNr ≤ b.seqNr := by
    rw [replayed, if_neg (by simp [hwal])]
    exact (config.readOrder.sorted wal).sublist filter_sublist
  have hnodup : (replayed config disk wal).Nodup := by
    rw [replayed, if_neg (by simp [hwal])]
    refine Nodup.sublist filter_sublist ((config.readOrder.perm wal).nodup_iff.mpr ?_)
    exact hw.nodup.of_map _
  have hlt := walEntriesFrom_sorted n (history.drop n)
  have hperm : (replayed config disk wal).Perm (walEntriesFrom n (history.drop n)) :=
    (perm_ext_iff_of_nodup hnodup
      (hlt.imp fun hab he => absurd (he ▸ hab) (lt_irrefl _))).mpr hmem
  -- two sorted arrangements of entries with different numbers are equal
  refine hperm.eq_of_pairwise (fun a b ha hb hab hba => ?_) hsorted (hlt.imp Nat.le_of_lt)
  have ha' := (mem_walEntriesFrom_drop.mp ((hmem a).mp ha)).2
  have hb' := (mem_walEntriesFrom_drop.mp hb).2
  rw [Nat.le_antisymm hab hba] at ha'
  exact some.inj (ha'.symm.trans hb')

/-! ### Reading after the load -/

theorem SstsHold.sst_value (h : SstsHold config part disk history n) (k : K) :
    ((readOrder (((disk (part k)).loadPartition).levelList config.sst)).findSome?
      fun X => X.find k).map Record.value =
      (lastPut (history.take n) k).map (encodeValue .inPlaceValue) := by
  have hlevels := h.levels (part k)
  have hmem : ∀ X, X ∈ readOrder (((disk (part k)).loadPartition).levelList config.sst) ↔
      ∃ i < config.sst.maxNumLevels, X ∈ (disk (part k)).manifest i :=
    fun X => LevelsOk.mem_readOrder
  have hsorted : ∀ X ∈ readOrder (((disk (part k)).loadPartition).levelList config.sst),
      X.Sorted := by
    intro X hX
    obtain ⟨i, -, hXi⟩ := (hmem X).mp hX
    exact (hlevels.sst i X hXi).2.1
  -- a write under `k` among the first `n` has a record at least as new
  have hnewest : ∀ s w, (history.take n)[s]? = some w → w.1 = k →
      ∃ X ∈ readOrder (((disk (part k)).loadPartition).levelList config.sst),
        ∃ r ∈ X.entries, r.key = k ∧ s ≤ r.stamp := by
    intro s w hs hk
    obtain ⟨hlt, -⟩ := List.getElem?_eq_some_iff.mp hs
    have hsn : s < n := lt_of_lt_of_le hlt (by simp)
    rw [List.getElem?_take_of_lt hsn] at hs
    obtain ⟨i, X, hX, r, hr, hrk, hle⟩ := h.newest s hsn ⟨s, w.1, _⟩ (by rw [writeAt, hs]; rfl)
    rw [hk] at hX hrk
    exact ⟨X, (hmem X).mpr ⟨i, hlevels.lt_of_mem hX, hX⟩, r, hr, hrk, hle⟩
  rcases e : (readOrder (((disk (part k)).loadPartition).levelList config.sst)).findSome?
    fun X => X.find k with - | r
  · -- no record, hence no write
    rw [e]
    have hnone : lookup Prod.fst (history.take n).reverse k = none := by
      refine lookup_eq_none_iff.mpr fun w hw hk => ?_
      obtain ⟨s, hs⟩ := mem_iff_getElem?.mp (mem_reverse.mp hw)
      obtain ⟨X, hX, r, hr, hrk, -⟩ := hnewest s w hs hk
      exact Sst.find_eq_none_iff.mp (List.findSome?_eq_none_iff.mp e X hX) r hr hrk
    rw [lastPut, hnone]
    rfl
  · rw [e]
    obtain ⟨X, hX, hfind⟩ := List.exists_of_findSome?_eq_some e
    obtain ⟨hr, hrk⟩ := (Sst.find_eq_some_iff (hsorted X hX)).mp hfind
    obtain ⟨i, -, hXi⟩ := (hmem X).mp hX
    obtain ⟨-, hlt, hwrite⟩ := h.records _ i X hXi r hr
    obtain ⟨w, hw, hrw⟩ := map_eq_some_iff.mp hwrite
    obtain ⟨-, hkey, hvalue⟩ := WalEntry.mk.inj hrw
    -- its write is the last one under the key
    have hlast : lookup Prod.fst (history.take n).reverse w.1 = some w := by
      refine lookup_reverse_of_last (j := r.stamp) ?_ fun s w' hs hk => ?_
      · rw [List.getElem?_take_of_lt hlt, hw]
      · obtain ⟨Y, hY, r', hr', hrk', hle⟩ := hnewest s w' hs (hk.trans (hkey.trans hrk))
        exact hle.trans (findSome_stamp hlevels.readOrder_pairwise hsorted e Y hY r' hr' hrk')
    rw [lastPut, ← hrk, ← hkey, hlast]
    exact congrArg some hvalue.symm

/-- What a key reads as. -/
def PutAnswer (last : Option Bytes) (answer : Expected Bytes) : Prop :=
  match last with
  | some data => answer = .ok data
  | none => answer = .error { msg := "Key not found", code := .keyNotFound }

theorem SstsHold.reads (h : SstsHold config part disk history n) {probe : Sst K → K → Bool}
    (hprobe : NoFalseNegatives probe) (toHexString : K → String) (k : K) :
    PutAnswer (lastPut history k)
      ((replayInto (loadPartitions config disk)
        (walEntriesFrom n (history.drop n))).getAsync config.sst part probe toHexString k) := by
  have htable : ((insertAll .empty 0 (walEntriesFrom n (history.drop n))).get k).map
      MemtableEntry.value =
      ((KeyedList.lookup WalEntry.key (walEntriesFrom n (history.drop n)).reverse k).map
        WalEntry.value).or (((.empty : Skiplist K).get k).map MemtableEntry.value) :=
    get_insertAll (by simp [Skiplist.empty]) k
  rw [lookup_walEntriesFrom, Skiplist.get_empty, map_none, or_none] at htable
  have hdec : ∀ X ∈ readOrder (((disk (part k)).loadPartition).levelList config.sst),
      X.AllDecodable :=
    fun X hX => ((h.levels (part k)).readOrder_sst hX).2.2
  have hmemtable : (replayInto (loadPartitions config disk)
      (walEntriesFrom n (history.drop n))).memtableGet toHexString k =
      memtableGetFrom toHexString k [insertAll .empty 0 (walEntriesFrom n (history.drop n))] := rfl
  rw [lastPut_split n, Database.getAsync]
  rcases e : (insertAll .empty 0 (walEntriesFrom n (history.drop n))).get k with - | a
  · -- not replayed: the SSTs answer
    rw [e] at htable
    have hdrop : lastPut (history.drop n) k = none := map_eq_none_iff.mp htable.symm
    have hsst := h.sst_value k
    have hfind : (replayInto (loadPartitions config disk)
        (walEntriesFrom n (history.drop n))).findValue config.sst part probe toHexString k =
        lookupAsync probe (((disk (part k)).loadPartition).levelList config.sst) k := by
      rw [Database.findValue, hmemtable, memtableGetFrom, e]
      rfl
    rw [hdrop, none_or, hfind, lookupAsync_eq hprobe k hdec]
    rcases hit : (readOrder (((disk (part k)).loadPartition).levelList config.sst)).findSome?
      fun X => X.find k with - | r
    · rw [hit] at hsst ⊢
      rw [map_eq_none_iff.mp hsst.symm]
      rfl
    · rw [hit] at hsst ⊢
      obtain ⟨data, hdata, hval⟩ := map_eq_some_iff.mp hsst.symm
      rw [hdata]
      simp [PutAnswer, Record.decode, ← hval]
  · rw [e] at htable
    obtain ⟨data, hdata, hval⟩ := map_eq_some_iff.mp htable.symm
    have hfind : (replayInto (loadPartitions config disk)
        (walEntriesFrom n (history.drop n))).findValue config.sst part probe toHexString k =
        .ok (.bytes data) := by
      rw [Database.findValue, hmemtable, memtableGetFrom, e]
      simp [← hval]
    rw [hdata, hfind]
    rfl

end Load

/-- **What a load brings back.**  The first `n` puts of a history are in the SSTs,
and the WAL has at least the others: exactly these are inserted again, and every
key reads as last put, if and only if `n` is not zero or nothing was put, and the
arena takes the values. -/
theorem load_recovers_iff (config : LoadConfig K) (part : K → ℕ)
    (hids : ∀ k, part k ∈ config.partitionIds) (hwal : config.disableWal = false)
    (disk : ℕ → PartitionState K) (wal : List (WalEntry K)) (history : List (K × Bytes)) (n : ℕ)
    (hn : n ≤ history.length) (hssts : SstsHold config part disk history n)
    (hholds : WalHolds wal history n) (probe : Sst K → K → Bool)
    (hprobe : NoFalseNegatives probe) (toHexString : K → String) :
    (∃ db, load config disk wal = .ok db ∧
      db.table = insertAll .empty 0 (replayed config disk wal) ∧
      (∀ e ∈ wal, e ∈ replayed config disk wal ↔ n ≤ e.seqNr) ∧
      ∀ k, PutAnswer (lastPut history k) (db.getAsync config.sst part probe toHexString k)) ↔
    (n ≠ 0 ∨ history = []) ∧ ArenaTakes config (walEntriesFrom n (history.drop n)) := by
  obtain ⟨hok, herr⟩ := load_spec config disk wal
  constructor
  · rintro ⟨db, hload, -, hexact, -⟩
    have hcond : n ≠ 0 ∨ history = [] := by
      by_contra hno
      obtain ⟨hzero, hne⟩ := not_or.mp hno
      obtain rfl := not_not.mp hzero
      obtain ⟨w, ws, rfl⟩ := exists_cons_of_ne_nil hne
      -- write 0 is in the WAL, and never above the threshold
      have hmem : (⟨0, w.1, encodeValue .inPlaceValue w.2⟩ : WalEntry K) ∈ wal :=
        hholds.all 0 _ le_rfl rfl
      have hin := (hexact _ hmem).mpr le_rfl
      rw [replayed, if_neg (by simp [hwal]), replayedAbove, mem_filter] at hin
      simp [skips] at hin
    refine ⟨hcond, ?_⟩
    rw [← hssts.replayed_eq hholds hids hwal hn hcond]
    by_contra hno
    obtain ⟨err, hbad⟩ := herr hno
    cases hbad.symm.trans hload
  · rintro ⟨hcond, htakes⟩
    have heq := hssts.replayed_eq hholds hids hwal hn hcond
    rw [← heq] at htakes
    refine ⟨_, hok htakes, rfl, fun e he => ?_, fun k => ?_⟩
    · rw [heq, mem_walEntriesFrom_drop]
      exact ⟨And.left, fun hle => ⟨hle, hholds.writes e he⟩⟩
    · rw [heq]
      exact hssts.reads hprobe toHexString k

/-- Put 0 is in an SST of level 0. -/
def exampleDisk (p : ℕ) : PartitionState ℕ :=
  { manifest :=
      if p = 0 then Function.update (fun _ => []) 0 [exampleSst 0 0 [⟨1, 0, [1, 10]⟩]]
      else fun _ => [] }

theorem mem_exampleDisk {p i : ℕ} {X : Sst ℕ} (hX : X ∈ (exampleDisk p).manifest i) :
    p = 0 ∧ X = exampleSst 0 0 [⟨1, 0, [1, 10]⟩] := by
  by_cases hp : p = 0
  · by_cases hi : i = 0
    · subst hp hi
      exact ⟨rfl, mem_singleton.mp hX⟩
    · simp [exampleDisk, hp, hi] at hX
  · simp [exampleDisk, hp] at hX

theorem sstsHold_exampleDisk :
    SstsHold exampleLoadConfig (fun _ => 0) exampleDisk [(1, [10]), (1, [11])] 1 := by
  refine ⟨fun p => ?_, ?_, ?_, ?_⟩
  · by_cases hp : p = 0
    · subst hp
      exact LevelsOk.empty.push (by decide) lastOrder_older ⟨rfl, by decide, by decide⟩
        (by simp) (by simp)
    · simp only [exampleDisk, if_neg hp]
      exact LevelsOk.empty
  · intro p i X hX r hr
    obtain ⟨rfl, rfl⟩ := mem_exampleDisk hX
    obtain rfl := mem_singleton.mp hr
    exact ⟨rfl, by decide, rfl⟩
  · intro p i X hX
    obtain ⟨rfl, rfl⟩ := mem_exampleDisk hX
    exact ⟨by decide, by decide⟩
  · intro s hs e he
    obtain rfl : s = 0 := by omega
    obtain rfl := some.inj he
    exact ⟨0, exampleSst 0 0 [⟨1, 0, [1, 10]⟩], by decide, ⟨1, 0, [1, 10]⟩, by decide, rfl, le_rfl⟩

theorem walHolds_example : WalHolds [⟨0, 1, [1, 10]⟩, ⟨1, 1, [1, 11]⟩] [(1, [10]), (1, [11])] 1 := by
  refine ⟨by decide, by decide, fun s e hs he => ?_⟩
  rcases s with - | - | s
  · omega
  · obtain rfl := some.inj he
    decide
  · cases he

/-- Put 1 is only in the WAL, and a load brings it back. -/
theorem load_recovers_iff_example :
    ∃ db, load exampleLoadConfig exampleDisk [⟨0, 1, [1, 10]⟩, ⟨1, 1, [1, 11]⟩] = .ok db ∧
      PutAnswer (some [11]) (db.getAsync ⟨3, 2, 4⟩ (fun _ => 0) (fun _ _ => true) toString 1) := by
  obtain ⟨db, hload, -, -, hreads⟩ := (load_recovers_iff exampleLoadConfig (fun _ => 0)
    (fun _ => by decide) rfl exampleDisk [⟨0, 1, [1, 10]⟩, ⟨1, 1, [1, 11]⟩]
    [(1, [10]), (1, [11])] 1 (by decide) sstsHold_exampleDisk walHolds_example
    (fun _ _ => true) (fun _ _ _ => rfl) toString).mpr ⟨.inl (by decide), by decide⟩
  exact ⟨db, hload, hreads 1⟩

/-- **With no SST, a load loses put 0**, which is in the WAL. -/
theorem load_skips_write_zero :
    SstsHold exampleLoadConfig (fun _ => 0) (fun _ => {}) [(1, [10])] 0 ∧
      WalHolds [⟨0, 1, [1, 10]⟩] [(1, [10])] 0 ∧ lastPut [(1, [10])] 1 = some [10] ∧
      ∃ db, load exampleLoadConfig (fun _ => {}) [⟨0, 1, [1, 10]⟩] = .ok db ∧
        db.getAsync ⟨3, 2, 4⟩ (fun _ => 0) (fun _ _ => true) toString 1 =
          .error { msg := "Key not found", code := .keyNotFound } := by
  refine ⟨⟨fun p => LevelsOk.empty, ?_, ?_, ?_⟩, ⟨by decide, by decide, ?_⟩, rfl, _, rfl, rfl⟩
  · intro p i X hX
    cases hX
  · intro p i X hX
    cases hX
  · intro s hs
    omega
  · intro s e _ he
    rcases s with - | s
    · obtain rfl := some.inj he
      decide
    · cases he

end HedgeDB
